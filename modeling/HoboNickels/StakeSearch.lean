import HoboNickels.Kernel

/-!
# The wallet's kernel search

`ScanForStakeKernelHash`, the loop with which the wallet looks for a kernel that
`CheckStakeKernelHash` will accept. It goes through the coins of `mapMeta`, and for each coin back
in time from `settings.nTime`, at most sixty seconds.

The age test is made once for each coin, on `settings.nTime - nMaxStakeSearchInterval`. In the first
minute of the epoch the unsigned subtraction wraps and the search can return a kernel that is too
young (`scan_too_young`). From then on, what the search finds is what the check accepts
(`scanForStakeKernelHash_agrees_iff`).
-/

namespace HoboNickels

open ChainState

structure KernelSearchSettings where
  nBits : Nat
  nTime : Nat
  nSearchInterval : Nat
  deriving DecidableEq, Repr

/-- `CoinsSet::value_type`: a wallet transaction and the number of one of its outputs. -/
structure WalletCoin where
  tx : CTransaction
  n : Nat
  deriving DecidableEq, Repr

def WalletCoin.outPoint (c : Crypto) (coin : WalletCoin) : COutPoint := ⟨c.txHash coin.tx, coin.n⟩

/-- What is cached for a coin: `((txindex, (tx, vout.n)), (block, modifier))`. -/
structure MetaEntry where
  txindex : CTxIndex
  pcoin : WalletCoin
  block : CBlockHeader
  nStakeModifier : Nat

def MetaEntry.nTxOffset (e : MetaEntry) : Nat :=
  uint32 ((e.txindex.pos.nTxPos : Int) - e.txindex.pos.nBlockPos)

/-- `MetaMap`, in the order of iteration. The keys are the outpoints of the coins. -/
structure MetaMap (c : Crypto) where
  items : List (COutPoint × MetaEntry)
  keyed : ∀ item ∈ items, item.1 = item.2.pcoin.outPoint c
  nodup : (items.map Prod.fst).Nodup

/-- Whether the coins cache is still valid when a coin is taken up, and before each second, with no
shutdown requested. -/
structure SearchInterrupts where
  coinActual : Nat → Bool
  timeActual : Nat → Nat → Bool

structure FoundKernel where
  kernelcoin : WalletCoin
  nTimeTx : Nat
  nBlockTime : Nat
  deriving DecidableEq, Repr

def nMaxStakeSearchInterval : Nat := 60

section

variable (c : Crypto) (fTestNet : Bool) (s : ChainState) (mapMeta : MetaMap c)
  (settings : KernelSearchSettings)

/-- The test of the inner loop: the kernel hash at `nTimeTx` meets the weighted target. -/
def ChainState.kernelMeetsTarget (nBits : Nat) (e : MetaEntry) (nTimeTx : Nat) : Bool :=
  let nValueIn := (e.pcoin.tx.vout.getD e.pcoin.n default).nValue
  let bnCoinDayWeight := ((nValueIn
    * getWeight fTestNet s.nBestHeight e.pcoin.tx.nTime nTimeTx).tdiv coin).tdiv (24 * 60 * 60)
  let bnTargetProofOfStake := bnCoinDayWeight * setCompact nBits
  let hashProofOfStake := c.hashKernel e.nStakeModifier e.block.nTime e.nTxOffset e.pcoin.tx.nTime
    e.pcoin.n nTimeTx
  decide (bnTargetProofOfStake ≥ hashProofOfStake)

/-- The inner loop from step `n` on, with `left` steps to go: the step of the first hit. -/
def searchBack (actual hit : Nat → Bool) : Nat → Nat → Option Nat
  | 0, _ => none
  | left + 1, n =>
    if actual n then
      if hit n then some n else searchBack actual hit left (n + 1)
    else none

def ChainState.scanCoins (c : Crypto) (fTestNet : Bool) (s : ChainState)
    (settings : KernelSearchSettings) (w : SearchInterrupts) :
    Nat → List (COutPoint × MetaEntry) → Option FoundKernel
  | _, [] => none
  | k, (_, e) :: rest =>
    if w.coinActual k then
      -- only count coins meeting min age requirement
      if uint32 (getStakeMinAge fTestNet s.nBestHeight + e.block.nTime : Nat)
          > uint32 ((settings.nTime : Int) - nMaxStakeSearchInterval) then
        s.scanCoins c fTestNet settings w (k + 1) rest
      else
        let nCurrentSearchInterval := min settings.nSearchInterval nMaxStakeSearchInterval
        match searchBack (w.timeActual k)
            (fun n => s.kernelMeetsTarget c fTestNet settings.nBits e
              (uint32 ((settings.nTime : Int) - n)))
            nCurrentSearchInterval 0 with
        | some n => some ⟨e.pcoin, uint32 ((settings.nTime : Int) - n), e.block.nTime⟩
        | none => s.scanCoins c fTestNet settings w (k + 1) rest
    else none

def ChainState.scanForStakeKernelHash (w : SearchInterrupts) : Option FoundKernel :=
  s.scanCoins c fTestNet settings w 0 mapMeta.items

/-! ## What the search returns -/

theorem searchBack_eq_some {actual hit : Nat → Bool} {left n m : Nat}
    (h : searchBack actual hit left n = some m) : m < n + left ∧ hit m = true := by
  fun_induction searchBack actual hit left n with
  | case1 | case4 => cases h
  | case2 left n _ hhit =>
    cases h
    exact ⟨by omega, hhit⟩
  | case3 left n _ _ ih =>
    obtain ⟨_, hhit⟩ := ih h
    exact ⟨by omega, hhit⟩

structure ChainState.FoundAt (e : MetaEntry) (n : Nat) (r : FoundKernel) : Prop where
  result : r = ⟨e.pcoin, uint32 ((settings.nTime : Int) - n), e.block.nTime⟩
  window : n < settings.nSearchInterval ∧ n < nMaxStakeSearchInterval
  old_enough : uint32 (getStakeMinAge fTestNet s.nBestHeight + e.block.nTime : Nat)
    ≤ uint32 ((settings.nTime : Int) - nMaxStakeSearchInterval)
  meets_target : s.kernelMeetsTarget c fTestNet settings.nBits e r.nTimeTx = true

end

variable {c : Crypto} {t : Bool} {s : ChainState} {settings : KernelSearchSettings}

theorem ChainState.scanCoins_eq_some {w : SearchInterrupts} {r : FoundKernel}
    {items : List (COutPoint × MetaEntry)} {k : Nat}
    (h : s.scanCoins c t settings w k items = some r) :
    ∃ item ∈ items, ∃ n, s.FoundAt c t settings item.2 n r := by
  fun_induction ChainState.scanCoins c t s settings w k items with
  | case1 | case5 => cases h
  | case2 k key e rest _ _ ih | case4 k key e rest _ _ _ _ ih =>
    obtain ⟨item, hin, hfound⟩ := ih h
    exact ⟨item, List.mem_cons_of_mem _ hin, hfound⟩
  | case3 k key e rest _ hage _ n hn =>
    obtain ⟨_, hhit⟩ := searchBack_eq_some hn
    cases h
    refine ⟨_, List.mem_cons_self, n, ⟨rfl, ?_, not_lt.mp hage, hhit⟩⟩
    omega

def MetaMap.find {c : Crypto} (m : MetaMap c) (o : COutPoint) : Option MetaEntry :=
  (m.items.find? (fun item => item.1 == o)).map Prod.snd

theorem MetaMap.find_eq_some {m : MetaMap c} {item : COutPoint × MetaEntry}
    (hin : item ∈ m.items) : m.find (item.2.pcoin.outPoint c) = some item.2 := by
  obtain ⟨found, hfound⟩ : ∃ found, m.items.find? (fun i => i.1 == item.1) = some found :=
    Option.isSome_iff_exists.mp (List.find?_isSome.mpr ⟨item, hin, beq_self_eq_true _⟩)
  have hkey : found.1 = item.1 := by simpa using List.find?_some hfound
  have hsame : found = item :=
    List.inj_on_of_nodup_map m.nodup (List.mem_of_find?_eq_some hfound) hin hkey
  rw [find, ← m.keyed item hin, hfound, hsame]
  rfl

theorem ChainState.scanForStakeKernelHash_eq_some {mapMeta : MetaMap c} {w : SearchInterrupts}
    {r : FoundKernel} (h : s.scanForStakeKernelHash c t mapMeta settings w = some r) :
    ∃ e n, mapMeta.find (r.kernelcoin.outPoint c) = some e ∧ s.FoundAt c t settings e n r := by
  obtain ⟨item, hin, n, hfound⟩ := scanCoins_eq_some h
  refine ⟨item.2, n, ?_, hfound⟩
  rw [hfound.result]
  exact MetaMap.find_eq_some hin

/-! ## Agreement with the check -/

/-- The cached data of a coin are those of the node. The last two fields are what the chain promises
of the times. -/
structure MetaEntry.Loaded (c : Crypto) (fTestNet : Bool) (s : ChainState) (e : MetaEntry) :
    Prop where
  contained : ∃ block : CBlock, block.toCBlockHeader = e.block ∧ e.pcoin.tx ∈ block.vtx
  output : e.pcoin.n < e.pcoin.tx.vout.length
  indexed : s.db.readTxIndex (c.txHash e.pcoin.tx) = some e.txindex
  modifier : s.getKernelStakeModifier fTestNet (c.scryptBlockhash e.block) = some e.nStakeModifier
  tx_time : e.pcoin.tx.nTime ≤ e.block.nTime
  age : e.block.nTime + getStakeMinAge fTestNet s.nBestHeight < 2 ^ 32

def MetaEntry.kernel (c : Crypto) (e : MetaEntry) (nTimeTx : Nat) : StakeKernel where
  blockFrom := e.block
  nTxPrevOffset := e.nTxOffset
  txPrev := e.pcoin.tx
  prevout := e.pcoin.outPoint c
  nTimeTx := nTimeTx

/-- In every node and for every `mapMeta`, what the search finds is valid for the check in the same
state. -/
def KernelSearchSettings.Agrees (settings : KernelSearchSettings) : Prop :=
  ∀ (c : Crypto) (fTestNet : Bool) (s : ChainState) (mapMeta : MetaMap c) (w : SearchInterrupts)
    (r : FoundKernel) (e : MetaEntry),
    settings.nTime + getStakeMinAge fTestNet s.nBestHeight < 2 ^ 32 →
    s.scanForStakeKernelHash c fTestNet mapMeta settings w = some r →
    mapMeta.find (r.kernelcoin.outPoint c) = some e → e.Loaded c fTestNet s →
    (s.checkStakeKernelHash c fTestNet settings.nBits (e.kernel c r.nTimeTx)).fValid = true

theorem uint32_lt (x : Int) : uint32 x < 2 ^ 32 := by
  unfold uint32
  omega

theorem uint32_of_lt {n : Nat} (h : n < 2 ^ 32) : uint32 n = n := by
  have : ((n : Int) % 2 ^ 32) = n := Int.emod_eq_of_lt (by omega) (by omega)
  rw [uint32, this, Int.toNat_natCast]

theorem uint32_sub {n m : Nat} (h : n < 2 ^ 32) (hle : m ≤ n) : uint32 ((n : Int) - m) = n - m := by
  rw [← Nat.cast_sub hle]
  exact uint32_of_lt (by omega)

theorem ChainState.checkStakeKernelHash_of_meetsTarget {nBits nTimeTx : Nat} {e : MetaEntry}
    (hloaded : e.Loaded c t s) (hold : e.block.nTime + getStakeMinAge t s.nBestHeight ≤ nTimeTx)
    (hmeets : s.kernelMeetsTarget c t nBits e nTimeTx = true) :
    (s.checkStakeKernelHash c t nBits (e.kernel c nTimeTx)).fValid = true := by
  have hafter : ¬ (e.kernel c nTimeTx).nTimeTx < (e.kernel c nTimeTx).txPrev.nTime := by
    have := hloaded.tx_time
    change ¬ nTimeTx < e.pcoin.tx.nTime
    omega
  have hmature : ¬ uint32 ((e.kernel c nTimeTx).blockFrom.nTime
      + getStakeMinAge t s.nBestHeight : Nat) > (e.kernel c nTimeTx).nTimeTx := by
    change ¬ uint32 (e.block.nTime + getStakeMinAge t s.nBestHeight : Nat) > nTimeTx
    rw [uint32_of_lt hloaded.age]
    omega
  have hmodifier : s.getKernelStakeModifier t (c.scryptBlockhash (e.kernel c nTimeTx).blockFrom)
      = some e.nStakeModifier := hloaded.modifier
  rw [checkStakeKernelHash, if_neg hafter, if_neg hmature, hmodifier]
  exact hmeets

theorem KernelSearchSettings.agrees_of_minute
    (htime : nMaxStakeSearchInterval ≤ settings.nTime) : settings.Agrees := by
  intro c t s mapMeta w r e hbound hscan hfind hloaded
  obtain ⟨_, n, hfind', hfound⟩ := scanForStakeKernelHash_eq_some hscan
  rw [hfind] at hfind'
  cases hfind'
  have hlt := hfound.window.2
  have hTime : r.nTimeTx = settings.nTime - n := by
    rw [hfound.result]
    exact uint32_sub (by omega) (by omega)
  have hage : e.block.nTime + getStakeMinAge t s.nBestHeight
      ≤ settings.nTime - nMaxStakeSearchInterval := by
    have hcut := hfound.old_enough
    rw [uint32_sub (by omega) htime, Nat.add_comm, uint32_of_lt hloaded.age] at hcut
    exact hcut
  apply checkStakeKernelHash_of_meetsTarget hloaded
  · omega
  · exact hfound.meets_target

theorem KernelSearchSettings.agrees_of_empty
    (hnone : settings.nSearchInterval = 0) : settings.Agrees := by
  intro c t s mapMeta w r e _ hscan _ _
  obtain ⟨_, n, _, hfound⟩ := scanForStakeKernelHash_eq_some hscan
  have := hfound.window.1
  omega

/-! ## The first minute

The coin of `forkKernel`, with `nValue` units, in the wallet of a node on the branch of block 1.
A search time in the first minute of the epoch is decades before the coin. -/

def minuteTx (nValue : Int) : CTransaction :=
  { forkKernel.txPrev with vout := [⟨nValue, [0x51]⟩] }

def minuteEntry (nValue : Int) : MetaEntry where
  txindex := CTxIndex.new ⟨1, 1008, 1089⟩ 1
  pcoin := ⟨minuteTx nValue, 0⟩
  block := forkKernel.blockFrom
  nStakeModifier := 2

def minuteState : ChainState :=
  { forkState false with
    db := CTxDB.updateTxIndex ⟨∅, none⟩ (forkTime + 60) (minuteEntry 0).txindex }

def minuteCrypto : Crypto := { forkCrypto with hashKernel := fun _ _ _ _ _ _ => 0 }

def minuteMap (c : Crypto) (nValue : Int) : MetaMap c where
  items := [((minuteEntry nValue).pcoin.outPoint c, minuteEntry nValue)]
  keyed := by
    intro item hin
    rw [List.mem_singleton.mp hin]
  nodup := List.nodup_singleton _

def neverInterrupted : SearchInterrupts := ⟨fun _ => true, fun _ _ => true⟩

theorem minuteEntry_loaded (nValue : Int) (c : Crypto) (htx : c.txHash = forkCrypto.txHash)
    (hblock : c.scryptBlockhash = forkCrypto.scryptBlockhash) :
    (minuteEntry nValue).Loaded c false minuteState where
  contained := ⟨⟨forkKernel.blockFrom, [minuteTx nValue], []⟩, rfl, List.mem_singleton_self _⟩
  output := Nat.zero_lt_one
  indexed := by
    have hid : c.txHash (minuteEntry nValue).pcoin.tx = forkTime + 60 := by rw [htx]; rfl
    rw [hid, minuteState, CTxDB.readTxIndex_updateTxIndex]
    rfl
  modifier := by
    have hfrom : c.scryptBlockhash (minuteEntry nValue).block = 1 := by rw [hblock]; rfl
    rw [hfrom]
    change minuteState.getKernelStakeModifier false 1 = some 2
    decide +kernel
  tx_time := le_refl _
  age := by
    change forkTime + 60 + getStakeMinAge false 2 < 2 ^ 32
    decide +kernel

theorem minuteEntry_age (nValue : Int) : uint32 (getStakeMinAge false minuteState.nBestHeight
    + (minuteEntry nValue).block.nTime : Nat) = 864000 + (forkTime + 60) := by
  change uint32 (getStakeMinAge false 2 + (forkTime + 60) : Nat) = _
  decide +kernel

/-- In the first minute the age test compares with a wrapped time, and the first second is a hit. -/
theorem scan_minute {nValue : Int}
    (htime : settings.nTime < nMaxStakeSearchInterval) (hsome : 0 < settings.nSearchInterval)
    (hhit : minuteState.kernelMeetsTarget c false settings.nBits (minuteEntry nValue)
      settings.nTime = true) :
    minuteState.scanForStakeKernelHash c false (minuteMap c nValue) settings neverInterrupted
      = some ⟨(minuteEntry nValue).pcoin, settings.nTime, forkTime + 60⟩ := by
  have hmax : nMaxStakeSearchInterval = 60 := rfl
  have hfork : forkTime = 1500000000 := rfl
  have hwrapped : uint32 ((settings.nTime : Int) - nMaxStakeSearchInterval)
      = 2 ^ 32 + settings.nTime - 60 := by
    have hmod : ((settings.nTime : Int) - 60) % 2 ^ 32 = 2 ^ 32 + settings.nTime - 60 := by omega
    rw [uint32, hmax, Nat.cast_ofNat]
    omega
  obtain ⟨left, hleft⟩ : ∃ left, min settings.nSearchInterval nMaxStakeSearchInterval = left + 1 :=
    ⟨min settings.nSearchInterval nMaxStakeSearchInterval - 1, by omega⟩
  have hnow : uint32 ((settings.nTime : Int) - ((0 : Nat) : Int)) = settings.nTime := by
    rw [uint32_sub (by omega) (Nat.zero_le _), Nat.sub_zero]
  unfold scanForStakeKernelHash minuteMap scanCoins
  simp only [neverInterrupted, if_true]
  rw [minuteEntry_age, hwrapped, if_neg (by omega), hleft, searchBack, if_pos rfl,
    if_pos (by rw [hnow]; exact hhit)]
  simp only [hnow]
  rfl

theorem check_minute {nBits nTimeTx : Nat} {nValue : Int}
    (htime : nTimeTx < nMaxStakeSearchInterval) :
    (minuteState.checkStakeKernelHash c false nBits
      ((minuteEntry nValue).kernel c nTimeTx)).fValid = false := by
  have hbefore : ((minuteEntry nValue).kernel c nTimeTx).nTimeTx
      < ((minuteEntry nValue).kernel c nTimeTx).txPrev.nTime := by
    change nTimeTx < forkTime + 60
    have hmax : nMaxStakeSearchInterval = 60 := rfl
    omega
  rw [checkStakeKernelHash, if_pos hbefore]

theorem KernelSearchSettings.not_agrees_of_minute
    (htime : settings.nTime < nMaxStakeSearchInterval) (hsome : 0 < settings.nSearchInterval) :
    ¬ settings.Agrees := by
  intro hagrees
  have hhit : minuteState.kernelMeetsTarget minuteCrypto false settings.nBits (minuteEntry 0)
      settings.nTime = true := by
    have hvalue : ((minuteEntry 0).pcoin.tx.vout.getD (minuteEntry 0).pcoin.n default).nValue = 0 :=
      rfl
    unfold kernelMeetsTarget
    rw [hvalue]
    simp only [zero_mul, Int.zero_tdiv]
    rfl
  have hscan := scan_minute htime hsome hhit
  have hbound : settings.nTime + getStakeMinAge false minuteState.nBestHeight < 2 ^ 32 := by
    have hage : getStakeMinAge false minuteState.nBestHeight = 864000 := by decide +kernel
    have hmax : nMaxStakeSearchInterval = 60 := rfl
    omega
  have hfind : (minuteMap minuteCrypto 0).find ((minuteEntry 0).pcoin.outPoint minuteCrypto)
      = some (minuteEntry 0) :=
    MetaMap.find_eq_some (m := minuteMap minuteCrypto 0) (List.mem_singleton_self _)
  have hvalid := hagrees minuteCrypto false minuteState (minuteMap minuteCrypto 0)
    neverInterrupted _ (minuteEntry 0) hbound hscan hfind (minuteEntry_loaded 0 _ rfl rfl)
  rw [check_minute htime] at hvalid
  cases hvalid

/-- **The search agrees with validation from the second minute on.** Every kernel found, in any node
state and for any loaded coin, is valid for `CheckStakeKernelHash`, if and only if the search time
is at least the longest search window, or the search covers no second. -/
theorem scanForStakeKernelHash_agrees_iff (settings : KernelSearchSettings) :
    settings.Agrees ↔
      nMaxStakeSearchInterval ≤ settings.nTime ∨ settings.nSearchInterval = 0 := by
  constructor
  · intro hagrees
    by_contra hnot
    rw [not_or, not_le] at hnot
    exact KernelSearchSettings.not_agrees_of_minute hnot.1 (Nat.pos_of_ne_zero hnot.2) hagrees
  · rintro (htime | hnone)
    · exact KernelSearchSettings.agrees_of_minute htime
    · exact KernelSearchSettings.agrees_of_empty hnone

/-- A million coins at second 59, and a target whose sign bit is set: weight and target are both
negative. -/
def minuteSettings : KernelSearchSettings := ⟨0x20ffffff, 59, 60⟩

theorem scan_too_young :
    (minuteEntry (1000000 * coin)).Loaded forkCrypto false minuteState ∧
      minuteState.scanForStakeKernelHash forkCrypto false (minuteMap forkCrypto (1000000 * coin))
        minuteSettings neverInterrupted
        = some ⟨(minuteEntry (1000000 * coin)).pcoin, 59, forkTime + 60⟩ ∧
      (minuteState.checkStakeKernelHash forkCrypto false minuteSettings.nBits
        ((minuteEntry (1000000 * coin)).kernel forkCrypto 59)).fValid = false ∧
      ¬ minuteSettings.Agrees := by
  refine ⟨minuteEntry_loaded _ _ rfl rfl, ?_, check_minute (by decide), ?_⟩
  · apply scan_minute (by decide) (by decide)
    decide +kernel
  · exact KernelSearchSettings.not_agrees_of_minute (by decide) (by decide)

end HoboNickels

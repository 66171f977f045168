import HoboNickels.Staking
import HoboNickels.WalletSync

/-!
# What the wallet remembers between two attempts to stake

Between two attempts the wallet keeps its balance (`nStakeCacheBalance`), the coins it can stake
(`mapMeta`), and the header and stake modifier of each source block (`mapStakeMetaCache`). The flag
`fCoinsDataActual` says that the first two are current: `SyncWithWallets` clears it, and whoever
finds it cleared refreshes `mapMeta` and sets it.

`GetStakeWeight` refreshes the coins and sets the flag, but leaves the balance as it was. And
`SetCoinsDataActual` does nothing while the wallet is locked, so what arrives then leaves the flag
set. `staking_balance_current_iff` says that nothing else is wrong, apart from files that cannot be
written.
-/

namespace HoboNickels

open Throwing Throwing.Routine List MetaMap

def WalletCoin.Spendable (pcoin : WalletCoin) : Prop :=
  pcoin.n < pcoin.tx.vout.length ∧ pcoin.tx.serializeSize ≤ maxBlockSize

def COutPoint.before (a b : COutPoint) : Bool :=
  decide (a.hash < b.hash) || (decide (a.hash = b.hash) && decide (a.n < b.n))

variable {item : COutPoint × MetaEntry}

namespace MetaMap

variable {c : Crypto}

def empty : MetaMap c := ⟨[], by simp, nodup_nil⟩

def put (m : MetaMap c) (e : MetaEntry) : MetaMap c where
  items := (m.items.filter fun item => item.1 != e.pcoin.outPoint c).orderedInsert
    (fun a b => a.1.before b.1 = true) (e.pcoin.outPoint c, e)
  keyed := by
    intro item hitem
    rcases (mem_orderedInsert _).mp hitem with rfl | hitem
    · rfl
    · exact m.keyed item (mem_of_mem_filter hitem)
  nodup := by
    have hperm := (perm_orderedInsert (fun a b => a.1.before b.1 = true)
      (e.pcoin.outPoint c, e) (m.items.filter fun item => item.1 != e.pcoin.outPoint c)).map
      Prod.fst
    refine hperm.nodup_iff.mpr (nodup_cons.mpr ⟨?_, ?_⟩)
    · intro hmem
      obtain ⟨item, hitem, hkey⟩ := mem_map.mp hmem
      simp [hkey] at hitem
    · exact (filter_sublist.map Prod.fst).nodup m.nodup

theorem mem_put {m : MetaMap c} {e : MetaEntry}
    (h : item ∈ (m.put e).items) : item.2 = e ∨ item ∈ m.items := by
  rcases (mem_orderedInsert _).mp h with rfl | h
  · exact .inl rfl
  · exact .inr (mem_of_mem_filter h)

end MetaMap

/-! ## The source blocks -/

/-- `mapStakeMetaCache`: header and stake modifier by the position of the block. -/
abbrev StakeMetaCache := Nat × Nat → Option (CBlockHeader × Nat)

structure StakeView where
  chain : ChainState
  disk : Disk
  headerOk : WalletCoin → Bool

namespace StakeView

variable (V : StakeView) (env : Env)

variable (cache : StakeMetaCache) (pcoin : WalletCoin) (blockPos : Nat × Nat)

def readHeader : Option CBlockHeader :=
  if openBlockFile blockPos.1 && V.headerOk pcoin then
    (V.disk.block blockPos.1 blockPos.2).map CBlock.toCBlockHeader
  else none

/-- Header and stake modifier of the source block, from the cache if it has them. -/
def resolve : Option (CBlockHeader × Nat) :=
  match cache blockPos with
  | some hit => some hit
  | none => do
    let block ← V.readHeader pcoin blockPos
    let nStakeModifier ←
      V.chain.getKernelStakeModifier env.fTestNet (env.scryptBlockhash block)
    return (block, nStakeModifier)

def loadCoin (st : MetaMap env.toCrypto × StakeMetaCache) (pcoin : WalletCoin) : MetaMap
    env.toCrypto × StakeMetaCache :=
  match V.chain.db.readOnly.readTxIndex (env.txHash pcoin.tx) with
  | none => st
  | some txindex =>
    match V.resolve env cache pcoin (txindex.pos.nFile, txindex.pos.nBlockPos) with
    | none => st
    | some (block, nStakeModifier) =>
      (st.1.put ⟨txindex, pcoin, block, nStakeModifier⟩,
        Function.update st.2 (txindex.pos.nFile, txindex.pos.nBlockPos)
          (some (block, nStakeModifier)))

def loadCoins (setCoins : List WalletCoin) : MetaMap env.toCrypto × StakeMetaCache :=
  setCoins.foldl (V.loadCoin env cache) (empty, fun _ => none)

end StakeView

variable {env : Env}

theorem StakeView.mem_loadCoins {V : StakeView} {cache : StakeMetaCache}
    {setCoins : List WalletCoin}
    (h : item ∈ (V.loadCoins env cache setCoins).1.items) : item.2.pcoin ∈ setCoins := by
  refine foldlRecOn setCoins _ (motive := fun st : MetaMap _ × StakeMetaCache =>
    item ∈ st.1.items → item.2.pcoin ∈ setCoins) (by simp [empty]) (fun _ hst _ hmem h => ?_) h
  rw [loadCoin] at h
  split at h
  · exact hst h
  split at h
  · exact hst h
  rcases mem_put h with h | h
  · rwa [h]
  · exact hst h

/-! ## The caches of a wallet -/

structure StakeCaches (env : Env) where
  fCoinsDataActual : Bool
  nStakeCacheBalance : Int
  mapMeta : MetaMap env.toCrypto
  spendable : ∀ item ∈ mapMeta.items, item.2.pcoin.Spendable
  mapStakeMetaCache : StakeMetaCache

/-- The answers of `GetBalance` and of `SelectCoinsForStaking` (`none` if it fails), and what the
pass over the coins reads. -/
structure StakePass where
  nBalance : Int
  setCoins : Option (List WalletCoin)
  spendable : ∀ coins, setCoins = some coins → ∀ pcoin ∈ coins, pcoin.Spendable
  view : StakeView

namespace StakeCaches

def initial : StakeCaches env := ⟨false, 0, empty, by simp [empty], fun _ => none⟩

variable (C : StakeCaches env)

variable (fLocked : Bool) (nReserveBalance : Int) (p : StakePass) (nTime : Int)

def setCoinsDataActual (fLocked fCoinsDataActualSet : Bool) : StakeCaches env :=
  if fLocked then C else { C with fCoinsDataActual := fCoinsDataActualSet }

def clearStakeMetaCache : StakeCaches env :=
  { C with mapStakeMetaCache := fun _ => none }

def rebuilds : Bool :=
  !C.fCoinsDataActual && !fLocked && p.setCoins.any fun coins => !coins.isEmpty

/-- The part that `GetStakeWeight` and `CreateCoinStake` share: cache outputs unless nothing has
changed. The call goes on if it returns true. -/
def refreshCoins : StakeCaches env × Bool :=
  if !C.fCoinsDataActual && !fLocked then
    match h : p.setCoins with
    | none | some [] => ({ C with mapMeta := empty, spendable := by simp [empty] },
        false)
    | some (pcoin :: rest) =>
      ({ C with
          mapMeta := (p.view.loadCoins env C.mapStakeMetaCache (pcoin :: rest)).1
          spendable := fun item hitem =>
            p.spendable _ h _ (StakeView.mem_loadCoins hitem)
          mapStakeMetaCache := (p.view.loadCoins env C.mapStakeMetaCache (pcoin :: rest)).2
          fCoinsDataActual := true }, true)
  else (C, true)

/-- The weights that `GetStakeWeight` adds up: minimal, maximal and total. -/
def weights (nBestHeight nTime : Int) : Nat × Nat × Nat :=
  C.mapMeta.items.foldl (fun sum item =>
    let pcoin := item.2.pcoin
    let nTimeWeight := getWeight env.fTestNet nBestHeight pcoin.tx.nTime nTime
    let nCoinDayWeight := (((((pcoin.tx.vout.getD pcoin.n default).nValue * nTimeWeight).tdiv
      coin).tdiv (24 * 60 * 60)).natAbs) % 2 ^ 64
    (if nTimeWeight > 0 ∧ nTimeWeight < nStakeMaxAge then (sum.1 + nCoinDayWeight) % 2 ^ 64
      else sum.1,
     if nTimeWeight = nStakeMaxAge then (sum.2.1 + nCoinDayWeight) % 2 ^ 64 else sum.2.1,
     if nTimeWeight > 0 then (sum.2.2 + nCoinDayWeight) % 2 ^ 64 else sum.2.2)) (0, 0, 0)

def getStakeWeight : StakeCaches env × Option (Nat × Nat × Nat) :=
  if p.nBalance ≤ nReserveBalance then (C, none)
  else
    match C.refreshCoins fLocked p with
    | (C₁, false) => (C₁, none)
    | (C₁, true) => (C₁, some (C₁.weights p.view.chain.nBestHeight nTime))

/-- The beginning of `CreateCoinStake`: the balance is only asked for while the flag is clear. -/
def refreshBalance : StakeCaches env :=
  if C.fCoinsDataActual then C else { C with nStakeCacheBalance := p.nBalance }

end StakeCaches

/-! ## CreateCoinStake -/

def StakeSettings.wallet (settings : StakeSettings) (C : StakeCaches env) :
    StakeWallet env.toCrypto where
  toStakeSettings := settings
  mapMeta := C.mapMeta
  spendable := C.spendable
  nBalance := C.nStakeCacheBalance

structure StakeCall where
  n : Node
  w : World
  settings : StakeSettings
  pass : StakePass
  interrupts : SearchInterrupts
  nBits : Nat
  nSearchInterval : Int
  nTime : Nat

/-- `CreateCoinStake` with its caches. The search looks at the flag before every coin. -/
def StakeCaches.createCoinStake (C : StakeCaches env) (fLocked : Bool) (q : StakeCall) :
    StakeCaches env × Option (CTransaction × CKey) :=
  let C₁ := C.refreshBalance q.pass
  if C₁.nStakeCacheBalance ≤ q.settings.nReserveBalance then (C₁, none)
  else
    match C₁.refreshCoins fLocked q.pass with
    | (C₂, false) => (C₂, none)
    | (C₂, true) =>
      (C₂, q.n.createCoinStake env q.w (q.settings.wallet C₂)
        ⟨fun k => C₂.fCoinsDataActual && q.interrupts.coinActual k, q.interrupts.timeActual⟩
        q.nBits q.nSearchInterval q.nTime)

/-! ## The wallet and its events -/

/-- The last two fields are not the program's: what `GetBalance` answered when `mapMeta` was last
rebuilt, and whether something has arrived since. -/
structure StakingWallet (env : Env) where
  keys : KeyStore
  mapWallet : MapWallet
  fLocked : Bool
  caches : StakeCaches env
  lastBalance : Option Int
  fArrived : Bool

/-- `SyncWithWallets` delivers a transaction or takes one back; the wallet is locked or unlocked;
the weight is asked for, or a stake is tried. -/
inductive StakeEvent where
  | deliver (io : WalletIO) (tx : CTransaction) (pblock : Option CBlock)
  | disconnect (tx : CTransaction)
  | lock
  | unlock
  | getStakeWeight (nReserveBalance : Int) (p : StakePass) (nTime : Int)
  | createCoinStake (q : StakeCall)

namespace StakingWallet

variable (W : StakingWallet env)

variable (io : WalletIO) (tx : CTransaction) (pblock : Option CBlock)

/-- What `AddToWalletIfInvolvingMe` does with a delivered transaction. -/
def added : MapWallet × Except String Bool :=
  MapWallet.addToWalletIfInvolvingMe env.toCrypto W.keys io tx pblock true W.mapWallet

def concerns : Bool :=
  pblock.isSome || match MapWallet.involvesMe env.toCrypto W.keys tx W.mapWallet with
    | .ok fInvolved => fInvolved
    | .error _ => false

/-- Does the delivery get to `SetCoinsDataActual(false)`, and is that obeyed? -/
def clears : Bool :=
  !W.fLocked && match (W.added io tx pblock).2 with
    | .ok fInvolved => fInvolved || pblock.isSome
    | .error _ => false

/-- `SyncWithWallets` with `fConnect`. An exception out of `AddToWalletIfInvolvingMe` leaves the
flag alone. -/
def deliver : StakingWallet env :=
  let W₁ := { W with
    mapWallet := (W.added io tx pblock).1, fArrived := W.fArrived || W.concerns tx pblock }
  match (W.added io tx pblock).2 with
  | .error _ => W₁
  | .ok fInvolved =>
    if fInvolved || pblock.isSome then
      { W₁ with caches := W.caches.setCoinsDataActual W.fLocked false }
    else W₁

def disconnect : StakingWallet env :=
  { W with
    mapWallet := (CWallet.sync env.toCrypto W.keys (fun _ _ => ⟨true, fun _ => false⟩)
      (.disconnected tx) W.mapWallet).1
    caches := W.caches.clearStakeMetaCache }

/-- The caches after a call, and the balance that its rebuild of `mapMeta` used, if there was
one. -/
def rebuilt (C : StakeCaches env) (fRebuilt : Bool) (nBalance : Int) : StakingWallet env :=
  if fRebuilt then { W with caches := C, lastBalance := some nBalance, fArrived := false }
  else { W with caches := C }

def run : StakeEvent → StakingWallet env
  | .deliver io tx pblock => W.deliver io tx pblock
  | .disconnect tx => W.disconnect tx
  | .lock => { W with fLocked := true }
  | .unlock => { W with fLocked := false }
  | .getStakeWeight nReserveBalance p nTime =>
    W.rebuilt (W.caches.getStakeWeight W.fLocked nReserveBalance p nTime).1
      (decide (nReserveBalance < p.nBalance) && W.caches.rebuilds W.fLocked p) p.nBalance
  | .createCoinStake q =>
    W.rebuilt (W.caches.createCoinStake W.fLocked q).1
      (decide (q.settings.nReserveBalance < q.pass.nBalance) && W.caches.rebuilds W.fLocked q.pass)
      q.pass.nBalance

/-- The balance that `CreateCoinStake` would use without asking is that of the last rebuild of
`mapMeta`, since which nothing has arrived. -/
def Current : Prop :=
  W.caches.fCoinsDataActual = true →
    W.lastBalance = some W.caches.nStakeCacheBalance ∧ W.fArrived = false

/-- What a step must not do: deliver something that concerns the wallet while the flag is set and is
not cleared; or rebuild `mapMeta` in `GetStakeWeight` when the balance is not the one remembered. -/
def Keeps : StakeEvent → Prop
  | .deliver io tx pblock =>
    W.caches.fCoinsDataActual = true → W.concerns tx pblock = true →
      W.clears io tx pblock = true
  | .getStakeWeight nReserveBalance p _ =>
    nReserveBalance < p.nBalance → W.caches.rebuilds W.fLocked p = true →
      p.nBalance = W.caches.nStakeCacheBalance
  | _ => True

/-! ## What a step does to the flag -/

end StakingWallet

namespace StakeCaches

variable {C : StakeCaches env} {fLocked : Bool} {p : StakePass}

theorem refreshCoins_spec (C : StakeCaches env) (fLocked : Bool) (p : StakePass) :
    (C.refreshCoins fLocked p).1.nStakeCacheBalance = C.nStakeCacheBalance ∧
      (C.refreshCoins fLocked p).1.fCoinsDataActual =
        (C.fCoinsDataActual || C.rebuilds fLocked p) := by
  rw [refreshCoins, rebuilds]
  by_cases hopen : (!C.fCoinsDataActual && !fLocked) = true
  · rw [if_pos hopen]
    split <;> simp_all
  · simp [hopen]

theorem getStakeWeight_spec (C : StakeCaches env) (fLocked : Bool) (nReserveBalance : Int)
    (p : StakePass) (nTime : Int) :
    (C.getStakeWeight fLocked nReserveBalance p nTime).1.nStakeCacheBalance =
        C.nStakeCacheBalance ∧
      (C.getStakeWeight fLocked nReserveBalance p nTime).1.fCoinsDataActual =
        (C.fCoinsDataActual || decide (nReserveBalance < p.nBalance) && C.rebuilds fLocked p) := by
  have hspec := C.refreshCoins_spec fLocked p
  rw [getStakeWeight]
  by_cases hlow : p.nBalance ≤ nReserveBalance
  · simp [hlow, not_lt.mpr hlow]
  rw [if_neg hlow]
  rcases hrefresh : C.refreshCoins fLocked p with ⟨_, _ | _⟩
  · simpa [hrefresh, not_le.mp hlow] using hspec
  · simpa [hrefresh, not_le.mp hlow] using hspec

theorem createCoinStake_of_actual (h : C.fCoinsDataActual = true) (q : StakeCall) :
    (C.createCoinStake fLocked q).1 = C := by
  have hbalance : C.refreshBalance q.pass = C := if_pos h
  have hcoins : C.refreshCoins fLocked q.pass = (C, true) := by simp [refreshCoins, h]
  simp only [createCoinStake, hbalance, hcoins]
  split <;> rfl

theorem createCoinStake_of_stale (h : C.fCoinsDataActual = false) (fLocked : Bool) (q : StakeCall) :
    (C.createCoinStake fLocked q).1.nStakeCacheBalance = q.pass.nBalance ∧
      (C.createCoinStake fLocked q).1.fCoinsDataActual =
        (decide (q.settings.nReserveBalance < q.pass.nBalance) && C.rebuilds fLocked q.pass) := by
  have hspec := (C.refreshBalance q.pass).refreshCoins_spec fLocked q.pass
  have hbalance : (C.refreshBalance q.pass).nStakeCacheBalance = q.pass.nBalance := by
    simp [refreshBalance, h]
  have hflag : (C.refreshBalance q.pass).fCoinsDataActual = false := by simp [refreshBalance, h]
  have hrebuilds :
      (C.refreshBalance q.pass).rebuilds fLocked q.pass = C.rebuilds fLocked q.pass := by
    simp [rebuilds, hflag, h]
  rw [hbalance, hflag, hrebuilds] at hspec
  simp only [createCoinStake, hbalance]
  by_cases hlow : q.pass.nBalance ≤ q.settings.nReserveBalance
  · rw [if_pos hlow]
    simp [hbalance, hflag, not_lt.mpr hlow]
  rw [if_neg hlow]
  rcases hrefresh : (C.refreshBalance q.pass).refreshCoins fLocked q.pass with ⟨_, _ | _⟩
  · simpa [hrefresh, not_le.mp hlow] using hspec
  · simpa [hrefresh, not_le.mp hlow] using hspec

end StakeCaches

namespace StakingWallet

variable (W : StakingWallet env) (C : StakeCaches env) (nBalance : Int)

theorem rebuilt_false : (W.rebuilt C false nBalance).Current ↔ (C.fCoinsDataActual = true →
      W.lastBalance = some C.nStakeCacheBalance ∧ W.fArrived = false) := Iff.rfl

theorem rebuilt_true : (W.rebuilt C true nBalance).Current ↔
    (C.fCoinsDataActual = true → nBalance = C.nStakeCacheBalance) := by
  simp [rebuilt, Current]

theorem deliver_spec (io : WalletIO) (tx : CTransaction) (pblock : Option CBlock) :
    (W.deliver io tx pblock).lastBalance = W.lastBalance ∧ (W.deliver io tx pblock).fArrived =
    (W.fArrived || W.concerns tx pblock) ∧ (W.deliver io tx pblock).caches.nStakeCacheBalance =
    W.caches.nStakeCacheBalance ∧ (W.deliver io tx pblock).caches.fCoinsDataActual =
    (W.caches.fCoinsDataActual && !W.clears io tx pblock) := by
  rw [deliver, clears]
  rcases (W.added io tx pblock).2 with e | fInvolved
  · simp
  simp only
  by_cases hclears : (fInvolved || pblock.isSome) = true
  · rw [StakeCaches.setCoinsDataActual]
    by_cases hlocked : W.fLocked = true
    · simp [hlocked]
    · simp [hlocked, hclears]
  · simp [hclears]

/-- **One step** keeps the balance current exactly if it does nothing it must not do. -/
theorem Current.run_iff {W : StakingWallet env} (h : W.Current) (e : StakeEvent) :
    (W.run e).Current ↔ W.Keeps e := by
  cases e with
  | deliver io tx pblock =>
    obtain ⟨hlast, harrived, hbalance, hflag⟩ := W.deliver_spec io tx pblock
    rw [run, Keeps, Current, hlast, harrived, hbalance, hflag]
    by_cases hactual : W.caches.fCoinsDataActual = true
    · obtain ⟨hold, hnone⟩ := h hactual
      cases hconcerns : W.concerns tx pblock <;> simp [hactual, hold, hnone]
    · simp [hactual]
  | disconnect tx => exact iff_of_true h trivial
  | lock => exact iff_of_true h trivial
  | unlock => exact iff_of_true h trivial
  | getStakeWeight nReserveBalance p nTime =>
    obtain ⟨hbalance, hflag⟩ := W.caches.getStakeWeight_spec W.fLocked nReserveBalance p nTime
    rw [run, Keeps]
    by_cases hrebuilds : nReserveBalance < p.nBalance ∧ W.caches.rebuilds W.fLocked p = true
    · rw [decide_eq_true hrebuilds.1, hrebuilds.2, Bool.and_self, rebuilt_true, hbalance, hflag]
      simp [hrebuilds]
    have hno :
        (decide (nReserveBalance < p.nBalance) && W.caches.rebuilds W.fLocked p) = false := by
      simpa using hrebuilds
    rw [hno, Bool.or_false] at hflag
    rw [hno, rebuilt_false, hbalance, hflag]
    exact iff_of_true h fun hlt hre => absurd ⟨hlt, hre⟩ hrebuilds
  | createCoinStake q =>
    refine iff_of_true ?_ trivial
    rw [run]
    by_cases hactual : W.caches.fCoinsDataActual = true
    · have hno : W.caches.rebuilds W.fLocked q.pass = false := by
        simp [StakeCaches.rebuilds, hactual]
      rw [StakeCaches.createCoinStake_of_actual hactual, hno, Bool.and_false]
      exact h
    obtain ⟨hbalance, hflag⟩ :=
      StakeCaches.createCoinStake_of_stale (Bool.eq_false_iff.mpr hactual) W.fLocked q
    rcases hrebuilds : (decide (q.settings.nReserveBalance < q.pass.nBalance) &&
      W.caches.rebuilds W.fLocked q.pass) with _ | _
    · rw [rebuilt_false, hflag, hrebuilds]
      simp
    · rw [rebuilt_true, hbalance]
      exact fun _ => rfl

def runs (events : List StakeEvent) : StakingWallet env :=
  events.foldl run W

def KeepsAll (W : StakingWallet env) : List StakeEvent → Prop
  | [] => True
  | e :: events => W.Keeps e ∧ (W.run e).KeepsAll events

/-- **The staking balance.** In a run from a wallet whose balance is current, whenever
`CreateCoinStake` does not ask for the balance, the one it uses is current, exactly if no step does
what it must not do. -/
theorem staking_balance_current_iff {W : StakingWallet env} (h : W.Current)
    (events : List StakeEvent) :
    (∀ before, before <+: events → (W.runs before).Current) ↔ W.KeepsAll events := by
  induction events generalizing W with
  | nil =>
    refine iff_of_true ?_ trivial
    intro before hbefore
    obtain rfl := prefix_nil.mp hbefore
    exact h
  | cons e events ih =>
    constructor
    · intro hall
      have hstep : (W.run e).Current := hall [e] (by simp)
      refine ⟨(h.run_iff e).mp hstep, (ih hstep).mp fun before hbefore => ?_⟩
      exact hall (e :: before) (by simpa using hbefore)
    rintro ⟨hkeeps, hrest⟩ before hbefore
    have hstep := (h.run_iff e).mpr hkeeps
    rcases before with _ | ⟨_, before⟩
    · exact h
    · obtain ⟨rfl, htail⟩ := cons_prefix_cons.mp hbefore
      exact (ih hstep).mpr hrest before htail

end StakingWallet

/-! ## A wallet with one coin -/

def stakedPass : StakePass where
  nBalance := 10 * coin
  setCoins := some [stakedEntry.pcoin]
  spendable := by
    rintro coins ⟨⟩ pcoin hpcoin
    obtain rfl := mem_singleton.mp hpcoin
    exact stakedWallet.spendable (stakedEntry.pcoin.outPoint stakedCrypto, stakedEntry) (by
      simp [stakedWallet])
  view := ⟨(stakedNode 0).chain, stakedWorld.disk, fun _ => true⟩

def stakedCall : StakeCall where
  n := stakedNode 0
  w := stakedWorld
  settings := stakedSettings
  pass := stakedPass
  interrupts := neverInterrupted
  nBits := 0x1e00ffff
  nSearchInterval := 60
  nTime := lateTime

def newStaker : StakingWallet stakedEnv where
  keys := ⟨fun script => script == [0x51], 0⟩
  mapWallet := fun hash => if hash = stakedTx.nTime then some (.ofTx stakedTx) else none
  fLocked := false
  caches := StakeCaches.initial
  lastBalance := none
  fArrived := false

theorem newStaker_current : newStaker.Current := by
  intro h
  cases h

/-- `GetStakeWeight` sets the flag with the balance at zero, which the next `CreateCoinStake` takes
for the balance. -/
theorem weight_leaves_balance :
    let staker := newStaker.run (.getStakeWeight 0 stakedPass lateTime)
    newStaker.Current ∧ staker.caches.fCoinsDataActual = true ∧
      staker.lastBalance = some (10 * coin) ∧ staker.caches.nStakeCacheBalance = 0 ∧
      (staker.caches.createCoinStake false stakedCall).2.isNone = true ∧
      (newStaker.caches.createCoinStake false stakedCall).2.isSome = true := by
  refine ⟨newStaker_current, ?_⟩
  decide +kernel

def spentTx : CTransaction where
  nVersion := 1
  nTime := lateTime
  vin := [⟨stakedEntry.pcoin.outPoint stakedCrypto, [], uint32Max⟩]
  vout := [⟨9 * coin, [0x53]⟩]
  nLockTime := 0

def spentBlock : CBlock := ⟨{ forkKernel.blockFrom with nTime := lateTime }, [spentTx], []⟩

def quietCall : StakeCall := { stakedCall with nSearchInterval := 0 }

theorem staking_balance_current_unlocked :
    newStaker.Current ∧ ∀ before, before <+: [.createCoinStake quietCall,
        .deliver ⟨true, fun _ => false⟩ spentTx (some spentBlock), .createCoinStake stakedCall] →
      (newStaker.runs before).Current := by
  refine ⟨newStaker_current, (StakingWallet.staking_balance_current_iff newStaker_current _).mpr
    ⟨trivial, ?_, trivial, trivial⟩⟩
  intro _ _
  decide +kernel

end HoboNickels

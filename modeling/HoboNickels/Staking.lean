import HoboNickels.Miner
import HoboNickels.StakeSearch
import HoboNickels.HashCache
import HoboNickels.CreateTx

/-!
# Staking a block

`CWallet::CreateCoinStake` and the return value of `CBlock::SignPoSBlock`, on top of the search of
`StakeSearch`, the template of `Miner` and the block object of `HashCache`. `SignPoSBlock` raises
the block time to the latest transaction before it erases the transactions later than the block
time, so it erases none. Where one of them is later than the coinstake, `CheckBlock` refuses the
block (`staked_block_late`). All other structural rules hold of every signed block
(`signPoSBlock_rules_iff`).
-/

namespace HoboNickels

open List CBlock

structure CKey where
  pubKey : List UInt8
  sign : Uint256 → Option (List UInt8)

/-- What `Solver` makes of the script of a kernel: the first solution of the two types that can
be staked. -/
inductive KernelScript where
  | pubKey (vchPubKey : List UInt8)
  | pubKeyHash (keyID : Nat)
  | other

structure StakeSettings where
  nReserveBalance : Int
  nSplitThreshold : Int
  nCombineThreshold : Int
  solver : CScript → Option KernelScript
  getKey : Nat → Option CKey
  /-- `SignSignature(txFrom, txTo, nIn)`: the script for the input. -/
  signSignature : CTransaction → CTransaction → Nat → Option CScript
  fStakeForCharity : Bool
  nStakeForCharityPercent : Int
  nStakeForCharityMin : Int
  nStakeForCharityMax : Int
  /-- The script of the charity address, when it is valid. -/
  charityScript : Option CScript

/-- What `CreateCoinStake` reads of the wallet. The coins are outputs of transactions that fit into
a block. -/
structure StakeWallet (c : Crypto) extends StakeSettings where
  mapMeta : MetaMap c
  spendable : ∀ item ∈ mapMeta.items, item.2.pcoin.n < item.2.pcoin.tx.vout.length ∧
    item.2.pcoin.tx.serializeSize ≤ maxBlockSize
  nBalance : Int

def payToPubKey (vchPubKey : List UInt8) : CScript :=
  UInt8.ofNat vchPubKey.length :: vchPubKey ++ [0xac]

namespace StakeWallet

variable {c : Crypto}

/-- The script and the key of the stake's outputs; only pay to public key and pay to address
are supported. -/
def kernelOutput (wallet : StakeWallet c) (env : Env) (scriptPubKeyKernel : CScript) :
    Option (CScript × CKey) :=
  match wallet.solver scriptPubKeyKernel with
  | none | some .other => none
  | some (.pubKeyHash keyID) =>
    (wallet.getKey keyID).map (fun key => (payToPubKey key.pubKey, key))
  | some (.pubKey vchPubKey) =>
    match wallet.getKey (env.hash160 vchPubKey) with
    | none => none
    | some key => if key.pubKey = vchPubKey then some (scriptPubKeyKernel, key) else none

/-- The charity's share of the reward, zero when there is no such output. -/
def charity (wallet : StakeWallet c) (nReward : Int) : Int :=
  if wallet.fStakeForCharity && decide (wallet.nStakeForCharityPercent > 0)
      && wallet.charityScript.isSome then
    let nCharity := (int64 (nReward * wallet.nStakeForCharityPercent)).tdiv 100
    let nCharity := if wallet.nStakeForCharityMax > 0 ∧ nCharity > wallet.nStakeForCharityMax
      then wallet.nStakeForCharityMax else nCharity
    let nCharity := if wallet.nStakeForCharityMin > 0 ∧ nCharity < wallet.nStakeForCharityMin
      then 0 else nCharity
    if nCharity ≥ minTxoutAmount ∧ nCharity < nReward then nCharity else 0
  else 0

structure Inputs where
  vin : List CTxIn
  vwtxPrev : List CTransaction
  nCredit : Int

def Inputs.add (d : Inputs) (c : Crypto) (pcoin : WalletCoin) : Inputs where
  vin := d.vin ++ [⟨pcoin.outPoint c, [], uint32Max⟩]
  vwtxPrev := d.vwtxPrev ++ [pcoin.tx]
  nCredit := d.nCredit + (pcoin.tx.vout.getD pcoin.n default).nValue

structure CombineContext where
  fTestNet : Bool
  nBestHeight : Int
  scriptPubKeyKernel : CScript
  scriptPubKeyOut : CScript
  hashKernelTx : Uint256
  nTime : Nat
  fSingle : Bool

/-- The loop that attempts to add more inputs, only coins of the same key as the kernel. -/
def combine (wallet : StakeWallet c) (k : CombineContext) :
    List (COutPoint × MetaEntry) → Inputs → Inputs
  | [], d => d
  | (_, e) :: rest, d =>
    let out := e.pcoin.tx.vout.getD e.pcoin.n default
    if k.fSingle &&
        (out.scriptPubKey == k.scriptPubKeyKernel || out.scriptPubKey == k.scriptPubKeyOut)
        && c.txHash e.pcoin.tx != k.hashKernelTx then
      -- too many inputs, enough value, or the reserve is reached
      if d.vin.length ≥ 100 ∨ d.nCredit > wallet.nCombineThreshold
          ∨ d.nCredit + out.nValue > wallet.nBalance - wallet.nReserveBalance then d
      else if out.nValue > wallet.nCombineThreshold
          ∨ getWeight k.fTestNet k.nBestHeight e.pcoin.tx.nTime k.nTime ≤ 0 then
        wallet.combine k rest d
      else wallet.combine k rest (d.add c e.pcoin)
    else wallet.combine k rest d

/-- The outputs: the mark of a coinstake, one or two for the staker, and the charity's. -/
def outputs (wallet : StakeWallet c) (scriptPubKeyOut : CScript) (fSplit : Bool)
    (nCredit nCharity : Int) : List CTxOut :=
  let nStakerValue := nCredit - nCharity
  let half := (nStakerValue.tdiv 2).tdiv cent * cent
  let staker := if fSplit then [⟨half, scriptPubKeyOut⟩, ⟨nStakerValue - half, scriptPubKeyOut⟩]
    else [⟨nStakerValue, scriptPubKeyOut⟩]
  let charity := if nCharity > 0 then [⟨nCharity, wallet.charityScript.getD []⟩] else []
  ⟨0, []⟩ :: staker ++ charity

end StakeWallet

variable (n : Node) (env : Env) (w : World) (wallet : StakeWallet env.toCrypto)

/-- The coinstake built on a found kernel. `GetMinFee()` is the base fee (`getMinFee_default`), so
the loop that raises `nMinFee` runs once. -/
def Node.stakeFound (nBits : Nat) (r : FoundKernel) : Option (CTransaction × CKey) :=
  let kernelOut := r.kernelcoin.tx.vout.getD r.kernelcoin.n default
  match wallet.kernelOutput env kernelOut.scriptPubKey with
  | none => none
  | some (scriptPubKeyOut, key) =>
    if kernelOut.nValue = 0 ∨ kernelOut.nValue > wallet.nBalance - wallet.nReserveBalance then none
    else
      let fSplit := decide (kernelOut.nValue ≥ wallet.nSplitThreshold)
        && decide (getWeight env.fTestNet n.chain.nBestHeight r.nBlockTime r.nTimeTx < nStakeMaxAge)
      let kernel : StakeWallet.Inputs :=
        StakeWallet.Inputs.add ⟨[], [], 0⟩ env.toCrypto r.kernelcoin
      let d := wallet.combine
        { fTestNet := env.fTestNet, nBestHeight := n.chain.nBestHeight
          scriptPubKeyKernel := kernelOut.scriptPubKey, scriptPubKeyOut := scriptPubKeyOut
          hashKernelTx := env.txHash r.kernelcoin.tx, nTime := r.nTimeTx, fSingle := !fSplit }
        wallet.mapMeta.items kernel
      let txNew : CTransaction :=
        { nVersion := 1, nTime := r.nTimeTx, vin := d.vin
          vout := wallet.outputs scriptPubKeyOut fSplit 0 0, nLockTime := 0 }
      match getCoinAge env w n.chain.db.readOnly n.chain.nBestHeight txNew with
      | none => none
      | some nCoinAge =>
        let nReward := getProofOfStakeReward env.fTestNet (int64 nCoinAge) nBits r.nTimeTx false
        let vout := wallet.outputs scriptPubKeyOut fSplit (d.nCredit + nReward)
          (wallet.charity nReward)
        match signInputs wallet.signSignature 0 d.vwtxPrev { txNew with vout := vout } with
        | none => none
        | some tx => if tx.serializeSize ≥ maxBlockSizeGen / 5 then none else some (tx, key)

/-- `CWallet::CreateCoinStake`, for a transaction constructed at `nTime`. -/
def Node.createCoinStake
    (i : SearchInterrupts) (nBits : Nat) (nSearchInterval : Int) (nTime : Nat) :
    Option (CTransaction × CKey) :=
  if wallet.nBalance ≤ wallet.nReserveBalance then none
  else
    match n.chain.scanForStakeKernelHash env.toCrypto env.fTestNet wallet.mapMeta
        ⟨nBits, nTime, uint32 nSearchInterval⟩ i with
    | none => none
    | some r => n.stakeFound env w wallet nBits r

/-- The value that `SignPoSBlock` returns; what it does to the block is
`CachedBlock.signPoSBlock`. -/
def CachedBlock.signPoSBlockReturns (c : Crypto) (a : StakeAttempt) (o : CachedBlock) : Bool :=
  if !((o.vtx.headD default).vout.headD default).isEmpty then false
  else if o.isProofOfStake then true
  else
    match a.txCoinStake with
    | none => false
    | some txCoinStake =>
      if (txCoinStake.nTime : Int) ≥ max (a.nPastTimeLimit + 1) a.nPastDrift then
        let o' := insertCoinStake c txCoinStake a.nPastTimeLimit a.nPastDrift o
        (a.sign (o'.getHash c).1).isSome
      else false

/-- A call of `SignPoSBlock`: the search is due when the clock has moved since the last one. -/
def Node.stakeAttempt
    (i : SearchInterrupts) (nLastCoinStakeSearchTime : Int) (nTime : Nat) (pindexBest : CBlockIndex)
    (nBits : Nat) : StakeAttempt :=
  let found :=
    if (nTime : Int) > nLastCoinStakeSearchTime then
      n.createCoinStake env w wallet i nBits ((nTime : Int) - nLastCoinStakeSearchTime) nTime
    else none
  { txCoinStake := found.map Prod.fst
    nPastTimeLimit := getMedianTimePast (n.chain.mapBlockIndex.chainOf pindexBest.hashBlock)
    nPastDrift := pastDrift pindexBest.getBlockTime
    sign := fun hash => found.bind (fun f => f.2.sign hash) }

/-! ## What CreateCoinStake returns -/

namespace StakeWallet

variable {c : Crypto}

theorem combine_head (wallet : StakeWallet c) (k : CombineContext)
    (items : List (COutPoint × MetaEntry)) (d : Inputs) (hd : d.vin ≠ []) :
    (wallet.combine k items d).vin.head? = d.vin.head? := by
  fun_induction combine wallet k items d with
  | case1 | case2 => rfl
  | case3 _ _ _ _ _ _ _ _ ih | case5 _ _ _ _ _ _ ih => exact ih hd
  | case4 _ e _ d _ _ _ _ ih =>
    rw [ih (by simp [Inputs.add])]
    simp [Inputs.add, head?_append_of_ne_nil _ hd]

end StakeWallet

theorem WalletCoin.outPoint_not_null {pcoin : WalletCoin} (c : Crypto)
    (hn : pcoin.n < pcoin.tx.vout.length) (hsize : pcoin.tx.serializeSize ≤ maxBlockSize) :
    (pcoin.outPoint c).isNull = false := by
  have hlen := pcoin.tx.length_vout_le
  have hmax : maxBlockSize < uint32Max := by decide
  have hne : pcoin.n ≠ uint32Max := by omega
  simp [COutPoint.isNull, outPoint, hne]

section

variable {n : Node} {env : Env} {w : World} {wallet : StakeWallet env.toCrypto} {tx : CTransaction}

theorem Node.stakeFound_spec {nBits : Nat} {r : FoundKernel}
    {key : CKey} (h : n.stakeFound env w wallet nBits r = some (tx, key)) :
    tx.nTime = r.nTimeTx ∧
      (tx.vin.map (·.prevout)).head? = some (r.kernelcoin.outPoint env.toCrypto) ∧
      ∃ out rest, tx.vout = ⟨0, []⟩ :: out :: rest := by
  have hhead : ∀ k, (wallet.combine k wallet.mapMeta.items
      (StakeWallet.Inputs.add ⟨[], [], 0⟩ env.toCrypto r.kernelcoin)).vin.head?
        = some ⟨r.kernelcoin.outPoint env.toCrypto, [], uint32Max⟩ := fun k =>
    wallet.combine_head k wallet.mapMeta.items _ (by simp [StakeWallet.Inputs.add])
  unfold stakeFound at h
  simp only at h
  split at h
  · cases h
  split at h
  · cases h
  split at h
  · cases h
  split at h
  · cases h
  rename_i tx' hsign
  split at h
  · cases h
  obtain ⟨htx, -⟩ := Prod.mk.inj (Option.some.inj h)
  obtain ⟨-, htime, hout, hin⟩ := signInputs_eq_some hsign
  rw [← htx]
  refine ⟨htime, ?_, ?_⟩
  · rw [hin, head?_map, hhead]
    rfl
  · rw [hout]
    dsimp only [StakeWallet.outputs]
    split <;> exact ⟨_, _, rfl⟩

theorem Node.createCoinStake_spec {i : SearchInterrupts} {nBits nTime : Nat}
    {nSearchInterval : Int} {key : CKey}
    (h : n.createCoinStake env w wallet i nBits nSearchInterval nTime = some (tx, key)) :
    tx.isCoinStake = true ∧ tx.nTime < 2 ^ 32 := by
  unfold createCoinStake at h
  split at h
  · cases h
  split at h
  · cases h
  rename_i r hscan
  obtain ⟨item, hitem, m, hfound⟩ := ChainState.scanCoins_eq_some hscan
  obtain ⟨htime, hin, _, _, hout⟩ := stakeFound_spec h
  have hnull : (r.kernelcoin.outPoint env.toCrypto).isNull = false := by
    obtain ⟨hn, hsize⟩ := wallet.spendable item hitem
    rw [hfound.result]
    exact WalletCoin.outPoint_not_null _ hn hsize
  constructor
  · rcases hvin : tx.vin with _ | ⟨txin, vin⟩
    · rw [hvin] at hin
      cases hin
    · rw [hvin] at hin
      have hprev : txin.prevout = r.kernelcoin.outPoint env.toCrypto := by simpa using hin
      simp [CTransaction.isCoinStake, hvin, hout, hprev, hnull, CTxOut.isEmpty]
  · rw [htime, hfound.result]
    exact uint32_lt _

end

/-! ## The signed block -/

variable (nPoolTime : Nat)

theorem foldl_max_nTime_le {k : Nat} : ∀ (txs : List CTransaction) (acc : Nat),
    txs.foldl (fun m tx => max m tx.nTime) acc ≤ k ↔ acc ≤ k ∧ ∀ tx ∈ txs, tx.nTime ≤ k := by
  intro txs
  induction txs with
  | nil => intro acc; simp
  | cons tx rest ih =>
    intro acc
    rw [foldl_cons, ih, forall_mem_cons, Nat.max_le, and_assoc]

theorem CBlock.getMaxTransactionTime_le_iff {b : CBlock} {k : Nat} :
    b.getMaxTransactionTime ≤ k ↔ ∀ tx ∈ b.vtx, tx.nTime ≤ k := by
  rw [getMaxTransactionTime, foldl_max_nTime_le]
  simp

theorem CachedBlock.insertCoinStake_spec (c : Crypto) {o : CachedBlock}
    {coinbase txCoinStake : CTransaction} {rest : List CTransaction} {nPast nDrift : Int}
    (hvtx : o.vtx = coinbase :: rest) (hlate : (txCoinStake.nTime : Int) ≥ max (nPast + 1) nDrift)
    (hstake : txCoinStake.nTime < 2 ^ 32) (hrest : ∀ tx ∈ rest, tx.nTime < 2 ^ 32) :
    let b := (insertCoinStake c txCoinStake nPast nDrift o).toCBlock
    b.vtx = { coinbase with nTime := txCoinStake.nTime } :: txCoinStake :: rest ∧
      b.nTime = b.getMaxTransactionTime ∧ b.hashMerkleRoot = buildMerkleTree c b := by
  let first : CTransaction := { coinbase with nTime := txCoinStake.nTime }
  obtain ⟨M, hM⟩ : ∃ M, M = getMaxTransactionTime
      { o.toCBlock with vtx := first :: rest } := ⟨_, rfl⟩
  have hle : ∀ tx ∈ first :: rest, tx.nTime ≤ M :=
    getMaxTransactionTime_le_iff.mp (le_of_eq hM.symm)
  have hfloor : txCoinStake.nTime ≤ M := hle first mem_cons_self
  have hsmall : M < 2 ^ 32 := by
    have hbound : M ≤ 2 ^ 32 - 1 := by
      rw [hM]
      apply getMaxTransactionTime_le_iff.mpr
      intro tx htx
      rcases mem_cons.mp htx with rfl | htx
      · change txCoinStake.nTime ≤ 2 ^ 32 - 1
        omega
      · have := hrest tx htx
        omega
    omega
  have hpast : uint32 (max (nPast + 1) (M : Int)) = M := by
    rw [max_eq_right (by omega)]
    exact uint32_of_lt hsmall
  have hdrift : uint32 (max (M : Int) nDrift) = M := by
    rw [max_eq_left (by omega)]
    exact uint32_of_lt hsmall
  have hkeep : (first :: rest).filter (fun tx => decide (tx.nTime ≤ M)) = first :: rest := by
    apply filter_eq_self.mpr
    intro tx htx
    exact decide_eq_true (hle tx htx)
  have hblock : (insertCoinStake c txCoinStake nPast nDrift o).vtx = first :: txCoinStake :: rest ∧
      (insertCoinStake c txCoinStake nPast nDrift o).nTime = M := by
    dsimp only [first] at hM hkeep
    simp only [insertCoinStake, hvtx, ← hM, hpast, hdrift, hkeep]
    exact ⟨rfl, rfl⟩
  refine ⟨hblock.1, ?_, rfl⟩
  rw [hblock.2]
  apply le_antisymm
  · rw [hM]
    apply getMaxTransactionTime_le_iff.mpr
    intro tx htx
    apply getMaxTransactionTime_le_iff.mp (le_refl _)
    rw [hblock.1]
    rcases mem_cons.mp htx with rfl | htx
    · exact mem_cons_self
    · exact mem_cons_of_mem _ (mem_cons_of_mem _ htx)
  · apply getMaxTransactionTime_le_iff.mpr
    rw [hblock.1]
    intro tx htx
    rcases mem_cons.mp htx with rfl | htx
    · exact hfloor
    rcases mem_cons.mp htx with rfl | htx
    · exact hfloor
    · exact hle tx (mem_cons_of_mem _ htx)

theorem CachedBlock.signPoSBlock_of_returns {c : Crypto} {a : StakeAttempt} {o : CachedBlock}
    (hwork : o.isProofOfStake = false) (h : o.signPoSBlockReturns c a = true) :
    ∃ txCoinStake sig, a.txCoinStake = some txCoinStake ∧
      (txCoinStake.nTime : Int) ≥ max (a.nPastTimeLimit + 1) a.nPastDrift ∧
      (o.signPoSBlock c a).1.toCBlock =
        { (insertCoinStake c txCoinStake a.nPastTimeLimit a.nPastDrift o).toCBlock with
          vchBlockSig := sig } := by
  unfold signPoSBlockReturns at h
  split at h
  · cases h
  rename_i hempty
  rw [if_neg (by simp [hwork])] at h
  split at h
  · cases h
  rename_i txCoinStake hfound
  split at h
  next hlate =>
    obtain ⟨sig, hsig⟩ := Option.isSome_iff_exists.mp h
    refine ⟨txCoinStake, sig, hfound, hlate, ?_⟩
    have hopen : (((o.vtx.headD default).vout.headD default).isEmpty && !o.isProofOfStake)
        = true := by
      simpa [hwork] using hempty
    rw [signPoSBlock, hfound]
    simp only [if_pos hlate, hsig]
    unfold getHash
    split <;> rfl
  · cases h

structure CBlock.StakeStructure (c : Crypto) (b : CBlock) : Prop where
  timestamp : checkCoinStakeTimestamp b.nTime (b.vtx.getD 1 default).nTime = true
  no_later : ∀ tx ∈ b.vtx, tx.nTime ≤ b.nTime
  coinbase : (b.vtx.headD default).isCoinBase = true ∧
    ∃ out, (b.vtx.headD default).vout = [out] ∧ out.isEmpty = true
  coinstake : b.isProofOfStake = true ∧
    ∀ i tx, b.vtx[i]? = some tx → tx.isCoinStake = true → i = 1
  merkle : b.hashMerkleRoot = buildMerkleTree c b

/-- **The wallet's own blocks.** If `SignPoSBlock` returns true, the resulting block satisfies the
structural rules of its own node if and only if no transaction of the template is later than the
coinstake. -/
theorem signPoSBlock_rules_iff {env : Env} {n₁ n₂ : Node} {w₁ w₂ : World} {m : MinerInput}
    {wallet : StakeWallet env.toCrypto} {i : SearchInterrupts} {nLast : Int} {nTime : Nat}
    {pindexBest : CBlockIndex} {template : CachedBlock} {txCoinStake : CTransaction} {key : CKey}
    (htemplate : n₁.createNewBlock env w₁ m true = .ok (some template.toCBlock))
    (hfound : n₂.createCoinStake env w₂ wallet i template.nBits ((nTime : Int) - nLast) nTime
      = some (txCoinStake, key))
    (hreturns : template.signPoSBlockReturns env.toCrypto
      (n₂.stakeAttempt env w₂ wallet i nLast nTime pindexBest template.nBits) = true) :
    (template.signPoSBlock env.toCrypto
        (n₂.stakeAttempt env w₂ wallet i nLast nTime pindexBest template.nBits)).1.StakeStructure
        env.toCrypto ↔
      ∀ tx ∈ template.vtx.tail, tx.nTime ≤ txCoinStake.nTime := by
  obtain ⟨rest, hvtx, hrest⟩ := Node.createNewBlock_stake htemplate
  have hwork : template.isProofOfStake = false := by
    unfold isProofOfStake
    rw [hvtx]
    rcases rest with _ | ⟨tx, rest⟩
    · rfl
    · exact (hrest tx mem_cons_self).1.2
  obtain ⟨txCoinStake', _, hattempt, hlate, hblock⟩ :=
    CachedBlock.signPoSBlock_of_returns hwork hreturns
  -- the search was due, and its result is the given one
  have hsame : txCoinStake' = txCoinStake := by
    simp only [Node.stakeAttempt] at hattempt
    split at hattempt
    · rw [hfound] at hattempt
      exact (Option.some.inj hattempt).symm
    · cases hattempt
  subst hsame
  obtain ⟨hstake, htime⟩ := Node.createCoinStake_spec hfound
  have hsmall : ∀ tx ∈ rest, tx.nTime < 2 ^ 32 := fun tx htx =>
    lt_of_le_of_lt (hrest tx htx).2 (uint32_lt _)
  obtain ⟨hbvtx, hbtime, hbmerkle⟩ := CachedBlock.insertCoinStake_spec env.toCrypto hvtx hlate
    htime hsmall
  rw [hblock]
  generalize hb : (CachedBlock.insertCoinStake env.toCrypto txCoinStake' _ _ template).toCBlock = b
  rw [hb] at hbvtx hbtime hbmerkle
  have hall : ∀ tx ∈ b.vtx, tx.nTime ≤ b.nTime := by
    rw [hbtime]
    exact getMaxTransactionTime_le_iff.mp (le_refl _)
  have htail : template.vtx.tail = rest := by rw [hvtx]; rfl
  rw [htail]
  constructor
  · intro hrules tx htx
    have hstamp : (b.nTime : Int) = txCoinStake'.nTime := by
      have := hrules.timestamp
      simpa [checkCoinStakeTimestamp, hbvtx] using this
    have hle := hall tx (by rw [hbvtx]; exact mem_cons_of_mem _ (mem_cons_of_mem _ htx))
    omega
  · intro hearlier
    have hstamp : b.nTime = txCoinStake'.nTime := by
      apply le_antisymm
      · rw [hbtime]
        apply getMaxTransactionTime_le_iff.mpr
        rw [hbvtx]
        simp only [forall_mem_cons]
        exact ⟨le_refl _, le_refl _, hearlier⟩
      · exact hall _ (by rw [hbvtx]; exact mem_cons_of_mem _ mem_cons_self)
    refine ⟨?_, hall, ?_, ?_, hbmerkle⟩
    · simp [checkCoinStakeTimestamp, hbvtx, hstamp]
    · rw [hbvtx]
      exact ⟨rfl, ⟨0, []⟩, rfl, rfl⟩
    constructor
    · simp [isProofOfStake, hbvtx, hstake]
    intro j tx hj htx
    rw [hbvtx] at hj
    rcases j with _ | _ | j
    · rw [← Option.some.inj hj] at htx
      cases htx
    · rfl
    · have hin : tx ∈ rest := mem_of_getElem? hj
      rw [(hrest tx hin).1.2] at htx
      cases htx

/-! ## A late transaction

A node on the branch of block 1 stakes ten of the coins of its transaction and has another
transaction in its pool, stamped with the second of the template. The kernel hash meets the
target at odd seconds, so the kernel is found one second before. -/

def lateTime : Nat := forkTime + 60 + 30 * 86400

def stakedTx : CTransaction :=
  { forkKernel.txPrev with vout := [⟨10 * coin, [0x51]⟩, ⟨2 * coin, [0x52]⟩] }

def pooledTx (nTime : Nat) : CTransaction where
  nVersion := 1
  nTime := nTime
  vin := [⟨⟨forkTime + 60, 1⟩, [], uint32Max⟩]
  vout := [⟨coin, [0x53]⟩]
  nLockTime := 0

def stakedCrypto : Crypto :=
  { forkCrypto with
    hashKernel := fun _ _ _ _ _ nTimeTx => if nTimeTx % 2 = 1 then 0 else 2 ^ 256 - 1 }

def stakedEnv : Env :=
  { sampleEnv with
    toCrypto := stakedCrypto
    hashGenesisBlock := 0
    hashChecksum := fun _ _ _ _ => 0 }

def stakedNode : Node where
  chain := { forkState false with
    db := CTxDB.updateTxIndex ⟨∅, none⟩ (forkTime + 60) (CTxIndex.new ⟨1, 1008, 1089⟩ 2) }
  mempool :=
    { mapTx := fun h => if h = nPoolTime then some (pooledTx nPoolTime) else none
      mapNextTx := fun o =>
        if o = ⟨forkTime + 60, 1⟩ then some ⟨nPoolTime, 0⟩ else none }

def coinDisk (b : CBlock) (coinTx : CTransaction) : Disk where
  block := fun nFile pos => if nFile = 1 ∧ pos = 1008 then some b else none
  tx := fun nFile pos => if nFile = 1 ∧ pos = 1089 then some coinTx else none

def stakedWorld : World :=
  { sampleWorld [] with
    disk := coinDisk ⟨forkKernel.blockFrom, [stakedTx], []⟩ stakedTx
    nAdjustedTime := lateTime
    writeToDisk := some (1, 5000) }

def sampleMiner (nArgBlockMaxSize : Nat) (poolKeys : List Uint256) (nTime : Nat) : MinerInput where
  nArgBlockMaxSize := nArgBlockMaxSize
  nArgBlockPrioritySize := 0
  nArgBlockMinSize := 0
  reservedScript := some [0x51]
  poolKeys := poolKeys
  nCoinbaseTime := nTime
  nAdjustedTime := fun _ => nTime
  prevReadOk := fun _ _ => true
  front := fun _ _ => 0
  feeBelowMin := fun _ => false
  lowPriority := fun _ => false

def stakedMiner : MinerInput :=
  { sampleMiner 250000 [nPoolTime] lateTime with
    nArgBlockPrioritySize := 27000
    reservedScript := none }

def stakedEntry : MetaEntry where
  txindex := CTxIndex.new ⟨1, 1008, 1089⟩ 2
  pcoin := ⟨stakedTx, 0⟩
  block := forkKernel.blockFrom
  nStakeModifier := 2

def stakedSettings : StakeSettings where
  nReserveBalance := 0
  nSplitThreshold := 1000 * coin
  nCombineThreshold := 1000 * coin
  solver := fun _ => some (.pubKeyHash 7)
  getKey := fun _ => some ⟨[2], fun _ => some [1]⟩
  signSignature := fun _ _ _ => some [0]
  fStakeForCharity := false
  nStakeForCharityPercent := 0
  nStakeForCharityMin := 0
  nStakeForCharityMax := 0
  charityScript := none

def stakedWallet : StakeWallet stakedEnv.toCrypto where
  toStakeSettings := stakedSettings
  mapMeta :=
    { items := [(stakedEntry.pcoin.outPoint stakedCrypto, stakedEntry)]
      keyed := by
        intro item hin
        rw [List.mem_singleton.mp hin]
        rfl
      nodup := List.nodup_singleton _ }
  spendable := by
    intro item hin
    rw [List.mem_singleton.mp hin]
    decide +kernel
  nBalance := 10 * coin

def stakedTemplate : CachedBlock :=
  { sampleTemplate with
    hashPrevBlock := 2
    nTime := lateTime
    nBits := (stakedNode nPoolTime).chain.getNextTargetRequired false 2 true
    vtx := [(stakedMiner nPoolTime).coinbase ⟨0, []⟩, pooledTx nPoolTime] }

def stakedAttempt : StakeAttempt :=
  (stakedNode nPoolTime).stakeAttempt stakedEnv stakedWorld stakedWallet neverInterrupted
    (lateTime - 60 : Nat) lateTime (forkEntry 2 (some 1) 2 (forkTime + 60 + 10 * 86400) 4)
    (stakedTemplate nPoolTime).nBits

def StakedSample : Prop :=
  (stakedNode nPoolTime).createNewBlock stakedEnv stakedWorld (stakedMiner nPoolTime) true
      = .ok (some (stakedTemplate nPoolTime).toCBlock) ∧
    ((stakedNode nPoolTime).createCoinStake stakedEnv stakedWorld stakedWallet neverInterrupted
      (stakedTemplate nPoolTime).nBits ((lateTime : Int) - (lateTime - 60 : Nat))
      lateTime).map (fun f => f.1.nTime) = some (lateTime - 1) ∧
    (stakedTemplate nPoolTime).signPoSBlockReturns stakedEnv.toCrypto (stakedAttempt nPoolTime)
      = true

instance (nPoolTime : Nat) : Decidable (StakedSample nPoolTime) :=
  inferInstanceAs (Decidable (_ ∧ _ ∧ _))

/-- `SignPoSBlock` returns true on a block whose time is not that of its coinstake. -/
theorem staked_block_late :
    StakedSample lateTime ∧
      ¬ ((stakedTemplate lateTime).signPoSBlock stakedEnv.toCrypto
        (stakedAttempt lateTime)).1.StakeStructure stakedEnv.toCrypto := by
  refine ⟨by decide +kernel, ?_⟩
  intro hrules
  have hstamp := hrules.timestamp
  revert hstamp
  decide +kernel

theorem signPoSBlock_rules_iff_hour :
    StakedSample (lateTime - 3600) ∧
      ((stakedTemplate (lateTime - 3600)).signPoSBlock stakedEnv.toCrypto
        (stakedAttempt (lateTime - 3600))).1.StakeStructure stakedEnv.toCrypto := by
  have hsample : StakedSample (lateTime - 3600) := by decide +kernel
  refine ⟨hsample, ?_⟩
  obtain ⟨htemplate, hfound, hreturns⟩ := hsample
  obtain ⟨⟨_, _⟩, hfound, htime⟩ := Option.map_eq_some_iff.mp hfound
  apply (signPoSBlock_rules_iff htemplate hfound hreturns).mpr
  intro tx' htx'
  rw [htime, mem_singleton.mp htx']
  decide

end HoboNickels

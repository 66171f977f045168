import HoboNickels.PoolConsistency

/-!
# How much a block may issue

`CheckBlock` caps the coinbase and `ConnectInputs` the reward of every coinstake it meets, whichever
kind the block has; but that a coinstake stands second is checked for proof-of-stake blocks only. So
a block obeys the bound exactly if it is not a proof-of-work block in which a later transaction is a
coinstake that mints (`issuanceBound_iff`), and such blocks are accepted (`stray_coinstake_mints`).
-/

namespace HoboNickels

open Fallible List

variable {env : Env} {w : World}

def TxTally.Mints (t : TxTally) : Prop := t.nTxValueIn < t.nTxValueOut

/-- The bound on what a block issues. `tallies` are the values in and out of its transactions. -/
structure IssuanceBound (env : Env) (w : World) (s : ChainState) (b : CBlock)
    (pindex : CBlockIndex) (tallies : List TxTally) : Prop where
  work : b.isProofOfWork = true → issued tallies ≤ getProofOfWorkReward
  stake : b.isProofOfStake = true → ∃ nCoinAge,
    getCoinAge env w s.db s.nBestHeight (b.vtx.getD 1 default) = some nCoinAge ∧
      issued tallies ≤ getProofOfStakeReward env.fTestNet (int64 nCoinAge) pindex.nBits
        (b.vtx.getD 1 default).nTime false
  minters : ∀ i t, tallies[i]? = some t → t.Mints →
    (b.isProofOfWork = true ∧ i = 0) ∨ (b.isProofOfStake = true ∧ i = 1)
  kernel : b.isProofOfStake = true → ∀ (s₀ : ChainState) w₀ hashProofOfStake,
    s₀.checkAccept env w₀ b = .ok hashProofOfStake →
      s₀.checkProofOfStake env w₀ (b.vtx.getD 1 default) b.nBits = .ok hashProofOfStake

/-- No coinstake after the second transaction of a proof-of-work block mints. -/
def NoStrayMint (b : CBlock) (tallies : List TxTally) : Prop :=
  b.isProofOfWork = true → ∀ i t, 2 ≤ i → tallies[i]? = some t → t.tx.isCoinStake = true →
    t.nTxValueOut ≤ t.nTxValueIn

theorem BlockContext.map_tx_tallies (c : BlockContext) (txs : List CTransaction) :
    ∀ before nTxPos, (c.tallies env w before nTxPos txs).map TxTally.tx = txs := by
  induction txs with
  | nil =>
    intro _ _
    rfl
  | cons tx txs ih =>
    intro before nTxPos
    rw [tallies, map_cons, ih]

theorem issued_cons (t : TxTally) (ts : List TxTally) :
    issued (t :: ts) = t.nTxValueOut - t.nTxValueIn + issued ts := by
  simp only [issued, map_cons, sum_cons]
  omega

theorem issued_nonpos {ts : List TxTally} (h : ∀ t ∈ ts, t.nTxValueOut ≤ t.nTxValueIn) :
    issued ts ≤ 0 := by
  induction ts with
  | nil => simp [issued]
  | cons t ts ih =>
    rw [issued_cons]
    have ht := h t mem_cons_self
    have hts := ih fun t' ht' => h t' (mem_cons_of_mem t ht')
    omega

theorem TallyOk.out_le_in {c : BlockContext} {t : TxTally} (h : TallyOk env w c t)
    (hcb : t.tx.isCoinBase = false) (hcs : t.tx.isCoinStake = false) :
    t.nTxValueOut ≤ t.nTxValueIn := by
  have hfee := h.fee hcb hcs
  have hpos : 0 ≤ minTxFee := by decide
  omega

/-! ## The kinds of blocks -/

theorem ChainState.checkAccept_kernel {s : ChainState} {b : CBlock} {hashProofOfStake : Uint256}
    (hpos : b.isProofOfStake = true) (h : s.checkAccept env w b = .ok hashProofOfStake) :
    s.checkProofOfStake env w (b.vtx.getD 1 default) b.nBits = .ok hashProofOfStake := by
  simp only [checkAccept, bind_eq_ok] at h
  obtain ⟨_, -, _, -, _, -, _, -, _, -, _, hstake, _, -, _, -, _, -, h⟩ := h
  cases h
  unfold acceptProofOfStake at hstake
  rw [if_pos hpos] at hstake
  split at hstake
  next hcheck =>
    cases hstake
    exact hcheck
  · cases hstake

section Connected

variable {s s' : ChainState} {mempool : Uint256 → Option CTransaction} {b : CBlock}
  {pindex : CBlockIndex}

/-- The coinbase takes in nothing, and is capped in a proof-of-work block and empty in a
proof-of-stake block; the others obey the rules of `ConnectInputs`. -/
structure TalliedBlock (env : Env) (w : World) (c : BlockContext) (b : CBlock)
    (coinbase : TxTally) (rest : List TxTally) : Prop where
  txs : coinbase.tx :: rest.map TxTally.tx = b.vtx
  coinbase_in : coinbase.nTxValueIn = 0
  coinbase_work : b.isProofOfStake = false → coinbase.nTxValueOut ≤ getProofOfWorkReward
  coinbase_stake : b.isProofOfStake = true → coinbase.nTxValueOut = 0
  not_coinbase : ∀ t ∈ rest, t.tx.isCoinBase = false
  rules : ∀ t ∈ rest, TallyOk env w c t
  later_stake : b.isProofOfStake = true → ∀ t ∈ rest.tail, t.tx.isCoinStake = false

theorem ChainState.tallies_of_connectBlock (h : s.connectBlock env w mempool b pindex = .ok s') :
    ∃ coinbase rest, s.tallies env w mempool b pindex = coinbase :: rest ∧
      TalliedBlock env w (s.blockContext env w mempool pindex) b coinbase rest := by
  obtain ⟨hrules, -⟩ := connectBlock_tallies h
  obtain ⟨_, hchecked, -, -⟩ := connectBlock_ok h
  have htxs : (s.tallies env w mempool b pindex).map TxTally.tx = b.vtx :=
    BlockContext.map_tx_tallies _ _ _ _
  obtain ⟨tx0, _, hvtx, hcoinbase, hothers⟩ := hchecked.coinbase_first
  have hhead : b.vtx.headD default = tx0 := by rw [hvtx, headD_cons]
  rw [hvtx] at htxs
  obtain ⟨coinbase, rest, htallies, htx0, hrest⟩ := map_eq_cons_iff.mp htxs
  rw [htallies] at hrules
  have hout := (hrules coinbase mem_cons_self).out
  refine ⟨coinbase, rest, htallies, ?_, ?_, ?_, ?_, ?_, ?_, ?_⟩
  · rw [hvtx, htx0, hrest]
  · exact (hrules coinbase mem_cons_self).coinbase (by rw [htx0]; exact hcoinbase)
  · intro hwork
    obtain ⟨v, hv, hle⟩ := hchecked.work_coinbase hwork
    rw [hhead, ← htx0, hout] at hv
    cases hv
    exact hle
  · intro hstake
    obtain ⟨out, hvout, hempty⟩ := hchecked.stake_coinbase hstake
    rw [hhead] at hvout
    have hsum := CTransaction.getValueOut_eq hout
    rw [htx0, hvout] at hsum
    rw [hsum]
    unfold CTxOut.isEmpty at hempty
    simp at hempty
    simp [hempty]
  · intro t ht
    exact hothers t.tx (hrest ▸ mem_map_of_mem ht)
  · exact fun t ht => hrules t (mem_cons_of_mem coinbase ht)
  · intro hstake t ht
    refine hchecked.stake_position hstake t.tx ?_
    rw [hvtx, drop_succ_cons, ← hrest, ← map_drop, drop_one]
    exact mem_map_of_mem ht

variable {c : BlockContext} {coinbase : TxTally} {rest : List TxTally}

theorem TalliedBlock.second {second : TxTally}
    (h : TalliedBlock env w c b coinbase (second :: rest)) :
    b.vtx.getD 1 default = second.tx ∧ b.isProofOfStake = second.tx.isCoinStake := by
  unfold CBlock.isProofOfStake
  rw [← h.txs]
  exact ⟨rfl, rfl⟩

theorem TalliedBlock.isProofOfStake_nil
    (h : TalliedBlock env w c b coinbase []) : b.isProofOfStake = false := by
  unfold CBlock.isProofOfStake
  rw [← h.txs]
  rfl

section

variable (h : TalliedBlock env w c b coinbase rest) (hno : NoStrayMint b (coinbase :: rest))
include h hno

theorem TalliedBlock.later_nonpos : ∀ t ∈ rest.tail, t.nTxValueOut ≤ t.nTxValueIn := by
  intro t ht
  have hmem := mem_of_mem_tail ht
  by_cases hcs : t.tx.isCoinStake = true
  · have hwork : b.isProofOfWork = true := by
      by_contra hne
      have hstake : b.isProofOfStake = true := by simpa [CBlock.isProofOfWork] using hne
      rw [h.later_stake hstake t ht] at hcs
      cases hcs
    obtain ⟨i, hi⟩ := mem_iff_getElem?.mp ht
    refine hno hwork (i + 2) t (by omega) ?_ hcs
    rw [getElem?_cons_succ, ← getElem?_tail]
    exact hi
  · exact (h.rules t hmem).out_le_in (h.not_coinbase t hmem) (by simpa using hcs)

theorem TalliedBlock.work
    (hwork : b.isProofOfStake = false) : ∀ t ∈ rest, t.nTxValueOut ≤ t.nTxValueIn := by
  cases rest with
  | nil => simp
  | cons second rest =>
    intro t ht
    rcases mem_cons.mp ht with rfl | ht
    · refine (h.rules t mem_cons_self).out_le_in (h.not_coinbase t mem_cons_self) ?_
      rw [← h.second.2]
      exact hwork
    · exact h.later_nonpos hno t ht

end

theorem TalliedBlock.issuanceBound
    (h : TalliedBlock env w (s.blockContext env w mempool pindex) b coinbase rest)
    (hno : NoStrayMint b (coinbase :: rest)) :
    IssuanceBound env w s b pindex (coinbase :: rest) := by
  have hin := h.coinbase_in
  refine ⟨?_, ?_, ?_, fun hpos s0 w0 hash haccept => ChainState.checkAccept_kernel hpos haccept⟩
  · intro hwork
    have hpos : b.isProofOfStake = false := by simpa [CBlock.isProofOfWork] using hwork
    have hcap := h.coinbase_work hpos
    have hrest := issued_nonpos (h.work hno hpos)
    rw [issued_cons]
    omega
  · intro hpos
    cases rest with
    | nil =>
      rw [h.isProofOfStake_nil] at hpos
      cases hpos
    | cons second rest =>
      obtain ⟨htx, hkind⟩ := h.second
      obtain ⟨nCoinAge, hage, hreward⟩ := (h.rules second mem_cons_self).stake
        (h.not_coinbase second mem_cons_self) (hkind ▸ hpos)
      have hempty := h.coinbase_stake hpos
      have hrest := issued_nonpos (h.later_nonpos hno)
      rw [htx]
      refine ⟨nCoinAge, hage, ?_⟩
      rw [issued_cons, issued_cons]
      exact le_trans (by rw [tail_cons] at hrest; omega) hreward
  · intro i t ht hmints
    unfold TxTally.Mints at hmints
    cases hpos : b.isProofOfStake with
    | false =>
      -- every transaction but the coinbase pays for itself
      refine .inl ⟨by simp [CBlock.isProofOfWork, hpos], ?_⟩
      cases i with
      | zero => rfl
      | succ i =>
        have hle := h.work hno hpos t (mem_of_getElem? ht)
        omega
    | true =>
      refine .inr ⟨rfl, ?_⟩
      match i, ht with
      | 0, ht =>
        cases ht
        have hempty := h.coinbase_stake hpos
        omega
      | 1, _ => rfl
      | i + 2, ht =>
        rw [getElem?_cons_succ, ← getElem?_tail] at ht
        have hle := h.later_nonpos hno t (mem_of_getElem? ht)
        omega

/-- **Issuance.** What a connected block adds to the money supply is within the bound exactly if no
coinstake after the second transaction of a proof-of-work block mints. -/
theorem issuanceBound_iff (h : s.connectBlock env w mempool b pindex = .ok s') :
    s'.nMoneySupply pindex.hashBlock
        = int64 (s.prevMoneySupply pindex + issued (s.tallies env w mempool b pindex)) ∧
      (IssuanceBound env w s b pindex (s.tallies env w mempool b pindex) ↔
        NoStrayMint b (s.tallies env w mempool b pindex)) := by
  obtain ⟨-, hsupply⟩ := connectBlock_tallies h
  refine ⟨by rw [hsupply, Function.update_self], ?_⟩
  obtain ⟨_, _, htallies, hblock⟩ := s.tallies_of_connectBlock h
  rw [htallies]
  constructor
  · intro hbound hwork i t hi ht _
    by_contra hle
    rcases hbound.minters i t ht (not_le.mp hle) with ⟨-, rfl⟩ | ⟨hpos, -⟩
    · omega
    · simp [CBlock.isProofOfWork, hpos] at hwork
  · exact hblock.issuanceBound

end Connected

/-! ## A stray coinstake

A proof-of-work block forty days after block 8: the full reward to its coinbase, a transaction
with a fee, and in third place a coinstake on the coinbase of block 2. -/

def strayTime : Nat := sampleTime + 40 * 24 * 60 * 60

def strayCoinstake : CTransaction where
  nVersion := 1
  nTime := strayTime
  vin := [⟨⟨2, 0⟩, [], uint32Max⟩]
  vout := [⟨0, []⟩, ⟨coin + 10 * cent, [0x51]⟩]
  nLockTime := 101

def strayBlock : CBlock :=
  { chainBlock 9 with
    hashMerkleRoot := 9 + 100 + 2 * 101
    nTime := strayTime
    vtx := [{ sampleCoinbase 9 getProofOfWorkReward with
        nTime := strayTime, vin := [⟨COutPoint.null, scriptOfHeight 8 ++ [0], uint32Max⟩] },
      spendCoinbase 100 3, strayCoinstake] }

def strayWorld : World :=
  { sampleWorld ([1, 2, 3, 4, 5, 6, 7, 8].map chainBlock ++ [strayBlock]) with
    nAdjustedTime := strayTime
    writeToDisk := some (1, 9000) }

/-- The block becomes the best block and adds more than the reward to the money supply; no kernel
has been checked. -/
theorem stray_coinstake_mints :
    let result := eightBlocks.acceptBlock sampleEnv strayWorld strayWorld strayBlock
    result.2 = .ok () ∧ result.1.chain.hashBestChain = 9 ∧ strayBlock.isProofOfWork = true ∧
      (strayBlock.vtx.getD 2 default).isCoinStake = true ∧
      getProofOfWorkReward
        < result.1.chain.nMoneySupply 9 - eightBlocks.chain.nMoneySupply 8 := by
  decide +kernel

theorem issuanceBound_iff_supplyBlock :
    let s := sampleState supplyTree
    let w := sampleWorld [supplyBlock]
    let pindex := sampleIndex 2 (some 1) 1 2
    ∃ s', s.connectBlock sampleEnv w (fun _ => none) supplyBlock pindex = .ok s' ∧
      s'.nMoneySupply 2 = getProofOfWorkReward ∧
      IssuanceBound sampleEnv w s supplyBlock pindex
        (s.tallies sampleEnv w (fun _ => none) supplyBlock pindex) := by
  intro s w pindex
  have hmade : (s.connectBlock sampleEnv w (fun _ => none) supplyBlock pindex).map
      (fun s' => s'.nMoneySupply 2) = .ok getProofOfWorkReward := by decide +kernel
  obtain ⟨s', hconn, hsupply⟩ := map_eq_ok.mp hmade
  refine ⟨s', hconn, hsupply, (issuanceBound_iff hconn).2.mpr ?_⟩
  intro _ i t hi ht
  have hlen : (s.tallies sampleEnv w (fun _ => none) supplyBlock pindex).length = 1 := rfl
  have hlt := (List.getElem?_eq_some_iff.mp ht).1
  omega

end HoboNickels

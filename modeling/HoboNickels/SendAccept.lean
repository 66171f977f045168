import HoboNickels.CreateTx

/-!
# What the wallet makes, the node accepts

`CommitTransaction` marks the coins of a new transaction as spent before it hands the transaction to
`AcceptToMemoryPool`, and only logs an error if that refuses it. For a wallet whose spent flags
agree with the chain and the pool it does not, unless the amounts together are more than
`MAX_MONEY`, the split setting cuts an amount into pieces below `MIN_TXOUT_AMOUNT`, or coin control
names a coin that is later than the transaction.
-/

namespace HoboNickels

open Fallible List Function CTransaction CDiskTxPos WalletView MapPrevTx CTxOut

/-! ## When the checks pass

The converse of the facts that `BlockCheck` and `ConnectSpec` read off a passed check. -/

variable {v : Int}

section CheckTransaction

variable {tx : CTransaction}

theorem checkOutput_eq_ok {total : Int} {out : CTxOut} (hbase : tx.isCoinBase = false)
    (hstake : tx.isCoinStake = false) :
    tx.checkOutput total out = .ok v ↔
      minTxoutAmount ≤ out.nValue ∧ out.nValue ≤ maxMoney ∧ moneyRange (total + out.nValue) = true ∧
        v = total + out.nValue := by
  have hmin : minTxoutAmount = 1000 := rfl
  simp only [checkOutput, bind_eq_ok, require_eq_ok, hbase, hstake]
  constructor
  · rintro ⟨_, hempty, _, hlow, _, -, _, hhigh, _, hrange, h⟩
    refine ⟨?_, by simpa using hhigh, hrange, (Except.ok.inj h).symm⟩
    simpa [show out.isEmpty = false by simpa using hempty] using hlow
  rintro ⟨hlow, hhigh, hrange, rfl⟩
  have hne : out.isEmpty = false := by
    simp only [CTxOut.isEmpty, Bool.and_eq_false_iff, beq_eq_false_iff_ne]
    exact .inl (by omega)
  exact ⟨(), by simp [hne], (), by simpa [hne] using hlow, (), by simpa using by omega, (),
    by simpa using hhigh, (), hrange, rfl⟩

theorem foldlM_checkOutput_eq_ok (hbase : tx.isCoinBase = false) (hstake : tx.isCoinStake = false)
    {outs : List CTxOut} {total : Int} (htotal : 0 ≤ total) :
    outs.foldlM tx.checkOutput total = .ok v ↔
      (∀ out ∈ outs, minTxoutAmount ≤ out.nValue) ∧
        (outs = [] ∨ total + (outs.map nValue).sum ≤ maxMoney) ∧
        v = total + (outs.map nValue).sum := by
  have hmin : minTxoutAmount = 1000 := rfl
  induction outs generalizing total with
  | nil => simp [pure, Except.pure, eq_comm]
  | cons out outs ih =>
    simp only [foldlM_cons, bind_eq_ok, checkOutput_eq_ok hbase hstake]
    constructor
    · rintro ⟨_, ⟨hlow, -, hrange, rfl⟩, h⟩
      obtain ⟨hrest, hsum, rfl⟩ := (ih (by omega)).mp h
      rw [moneyRange_iff] at hrange
      refine ⟨?_, .inr ?_, ?_⟩
      · simpa [hlow] using hrest
      · rcases hsum with rfl | hsum
        · simpa using hrange.2
        · simpa [add_assoc] using hsum
      · simp [add_assoc]
    · rintro ⟨hall, hsum, rfl⟩
      simp only [map_cons, sum_cons, mem_cons, forall_eq_or_imp, reduceCtorEq,
        false_or] at hall hsum ⊢
      have hnonneg : 0 ≤ (outs.map nValue).sum :=
        sum_nonneg (by simpa using fun out hout => le_trans (by omega) (hall.2 out hout))
      refine ⟨total + out.nValue, ⟨hall.1, by omega, ?_, rfl⟩, ?_⟩
      · rw [moneyRange_iff]
        omega
      · exact (ih (by omega)).mpr ⟨hall.2, .inr (by omega), by simp [add_assoc]⟩

theorem checkTransaction_eq_ok {nAdjustedTime : Int} (hbase : tx.isCoinBase = false)
    (hstake : tx.isCoinStake = false) (htime : (tx.nTime : Int) ≤ nAdjustedTime) :
    tx.checkTransaction nAdjustedTime = .ok () ↔
      tx.vin ≠ [] ∧ tx.vout ≠ [] ∧ tx.serializeSize ≤ maxBlockSize ∧
      (∀ out ∈ tx.vout, minTxoutAmount ≤ out.nValue) ∧
      (tx.vout.map nValue).sum ≤ maxMoney ∧ (tx.vin.map (·.prevout)).Nodup ∧
      ∀ txin ∈ tx.vin, txin.prevout.isNull = false := by
  have hdrift : ¬ (tx.nTime : Int) > futureDrift nAdjustedTime := by
    rw [futureDrift]
    split <;> omega
  simp only [checkTransaction, bind_eq_ok, require_eq_ok, hbase,
    foldlM_checkOutput_eq_ok hbase hstake le_rfl]
  constructor
  · rintro ⟨_, hvin, _, hvout, _, -, _, hsize, v, ⟨hmin, hsum, -⟩, _, hnodup, hnull⟩
    have hne : tx.vout ≠ [] := by simpa using hvout
    refine ⟨by simpa using hvin, hne, by simpa using hsize, hmin, ?_, by simpa using hnodup, ?_⟩
    · simpa [hne] using hsum
    · simpa using hnull
  · rintro ⟨hvin, hvout, hsize, hmin, hsum, hnodup, hnull⟩
    exact ⟨(), by simpa using hvin, (), by simpa using hvout, (), by simp [hdrift], (),
      by simpa using hsize, _, ⟨hmin, .inr (by simpa using hsum), rfl⟩, (), by simpa using hnodup,
      by simpa using hnull⟩

end CheckTransaction

variable {txin : CTxIn}

section ConnectInputs

variable {env : Env} {w : World} {c : ConnectContext} {inputs : MapPrevTx} {tx : CTransaction}
  {l : List CTxIn}

structure InputOk (env : Env) (c : ConnectContext) (inputs : MapPrevTx) (tx : CTransaction)
    (txin : CTxIn) (txindex : CTxIndex) (txPrev : CTransaction) : Prop where
  found : inputs txin.prevout.hash = some (txindex, txPrev)
  inVout : txin.prevout.n < txPrev.vout.length
  inSpent : txin.prevout.n < txindex.vSpent.length
  mature : isImmature env.fTestNet c txindex txPrev = false
  time : txPrev.nTime ≤ tx.nTime
  nonneg : 0 ≤ (txPrev.vout.getD txin.prevout.n default).nValue
  unspent : (txindex.vSpent.getD txin.prevout.n CDiskTxPos.null).isNull = true

theorem foldlM_checkInput_of
    (hall : ∀ txin ∈ l, ∃ txindex txPrev, InputOk env c inputs tx txin txindex txPrev)
    (hv : 0 ≤ v) (hle : v + (l.map inputs.valueOf).sum ≤ maxMoney) :
    l.foldlM (checkInput env c inputs tx) v = .ok (v + (l.map inputs.valueOf).sum) := by
  induction l generalizing v with
  | nil => simp [pure, Except.pure]
  | cons txin l ih =>
    simp only [map_cons, sum_cons, mem_cons, forall_eq_or_imp] at hall hle ⊢
    have hvalue : ∀ txin ∈ l, 0 ≤ inputs.valueOf txin := by
      intro x hx
      obtain ⟨txindex, txPrev, hok⟩ := hall.2 x hx
      rw [valueOf, outputOf, hok.found]
      exact hok.nonneg
    have hnonneg : 0 ≤ (l.map inputs.valueOf).sum := sum_nonneg (by simpa using hvalue)
    obtain ⟨txindex, txPrev, hok⟩ := hall.1
    have hv' : inputs.valueOf txin = (txPrev.vout.getD txin.prevout.n default).nValue := by
      rw [valueOf, outputOf, hok.found]
    have hpos : 0 ≤ inputs.valueOf txin := hv' ▸ hok.nonneg
    have hstep : checkInput env c inputs tx v txin = .ok (v + inputs.valueOf txin) := by
      have hmoney : moneyRange (inputs.valueOf txin) = true := moneyRange_iff.mpr (by omega)
      have hmoney' : moneyRange (v + inputs.valueOf txin) = true := moneyRange_iff.mpr (by omega)
      rw [checkInput, hok.found]
      dsimp only
      rw [← hv', hmoney, hmoney', hok.mature]
      simp [hok.inVout, hok.inSpent, not_lt.mpr hok.time, bind, Except.bind, pure, Except.pure]
    rw [foldlM_cons, hstep, bind_eq_ok]
    exact ⟨_, rfl, by rw [ih hall.2 (by omega) (by omega), add_assoc]⟩

theorem time_of_foldlM_checkInput {v' : Int}
    (h : l.foldlM (checkInput env c inputs tx) v = .ok v') (hmem : txin ∈ l)
    {txindex : CTxIndex} {txPrev : CTransaction}
    (hfound : inputs txin.prevout.hash = some (txindex, txPrev)) : txPrev.nTime ≤ tx.nTime := by
  induction l generalizing v with
  | nil => simp at hmem
  | cons x l ih =>
    obtain ⟨_, h1, h2⟩ := bind_eq_ok.mp h
    rcases mem_cons.mp hmem with rfl | hmem
    · obtain ⟨⟨_, _, hin, htime⟩, -⟩ := checkInput_eq_ok h1
      cases hfound.symm.trans hin
      exact htime
    · exact ih h2 hmem

theorem spendInputsFrom_of (hsig : ∀ check : CScriptCheck, check.txTo = tx → check.run env = true)
    {i : Nat} {st : SpendState} (hnodup : (l.map (·.prevout)).Nodup)
    (hall : ∀ txin ∈ l, ∃ txindex txPrev, st.inputs txin.prevout.hash = some (txindex, txPrev) ∧
      (txindex.vSpent.getD txin.prevout.n null).isNull = true) :
    ∃ st', spendInputsFrom env c tx i l st = .ok st' := by
  induction l generalizing i st with
  | nil => exact ⟨st, rfl⟩
  | cons txin l ih =>
    simp only [map_cons, nodup_cons, mem_cons, forall_eq_or_imp] at hnodup hall
    obtain ⟨⟨txindex, txPrev, hfound, hnull⟩, hrest⟩ := hall
    obtain ⟨st1, hst1, hinputs⟩ : ∃ st1, spendInput env c tx st i txin = .ok st1 ∧
        st1.inputs = update st.inputs txin.prevout.hash
          (some (txindex.setSpent txin.prevout.n c.posThisTx, txPrev)) := by
      rw [spendInput, hfound]
      have hscript : ∀ check : CScriptCheck, check.txTo = tx →
          checkScript env c check = .ok () := by
        intro check hcheck
        simp [checkScript, hsig check hcheck]
      refine ⟨_, bind_eq_ok.mpr ⟨(), by simpa using hnull, bind_eq_ok.mpr ⟨(), hscript _ rfl, rfl⟩⟩,
        rfl⟩
    obtain ⟨st', hst'⟩ := @ih (i + 1) st1 hnodup.2 (by
      intro x hx
      obtain ⟨t, p, hf, hn⟩ := hrest x hx
      rw [hinputs]
      by_cases hhash : x.prevout.hash = txin.prevout.hash
      · -- another output of the same transaction
        rw [hhash, hfound] at hf
        obtain ⟨rfl, rfl⟩ := Prod.mk.inj (Option.some.inj hf)
        have hne : txin.prevout.n ≠ x.prevout.n := by
          intro hn'
          refine hnodup.1 (mem_map.mpr ⟨x, hx, ?_⟩)
          cases hp : x.prevout
          cases hq : txin.prevout
          simp_all
        refine ⟨txindex.setSpent txin.prevout.n c.posThisTx, txPrev, ?_, ?_⟩
        · rw [hhash, update_self]
        · simpa [CTxIndex.setSpent, getD_eq_getElem?_getD, getElem?_set_ne hne] using hn
      · exact ⟨t, p, by rw [update_of_ne hhash, hf], hn⟩)
    exact ⟨st', bind_eq_ok.mpr ⟨st1, hst1, hst'⟩⟩

theorem connectInputs_of {db : CTxDB} {nBestHeight : Int} (hbase : tx.isCoinBase = false)
    (hstake : tx.isCoinStake = false)
    (hsig : ∀ check : CScriptCheck, check.txTo = tx → check.run env = true)
    (hnodup : (tx.vin.map (·.prevout)).Nodup)
    (hall : ∀ txin ∈ tx.vin, ∃ txindex txPrev, InputOk env c inputs tx txin txindex txPrev)
    (hin : (tx.vin.map inputs.valueOf).sum ≤ maxMoney) (hmin : ∀ out ∈ tx.vout, 0 ≤ out.nValue)
    (hfee : (tx.vout.map nValue).sum + minTxFee ≤ (tx.vin.map inputs.valueOf).sum) :
    ∃ r, connectInputs env w db nBestHeight c inputs ∅ tx = .ok r := by
  have hminfee : minTxFee = 1000 := rfl
  have hvalue := foldlM_checkInput_of hall le_rfl (by simpa using hin)
  rw [zero_add] at hvalue
  obtain ⟨st, hst⟩ := @spendInputsFrom_of env c tx tx.vin hsig 0 ⟨inputs, ∅, []⟩ hnodup
    (fun txin htxin => by
      obtain ⟨txindex, txPrev, hok⟩ := hall txin htxin
      exact ⟨txindex, txPrev, hok.found, hok.unspent⟩)
  have hnonneg : 0 ≤ (tx.vout.map nValue).sum := sum_nonneg (by simpa using hmin)
  have hout := getValueOut_of hmin (by omega)
  have hreward : checkReward env w db nBestHeight c tx (tx.vin.map inputs.valueOf).sum =
      .ok () := by
    have hmoney : moneyRange ((tx.vin.map inputs.valueOf).sum - (tx.vout.map nValue).sum) =
        true := moneyRange_iff.mpr (by omega)
    have hle : ¬ (tx.vin.map inputs.valueOf).sum < (tx.vout.map nValue).sum := by omega
    have hpos : ¬ (tx.vin.map inputs.valueOf).sum - (tx.vout.map nValue).sum < 0 := by omega
    have henough : ¬ (tx.vin.map inputs.valueOf).sum - (tx.vout.map nValue).sum <
        minTxFee := by omega
    rw [checkReward, hstake]
    simp only [checkFee, CBlock.valueOutOrThrow, hout, demand, Bool.false_eq_true, if_false,
      bind_eq_ok, require_eq_ok, getMinFee_default]
    exact ⟨_, rfl, (), by simpa using hle, (), by simpa using hpos, (), by simpa using henough,
      hmoney⟩
  rw [connectInputs, hbase]
  exact ⟨_, bind_eq_ok.mpr ⟨_, hvalue, bind_eq_ok.mpr ⟨st, hst, bind_eq_ok.mpr ⟨(), hreward, rfl⟩⟩⟩⟩

end ConnectInputs

section FetchInputs

variable {env : Env} {w : World} {c : FetchContext} {tx : CTransaction}

def Fetchable (env : Env) (w : World) (c : FetchContext) (tx : CTransaction)
    (source : Uint256 → CTxIndex × CTransaction) (i : Nat) (txin : CTxIn) : Prop :=
  ∀ inputsRet : MapPrevTx, inputsRet txin.prevout.hash = none →
    fetchInput env w c tx inputsRet i txin =
      .ok (update inputsRet txin.prevout.hash (some (source txin.prevout.hash)))

def MapPrevTx.From (source : Uint256 → CTxIndex × CTransaction) (inputs : MapPrevTx) : Prop :=
  ∀ hash e, inputs hash = some e → e = source hash

theorem fetchInputsFrom_of {source : Uint256 → CTxIndex × CTransaction} {l : List CTxIn} {i : Nat}
    {inputsRet : MapPrevTx} (hall : ∀ k txin, l[k]? = some txin →
      Fetchable env w c tx source (i + k) txin) (hfrom : inputsRet.From source) :
    ∃ inputs, fetchInputsFrom env w c tx i l inputsRet = .ok inputs ∧ inputs.From source ∧
      (∀ hash e, inputsRet hash = some e → inputs hash = some e) ∧
      ∀ txin ∈ l, inputs txin.prevout.hash = some (source txin.prevout.hash) := by
  induction l generalizing i inputsRet with
  | nil => exact ⟨inputsRet, rfl, hfrom, fun _ _ h => h, by simp⟩
  | cons txin l ih =>
    -- after the first input its transaction is in the map
    obtain ⟨inputs1, h1, hfrom1, hkeep1, hhead⟩ : ∃ inputs1,
        fetchInput env w c tx inputsRet i txin = .ok inputs1 ∧ inputs1.From source ∧
        (∀ hash e, inputsRet hash = some e → inputs1 hash = some e) ∧
        inputs1 txin.prevout.hash = some (source txin.prevout.hash) := by
      cases hthere : inputsRet txin.prevout.hash with
      | some e =>
        refine ⟨inputsRet, by simp [fetchInput, hthere], hfrom, fun _ _ h => h, ?_⟩
        rw [hthere, hfrom _ _ hthere]
      | none =>
        refine ⟨_, hall 0 txin rfl inputsRet hthere, ?_, ?_, update_self ..⟩
        · intro hash e h
          obtain ⟨rfl, ⟨⟩⟩ | ⟨-, h⟩ := update_eq_some h
          · rfl
          · exact hfrom hash e h
        · intro hash e h
          have hne : hash ≠ txin.prevout.hash := by
            rintro rfl
            rw [hthere] at h
            cases h
          rw [update_of_ne hne, h]
    obtain ⟨inputs, h, hsource, hkeep, htail⟩ := @ih (i + 1) inputs1 (fun k x hx => by
        have := hall (k + 1) x (by simpa using hx)
        rwa [← Nat.add_assoc, Nat.add_right_comm] at this) hfrom1
    refine ⟨inputs, bind_eq_ok.mpr ⟨inputs1, h1, h⟩, hsource,
      fun hash e he => hkeep hash e (hkeep1 hash e he), ?_⟩
    intro x hx
    rcases mem_cons.mp hx with rfl | hx
    · exact hkeep _ _ hhead
    · exact htail x hx

end FetchInputs

/-! ## The wallet and the node -/

def Node.source (n : Node) (w : World) (hash : Uint256) : CTxIndex × CTransaction :=
  match n.chain.db.readOnly.readTxIndex hash with
  | some txindex => (txindex, (w.disk.tx txindex.pos.nFile txindex.pos.nTxPos).getD default)
  | none =>
    let tx := (n.mempool.mapTx hash).getD default
    (CTxIndex.new CDiskTxPos.null tx.vout.length, tx)

variable {pindexBest : CBlockIndex}

namespace WalletView

variable {W : WalletView} {w : World}

/-- The wallet's transactions fit into a block, a confirmed one is in the index at the position of
its block, with the outputs that the wallet calls unspent unspent, and an unconfirmed one is in the
pool only. Blocks have positions of their own. -/
structure Agrees (W : WalletView) (w : World) : Prop where
  tree : W.node.chain.mapBlockIndex.WellFormed
  best : ∃ b, W.node.chain.pindexBest.bind W.node.chain.mapBlockIndex = some b
  positions : ∀ a b, W.node.chain.mapBlockIndex a.hashBlock = some a →
    W.node.chain.mapBlockIndex b.hashBlock = some b → a.nFile = b.nFile →
    a.nBlockPos = b.nBlockPos → a = b
  clock : w.nAdjustedTime = W.nAdjustedTime
  fits : ∀ out ∈ W.unspent, out.tx.serializeSize ≤ maxBlockSize
  confirmed : ∀ out ∈ W.unspent, 1 ≤ W.depth out.tx →
    ∃ txindex, W.node.chain.db.readOnly.readTxIndex out.hash = some txindex ∧
      txindex.pos ≠ CDiskTxPos.memoryPool ∧
      (∀ site, w.readTx site txindex.pos = some out.tx.toCTransaction) ∧
      txindex.vSpent.length = out.tx.vout.length ∧
      (txindex.vSpent.getD out.i CDiskTxPos.null).isNull = true ∧
      ∀ pindex, W.node.chain.mapBlockIndex out.tx.hashBlock = some pindex →
        txindex.pos.nFile = pindex.nFile ∧ txindex.pos.nBlockPos = pindex.nBlockPos
  pooled : ∀ out ∈ W.unspent, W.depth out.tx = 0 →
    W.node.chain.db.readOnly.readTxIndex out.hash = none ∧
      W.node.mempool.mapTx out.hash = some out.tx.toCTransaction

/-- `CheckTransaction` passes, and so does `ConnectInputs` with the inputs that `FetchInputs` finds.
-/
def Accepted (W : WalletView) (w : World) (tx : CTransaction) : Prop :=
  tx.checkTransaction w.nAdjustedTime = .ok () ∧
    ∃ inputs pindexBest r, fetchInputs W.env w W.node.fetchContext tx = .ok inputs ∧
      W.node.chain.pindexBest.bind W.node.chain.mapBlockIndex = some pindexBest ∧
      connectInputs W.env w W.node.chain.db.readOnly W.node.chain.nBestHeight
        (W.node.connectContext pindexBest tx) inputs ∅ tx = .ok r

theorem depth_confirmed {wtx : WalletRecord} (h : 1 ≤ W.depth wtx) :
    ∃ pindex, W.node.chain.mapBlockIndex wtx.hashBlock = some pindex ∧
      W.depth wtx = W.nBestIndexHeight - pindex.nHeight + 1 := by
  have hdepth : W.depth wtx = W.depthInternal wtx.toCMerkleTx wtx.fMerkleVerified := by
    rw [depth, getDepthInMainChain] at h ⊢
    split at h
    · omega
    next hpool => exact if_neg hpool
  rw [hdepth] at h ⊢
  rw [depthInternal] at h ⊢
  split at h
  · omega
  split at h
  · omega
  rename_i pindex hindex
  split at h
  · omega
  split at h
  · omega
  refine ⟨pindex, hindex, ?_⟩
  simp_all

variable {out : COutput}

theorem Agrees.mature (hagree : W.Agrees w)
    (hbest : W.node.chain.pindexBest.bind W.node.chain.mapBlockIndex = some pindexBest)
    (hout : out ∈ W.unspent) (hmature : W.getBlocksToMaturity out.tx ≤ 0)
    (hdepth : 0 ≤ W.depth out.tx) (tx : CTransaction) :
    isImmature W.env.fTestNet (W.node.connectContext pindexBest tx) (W.node.source w out.hash).1
      out.tx.toCTransaction = false := by
  by_cases hgen : (out.tx.isCoinBase || out.tx.isCoinStake) = true
  · have hdeep : (nCoinbaseMaturity W.env.fTestNet : Int) + 20 ≤ W.depth out.tx := by
      rw [getBlocksToMaturity, if_pos hgen] at hmature
      omega
    obtain ⟨pindex, hindex, _⟩ := depth_confirmed (by omega : 1 ≤ W.depth out.tx)
    obtain ⟨txindex, hread, -, -, -, -, hpos⟩ := hagree.confirmed out hout (by omega)
    obtain ⟨hfile, hblock⟩ := hpos pindex hindex
    have hsource : (W.node.source w out.hash).1 = txindex := by simp [Node.source, hread]
    have hchain : ∀ p ∈ pindexBest :: W.node.chain.ancestorsOf pindexBest,
        W.node.chain.mapBlockIndex p.hashBlock = some p := by
      intro p hp
      rcases mem_cons.mp hp with rfl | hp
      · obtain ⟨h, -, hb⟩ := Option.bind_eq_some_iff.mp hbest
        exact hagree.tree.indexed hb
      rw [ChainState.ancestorsOf] at hp
      split at hp
      · simp at hp
      · exact BlockMap.mem_chainOf_indexed hagree.tree hp
    have hbestHeight : W.nBestIndexHeight = pindexBest.nHeight := by
      simp [nBestIndexHeight, hbest]
    rw [isImmature, hsource]
    simp only [Bool.and_eq_false_iff, any_eq_false, Bool.and_eq_true, beq_iff_eq, not_and]
    right
    intro p hp hbp hfp
    have hclose : (pindexBest.nHeight : Int) - p.nHeight < nCoinbaseMaturity W.env.fTestNet := by
      have hwhile := mem_takeWhile_imp hp
      exact of_decide_eq_true hwhile
    have hmem := (takeWhile_sublist _).mem hp
    have hpp := hchain p hmem
    have hsame := hagree.positions p pindex hpp (hagree.tree.indexed hindex) (hfp.trans hfile)
      (hbp.trans hblock)
    rw [hsame] at hclose
    omega
  · simp [isImmature, Bool.not_eq_true _ ▸ hgen]

theorem Agrees.source (hagree : W.Agrees w) (hout : out ∈ W.unspent) (hdepth : 0 ≤ W.depth out.tx) :
    (W.node.source w out.hash).2 = out.tx.toCTransaction ∧
      (W.node.source w out.hash).1.vSpent.length = out.tx.vout.length ∧
      ((W.node.source w out.hash).1.vSpent.getD out.i null).isNull = true ∧
      ∀ (tx : CTransaction) (i : Nat) (txin : CTxIn), txin.prevout.hash = out.hash →
        Fetchable W.env w W.node.fetchContext tx (W.node.source w) i txin := by
  by_cases hconf : 1 ≤ W.depth out.tx
  · obtain ⟨txindex, hread, hpool, hdisk, hlen, hnull, -⟩ := hagree.confirmed out hout hconf
    have hsource : W.node.source w out.hash = (txindex, out.tx.toCTransaction) := by
      have := World.readTx_eq_some (hdisk (.stakeTx 0))
      simp [Node.source, hread, this]
    rw [hsource]
    refine ⟨rfl, hlen, hnull, ?_⟩
    intro tx i txin hhash inputsRet hnone
    have hindex : W.node.fetchContext.readIndex out.hash = some txindex := hread
    rw [hhash] at hnone
    rw [fetchInput, hhash, hnone, hindex, hsource]
    simp [hpool, hdisk]
  · obtain ⟨hread, hmem⟩ := hagree.pooled out hout (by omega)
    have hsource : W.node.source w out.hash =
        (CTxIndex.new null out.tx.vout.length, out.tx.toCTransaction) := by
      simp [Node.source, hread, hmem]
    rw [hsource]
    refine ⟨rfl, by simp [CTxIndex.new], ?_, ?_⟩
    · rw [CTxIndex.new, getD_eq_getElem?_getD, getElem?_replicate]
      split <;> rfl
    intro tx i txin hhash inputsRet hnone
    have hindex : W.node.fetchContext.readIndex out.hash = none := hread
    have hpool : W.node.fetchContext.mempool out.hash = some out.tx.toCTransaction := hmem
    rw [hhash] at hnone
    rw [fetchInput, hhash, hnone, hindex, hsource, hpool]
    simp [Node.fetchContext]

theorem of_mem_spendableCoins {setSelected : List COutPoint}
    (h : out ∈ W.spendableCoins setSelected) :
    out ∈ W.unspent ∧ W.getBlocksToMaturity out.tx ≤ 0 ∧ 0 ≤ W.depth out.tx := by
  rw [spendableCoins] at h
  cases hcoins : W.availableCoins true setSelected with
  | error e => simp [hcoins, Except.toOption] at h
  | ok vCoins =>
    simp only [hcoins, Except.toOption, Option.getD_some, mem_filter] at h
    obtain ⟨hunspent, -, hmature, hdepth⟩ := mem_availableCoins hcoins h.1
    exact ⟨hunspent, hmature, hdepth⟩

end WalletView

/-! ## Sending -/

/-! ### The outputs to the payees -/

namespace SendRequest

variable {q : SendRequest} {fSplitBlock : Bool}

theorem mem_payees {out : CTxOut} (h : out ∈ q.payees fSplitBlock) :
    ∃ p ∈ q.vecSend, out.scriptPubKey = p.1 := by
  rw [payees] at h
  split at h
  · obtain ⟨p, hp, rfl⟩ := mem_map.mp h
    exact ⟨p, hp, rfl⟩
  obtain ⟨p, hp, hout⟩ := mem_flatMap.mp h
  refine ⟨p, hp, ?_⟩
  rcases mem_append.mp hout with hout | hout
  · rw [eq_of_mem_replicate hout]
  · rw [mem_singleton.mp hout]

theorem pieces_min_iff {p : CScript × Int} (hv : v ≤ p.2) (hpos : 0 ≤ p.2) :
    (∀ out ∈ q.pieces p, v ≤ out.nValue) ↔ v ≤ p.2.tdiv (max 1 q.nSplitBlock) := by
  have hmod : 0 ≤ p.2.tmod (max 1 q.nSplitBlock) := Int.tmod_nonneg _ hpos
  constructor
  · intro hall
    by_cases hone : q.nSplitBlock ≤ 1
    · simpa [max_eq_left hone] using hv
    · refine hall ⟨p.2.tdiv (max 1 q.nSplitBlock), p.1⟩ (mem_append_left _ ?_)
      exact mem_replicate.mpr ⟨by omega, rfl⟩
  · intro hle out hout
    rcases mem_append.mp hout with hout | hout
    · rw [eq_of_mem_replicate hout]
      exact hle
    · rw [mem_singleton.mp hout]
      dsimp only
      omega

theorem payees_min_iff (hv : ∀ p ∈ q.vecSend, v ≤ p.2) (hpos : ∀ p ∈ q.vecSend, 0 ≤ p.2) :
    (∀ out ∈ q.payees fSplitBlock, v ≤ out.nValue) ↔
      (fSplitBlock = true → ∀ p ∈ q.vecSend, v ≤ p.2.tdiv (max 1 q.nSplitBlock)) := by
  cases fSplitBlock with
  | false =>
    simp only [payees, Bool.not_false, if_true, mem_map, forall_exists_index, and_imp,
      Bool.false_eq_true, false_imp_iff, iff_true]
    rintro out p hp rfl
    exact hv p hp
  | true =>
    simp only [payees, Bool.not_true, Bool.false_eq_true, if_false, mem_flatMap, true_imp_iff]
    constructor
    · intro hall p hp
      exact (pieces_min_iff (hv p hp) (hpos p hp)).mp fun out hout => hall out ⟨p, hp, hout⟩
    · rintro hall out ⟨p, hp, hout⟩
      exact (pieces_min_iff (hv p hp) (hpos p hp)).mpr (hall p hp) out hout

theorem requested_pos (hsend : q.vecSend ≠ []) (hamounts : ∀ p ∈ q.vecSend, minTxoutAmount ≤ p.2) :
    0 < (q.vecSend.map Prod.snd).sum := by
  have hmin : minTxoutAmount = 1000 := rfl
  refine sum_pos _ ?_ (by simpa using hsend)
  intro v hv
  obtain ⟨p, hp, rfl⟩ := mem_map.mp hv
  have := hamounts p hp
  omega

end SendRequest

namespace Sender

variable {s : Sender} {q : SendRequest} {r : SendChance} {w : World} {nFeeRet : Int} {k : Nat}
  {sel : Selection} {c : Created}

section

variable (hb : s.Built q r (q.vecSend.map Prod.snd).sum k nFeeRet sel c)
include hb

theorem Built.times (hmod : s.view.Moderate) :
    (q.setSelected = [] → ∀ coin ∈ c.coins, coin.tx.nTime ≤ q.nTime) ∧
    (q.setSelected ≠ [] → ∀ coin ∈ s.view.spendableCoins q.setSelected, coin ∈ c.coins) := by
  have hselected := hb.selected
  constructor
  · intro hctl coin hcoin
    rw [hctl] at hselected
    obtain ⟨vCoins, -, _, _, j, hsel⟩ := selectCoins_cases hselected
    exact (mem_selectCoinsMinConf hsel (hb.coins_perm.mem_iff.mp hcoin)).2.2
  intro hctl coin hcoin
  obtain ⟨vCoins, hcoins, rfl, -⟩ := selectCoins_controlled hctl hselected
  have hsub := spendableCoins_sublist (W := s.view) q.setSelected
  rw [hb.coins_perm.mem_iff]
  simp only [spendableCoins, hcoins, Except.toOption, Option.getD_some] at hcoin hsub
  rw [(hmod.sound.sublist hsub).addAll]
  exact hcoin

theorem Built.coin_of_mem_vin
    (h : txin ∈ c.tx.vin) : ∃ coin ∈ c.coins, coin.outPoint = txin.prevout := by
  have hmem : txin.prevout ∈ c.tx.vin.map CTxIn.prevout := mem_map_of_mem h
  rw [hb.inputs] at hmem
  exact mem_map.mp hmem

theorem Built.txin_of_mem_coins {coin : COutput} (h : coin ∈ c.coins) :
    ∃ txin ∈ c.tx.vin, txin.prevout = coin.outPoint := by
  rw [← mem_map, hb.inputs]
  exact mem_map_of_mem h

theorem Built.not_generated
    (hagree : s.view.Agrees w) (hsend : q.vecSend ≠ []) (hscripts : ∀ p ∈ q.vecSend, p.1 ≠ []) :
    (∀ txin ∈ c.tx.vin, txin.prevout.isNull = false) ∧ c.tx.isCoinBase = false ∧
      c.tx.isCoinStake = false := by
  have hnull : ∀ txin ∈ c.tx.vin, txin.prevout.isNull = false := by
    intro txin htxin
    obtain ⟨coin, hcoin, hop⟩ := hb.coin_of_mem_vin htxin
    have hunspent := hb.mem_unspent hcoin
    have hi := i_lt_of_mem_unspent hunspent
    have hlen := coin.tx.toCTransaction.length_vout_le
    have hsize := hagree.fits coin hunspent
    have hmax : maxBlockSize < uint32Max := by decide
    have hne : coin.i ≠ uint32Max := by omega
    rw [← hop]
    simp [COutPoint.isNull, COutput.outPoint, hne]
  refine ⟨hnull, ?_, ?_⟩
  · rw [isCoinBase]
    split
    next txin hvin => simp [hnull txin (by simp [hvin])]
    · rfl
  · obtain ⟨change, hperm, -, hchange, -⟩ := outputs_ok hsend hb.outputs
    rw [isCoinStake]
    split
    next txin vin out out' vout hvin hvout =>
      have hout : out.isEmpty = false := by
        have hmem : out ∈ q.payees s.fSplitBlock ++ change := hperm.mem_iff.mp (by simp [hvout])
        simp only [CTxOut.isEmpty, Bool.and_eq_false_iff, beq_eq_false_iff_ne]
        rcases mem_append.mp hmem with hmem | hmem
        · obtain ⟨p, hp, hscript⟩ := SendRequest.mem_payees hmem
          right
          simpa [hscript] using hscripts p hp
        · obtain ⟨-, _, _⟩ := hchange out hmem
          exact .inl (by omega)
      simp [hout]
    · rfl

theorem Built.fetched (hagree : s.view.Agrees w) (hbase : c.tx.isCoinBase = false) :
    ∃ inputs, fetchInputs s.view.env w s.view.node.fetchContext c.tx = .ok inputs ∧
      ∀ coin ∈ c.coins, inputs coin.hash = some (s.view.node.source w coin.hash) := by
  have hcoin : ∀ coin ∈ c.coins, coin ∈ s.view.unspent ∧ 0 ≤ s.view.depth coin.tx := by
    intro coin hmem
    obtain ⟨hunspent, -, hdepth⟩ := WalletView.of_mem_spendableCoins (hb.mem_spendableCoins hmem)
    exact ⟨hunspent, hdepth⟩
  obtain ⟨inputs, hfrom, -, -, hall⟩ := @fetchInputsFrom_of s.view.env w
    s.view.node.fetchContext c.tx
    (s.view.node.source w) c.tx.vin 0 (fun _ => none) (by
      intro i txin htxin
      obtain ⟨coin, hmem, hop⟩ := hb.coin_of_mem_vin (mem_of_getElem? htxin)
      exact (hagree.source (hcoin coin hmem).1 (hcoin coin hmem).2).2.2.2 c.tx _ txin
        (by rw [← hop]; rfl)) (by intro hash e h; cases h)
  have hrange : c.tx.vin.all inputs.inRange = true := by
    rw [all_eq_true]
    intro txin htxin
    obtain ⟨coin, hmem, hop⟩ := hb.coin_of_mem_vin htxin
    have hi := i_lt_of_mem_unspent (hcoin coin hmem).1
    obtain ⟨hprev, hlen, -, -⟩ := hagree.source (hcoin coin hmem).1 (hcoin coin hmem).2
    rw [inRange, hall txin htxin, ← hop]
    have hhash : coin.outPoint.hash = coin.hash := rfl
    have hn : coin.outPoint.n = coin.i := rfl
    simp [hhash, hn, hprev, hlen, hi]
  refine ⟨inputs, ?_, ?_⟩
  · rw [fetchInputs, hbase]
    exact bind_eq_ok.mpr ⟨inputs, hfrom, bind_eq_ok.mpr ⟨(), by simpa using hrange, rfl⟩⟩
  intro coin hmem
  obtain ⟨txin, htxin, hop⟩ := hb.txin_of_mem_coins hmem
  have := hall txin htxin
  rwa [hop] at this

theorem Built.values (hagree : s.view.Agrees w) {inputs : MapPrevTx}
    (hinputs : ∀ coin ∈ c.coins, inputs coin.hash = some (s.view.node.source w coin.hash)) :
    c.tx.vin.map inputs.valueOf = c.coins.map COutput.nValue := by
  -- the value depends on the outpoint only
  have hvalue : ∀ txin : CTxIn, inputs.valueOf txin = inputs.valueOf ⟨txin.prevout, [], 0⟩ :=
    fun _ => rfl
  calc c.tx.vin.map inputs.valueOf
      = (c.tx.vin.map CTxIn.prevout).map (fun op => inputs.valueOf ⟨op, [], 0⟩) := by
        rw [map_map]
        exact map_congr_left fun txin _ => hvalue txin
    _ = c.coins.map COutput.nValue := by
        rw [hb.inputs, map_map]
        apply map_congr_left
        intro coin hcoin
        obtain ⟨hunspent, -, hdepth⟩ :=
          of_mem_spendableCoins (hb.mem_spendableCoins hcoin)
        have hprev := (hagree.source hunspent hdepth).1
        have hhash : coin.outPoint.hash = coin.hash := rfl
        simp only [comp_apply, valueOf, outputOf, hhash, hinputs coin hcoin, hprev]
        rfl

end

/-- The amounts are an amount of money, no payment is split below the minimum, and no coin that coin
control selects is later than the transaction. -/
structure Acceptable (s : Sender) (q : SendRequest) : Prop where
  amounts : (q.vecSend.map Prod.snd).sum ≤ maxMoney
  pieces : s.fSplitBlock = true →
    ∀ p ∈ q.vecSend, minTxoutAmount ≤ p.2.tdiv (max 1 q.nSplitBlock)
  times : q.setSelected ≠ [] →
    ∀ coin ∈ s.view.spendableCoins q.setSelected, coin.tx.nTime ≤ q.nTime

section

variable (hb : s.Built q r (q.vecSend.map Prod.snd).sum k nFeeRet sel c)
  (hagree : s.view.Agrees w) (hmod : s.view.Moderate) (hsend : q.vecSend ≠ [])
  (hamounts : ∀ p ∈ q.vecSend, minTxoutAmount ≤ p.2) (hscripts : ∀ p ∈ q.vecSend, p.1 ≠ [])
  (htime : (q.nTime : Int) ≤ s.view.nAdjustedTime)
include hb hagree hmod hsend hamounts hscripts htime

theorem Built.acceptable_of_accepted (h : s.view.Accepted w c.tx) : s.Acceptable q := by
  have hmin : minTxoutAmount = 1000 := rfl
  obtain ⟨hcheck, inputs, _, _, hfetch, -, hconnect⟩ := h
  obtain ⟨-, hbase, hstake⟩ := hb.not_generated hagree hsend hscripts
  obtain ⟨_, hfetch', hinputs⟩ := hb.fetched hagree hbase
  obtain rfl := Except.ok.inj (hfetch.symm.trans hfetch')
  have hclock : (c.tx.nTime : Int) ≤ w.nAdjustedTime := by
    rw [hb.time, hagree.clock]
    exact htime
  obtain ⟨-, -, -, hvout, _, -, -⟩ := (checkTransaction_eq_ok hbase hstake hclock).mp hcheck
  constructor
  · have := outputs_sum hsend hb.outputs
    omega
  · refine (SendRequest.payees_min_iff hamounts ?_).mp ?_
    · exact fun p hp => le_trans (by omega) (hamounts p hp)
    · intro out hout
      obtain ⟨_, hperm, -, -, -⟩ := outputs_ok hsend hb.outputs
      exact hvout out (hperm.mem_iff.mpr (mem_append_left _ hout))
  · intro hctl coin hcoin
    have hmem := (hb.times hmod).2 hctl coin hcoin
    obtain ⟨txin, htxin, hop⟩ := hb.txin_of_mem_coins hmem
    obtain ⟨hunspent, -, hdepth⟩ := of_mem_spendableCoins hcoin
    have hprev := (hagree.source hunspent hdepth).1
    obtain ⟨_, _, hvalue, -⟩ := connectInputs_ok hbase hconnect
    have hfound : inputs txin.prevout.hash =
        some ((s.view.node.source w coin.hash).1, coin.tx.toCTransaction) := by
      rw [hop, ← hprev]
      exact hinputs coin hmem
    rw [← hb.time]
    exact time_of_foldlM_checkInput hvalue htxin hfound

omit hagree hscripts hmod htime in
theorem Built.vout_min (hlo : 0 ≤ nFeeRet) (hhi : nFeeRet ≤ feeCap) (h : s.Acceptable q) :
    ∀ out ∈ c.tx.vout, minTxoutAmount ≤ out.nValue := by
  have hmin : minTxoutAmount = 1000 := rfl
  obtain ⟨_, hperm, -, hchange, -⟩ := outputs_ok hsend hb.outputs
  intro out hout
  rcases mem_append.mp (hperm.mem_iff.mp hout) with hout | hout
  · exact (SendRequest.payees_min_iff hamounts
      fun p hp => le_trans (by omega) (hamounts p hp)).mpr h.pieces out hout
  · obtain ⟨-, hvalue, hchangePos⟩ := hchange out hout
    rw [hvalue]
    exact (moveToFee_spec hlo hhi).2.2.2 hchangePos

omit hsend hamounts hscripts htime in
theorem Built.inputOk {inputs : MapPrevTx}
    (hbest : s.view.node.chain.pindexBest.bind s.view.node.chain.mapBlockIndex = some pindexBest)
    (hinputs : ∀ coin ∈ c.coins, inputs coin.hash = some (s.view.node.source w coin.hash))
    (h : s.Acceptable q) (htxin : txin ∈ c.tx.vin) :
    ∃ txindex txPrev, InputOk s.view.env (s.view.node.connectContext pindexBest c.tx) inputs c.tx
      txin txindex txPrev := by
  obtain ⟨coin, hcoin, hop⟩ := hb.coin_of_mem_vin htxin
  have hspend := hb.mem_spendableCoins hcoin
  obtain ⟨hunspent, hmature, hdepth⟩ := WalletView.of_mem_spendableCoins hspend
  obtain ⟨hprev, hlen, hslot, -⟩ := hagree.source hunspent hdepth
  have hi := i_lt_of_mem_unspent hunspent
  refine ⟨(s.view.node.source w coin.hash).1, coin.tx.toCTransaction, ?_⟩
  constructor
  · rw [← hop, ← hprev]
    exact hinputs coin hcoin
  · rw [← hop]
    exact hi
  · rw [← hop, hlen]
    exact hi
  · exact hagree.mature hbest hunspent hmature hdepth c.tx
  · rw [hb.time]
    by_cases hctl : q.setSelected = []
    · exact (hb.times hmod).1 hctl coin hcoin
    · exact h.times hctl coin hspend
  · rw [← hop]
    exact hmod.nonneg coin hunspent
  · rw [← hop]
    exact hslot

theorem Built.accepted_of_acceptable (hlo : 0 ≤ nFeeRet) (hhi : nFeeRet ≤ feeCap)
    (hmoney : (s.view.unspent.map COutput.nValue).sum ≤ maxMoney)
    (hsig : ∀ check : CScriptCheck, check.txTo = c.tx → check.run s.view.env = true)
    (h : s.Acceptable q) : s.view.Accepted w c.tx := by
  have hmin : minTxoutAmount = 1000 := rfl
  have hminfee : minTxFee = 1000 := rfl
  have hmax : maxMoney = 120000000000000 := by decide
  obtain ⟨hnull, hbase, hstake⟩ := hb.not_generated hagree hsend hscripts
  obtain ⟨inputs, hfetch, hinputs⟩ := hb.fetched hagree hbase
  obtain ⟨pindexBest, hbest⟩ := hagree.best
  have hsumpos := SendRequest.requested_pos hsend hamounts
  have hamount := h.amounts
  have hbalance := hb.balance hmod hsend hlo hhi hsumpos.le (by omega)
  have hpaid := outputs_sum hsend hb.outputs
  have hin := hmod.sound.sum_le_of_mem hb.distinct fun coin => hb.mem_unspent
  have hvalues := hb.values hagree hinputs
  have hvout := hb.vout_min hsend hamounts hlo hhi h
  have hnodup : (c.tx.vin.map (·.prevout)).Nodup := hb.inputs ▸ hb.distinct
  have henough : minTxFee ≤ c.nFeeRet := by
    have := hb.enough
    rw [feeFor, getMinFee_size hb.size, hminfee] at this
    omega
  constructor
  · have hclock : (c.tx.nTime : Int) ≤ w.nAdjustedTime := by
      rw [hb.time, hagree.clock]
      exact htime
    refine (checkTransaction_eq_ok hbase hstake hclock).mpr
      ⟨?_, ?_, hb.size.le.trans (by decide), hvout, by omega, hnodup, hnull⟩
    · intro hnil
      rw [hnil] at hvalues
      have : (c.coins.map COutput.nValue).sum = 0 := by rw [← hvalues]; rfl
      omega
    · intro hnil
      rw [hnil, map_nil, sum_nil] at hpaid
      omega
  · obtain ⟨res, hres⟩ := @connectInputs_of s.view.env w
      (s.view.node.connectContext pindexBest c.tx) inputs c.tx s.view.node.chain.db.readOnly
      s.view.node.chain.nBestHeight hbase hstake hsig hnodup
      (fun txin => hb.inputOk hagree hmod hbest hinputs h)
      (by rw [hvalues]; omega) (fun out hout => le_trans (by omega) (hvout out hout))
      (by rw [hvalues]; omega)
    exact ⟨inputs, pindexBest, res, hfetch, hbest, hres⟩

end

/-- What `CreateTransaction` makes is accepted exactly if the condition holds. -/
theorem createTransaction_accepted_iff (hagree : s.view.Agrees w)
    (hnonneg : ∀ out ∈ s.view.unspent, 0 ≤ out.nValue)
    (hmoney : (s.view.unspent.map COutput.nValue).sum ≤ maxMoney)
    (hamounts : ∀ p ∈ q.vecSend, minTxoutAmount ≤ p.2 ∧ p.2 < 2 ^ 63)
    (hscripts : ∀ p ∈ q.vecSend, p.1 ≠ []) (htime : (q.nTime : Int) ≤ s.view.nAdjustedTime)
    (hsig : ∀ check : CScriptCheck, check.txTo = c.tx → check.run s.view.env = true)
    (h : s.createTransaction q r = .ok (some c)) :
    s.view.Accepted w c.tx ↔ s.Acceptable q := by
  have hmin : minTxoutAmount = 1000 := rfl
  have hmod : s.view.Moderate := ⟨hnonneg, hmoney.trans_lt (by decide)⟩
  obtain ⟨-, hsend, k, _, _, ⟨hlo, hhi⟩, hb⟩ := createTransaction_built
    (fun p hp => ⟨lt_of_lt_of_le (by omega) (hamounts p hp).1, (hamounts p hp).2⟩) h
  have hleast : ∀ p ∈ q.vecSend, minTxoutAmount ≤ p.2 := fun p hp => (hamounts p hp).1
  constructor
  · exact hb.acceptable_of_accepted hagree hmod hsend hleast hscripts htime
  · exact hb.accepted_of_acceptable hagree hmod hsend hleast hscripts htime hlo hhi hmoney hsig

end Sender

/-! ## A wallet that agrees with its node -/

def confirmedState (nOutputs : Nat) : ChainState :=
  { sampleState supplyTree with
    pnext := fun h => if h = 1 then some 2 else none
    pindexBest := some 2
    hashBestChain := 2
    nBestHeight := 1
    nBestChainTrust := 2
    db := ⟨(∅ : WriteBatch.Table DbVal).insert (.tx 100)
      ⟨⟨1, 1000, 1081⟩, List.replicate nOutputs CDiskTxPos.null⟩, none⟩ }

def confirmedWorld (tx : CTransaction) : World :=
  { sampleWorld [] with
    nAdjustedTime := sampleTime - 60
    disk := ⟨fun _ _ => none, fun _ pos => if pos = 1081 then some tx else none⟩ }

def confirmedWallet (nTime : Nat) (values : List Int) (hlt : nTime < 2 ^ 32) : WalletView :=
  { sampleWallet nTime values [] [] hlt with
    node := ⟨confirmedState values.length, CTxMemPool.empty⟩
    nAdjustedTime := sampleTime - 60 }

theorem supplyTree_cases {b : CBlockIndex} (h : sampleTree supplyTree b.hashBlock = some b) :
    b = sampleIndex 1 none 0 1 ∨ b = sampleIndex 2 (some 1) 1 2 := by
  simpa [supplyTree] using mem_of_find?_eq_some h

theorem confirmedWallet_agrees {nTime : Nat} {values : List Int} {hlt : nTime < 2 ^ 32}
    (hfits : (sampleCoinRecord 100 nTime values []).serializeSize ≤ maxBlockSize) :
    (confirmedWallet nTime values hlt).Agrees
      (confirmedWorld (sampleCoinRecord 100 nTime values []).toCTransaction) := by
  have hmem : ∀ out ∈ (confirmedWallet nTime values hlt).unspent,
      out.hash = 100 ∧ out.tx = sampleCoinRecord 100 nTime values [] := by
    intro out hout
    obtain ⟨e, he, hmem⟩ := mem_unspent.mp hout
    obtain ⟨hhash, htx, -, -⟩ := mem_outputsOf_all hmem
    obtain rfl := mem_singleton.mp he
    exact ⟨hhash, htx⟩
  have hdepth :
      (confirmedWallet nTime values hlt).depth (sampleCoinRecord 100 nTime values []) = 2 := rfl
  constructor
  · exact show (sampleTree supplyTree).WellFormed from
      BlockMap.wellFormed_of_hashes _ mem_of_sampleTree (by decide +kernel)
  · exact ⟨_, rfl⟩
  · intro a b ha hb _ hpos
    rcases supplyTree_cases ha with rfl | rfl <;> rcases supplyTree_cases hb with rfl | rfl
    · rfl
    · exact absurd hpos (by decide)
    · exact absurd hpos (by decide)
    · rfl
  · rfl
  · intro out hout
    rw [(hmem out hout).2]
    exact hfits
  · intro out hout _
    obtain ⟨hhash, htx⟩ := hmem out hout
    rw [hhash, htx]
    refine ⟨⟨⟨1, 1000, 1081⟩, List.replicate values.length null⟩, ?_, ?_,
      fun _ => rfl, by simp [sampleCoinRecord], ?_, ?_⟩
    · exact Finmap.lookup_insert _
    · show (⟨1, 1000, 1081⟩ : CDiskTxPos) ≠ memoryPool
      decide
    · by_cases hi : out.i < values.length
      · simp [hi, null, isNull]
      · simp [hi, null, isNull]
    · intro pindex hindex
      cases hindex
      exact ⟨rfl, rfl⟩
  · intro out hout hzero
    rw [(hmem out hout).2, hdepth] at hzero
    exact absurd hzero (by decide)

def confirmedSender (nTime : Nat) (values : List Int) (hlt : nTime < 2 ^ 32) (fSplitBlock : Bool) :
    Sender :=
  { sampleSender values with
    view := confirmedWallet nTime values hlt
    fSplitBlock := fSplitBlock }

def confirmedPayment (nAmount : Int) (nSplitBlock : Int) (setSelected : List COutPoint) :
    SendRequest :=
  { samplePayment nAmount with
    nTime := sampleTime - 60
    nSplitBlock := nSplitBlock
    coinControl := some ⟨setSelected, none⟩ }

def confirmedCreated (nTime : Nat) (pieces : List Int) : Created where
  tx := ⟨1, sampleTime - 60, [⟨⟨100, 0⟩, [], uint32Max⟩],
    ⟨5 * coin - pieces.sum - minTxFee, [0x52]⟩ :: pieces.map fun nValue => ⟨nValue, [0x51]⟩, 0⟩
  coins := [⟨100, sampleCoinRecord 100 nTime [5 * coin] [], 0, 2, true⟩]
  nFeeRet := minTxFee

/-- A payment of `MIN_TXOUT_AMOUNT` in two pieces: `CheckTransaction` refuses both of them. -/
theorem small_pieces_refused :
    (confirmedSender 1000 [5 * coin] (by decide) true).view.Agrees
        (confirmedWorld (sampleCoinRecord 100 1000 [5 * coin] []).toCTransaction) ∧
      (∀ p ∈ (confirmedPayment minTxoutAmount 2 []).vecSend, minTxoutAmount ≤ p.2) ∧
      (confirmedSender 1000 [5 * coin] (by decide) true).createTransaction
        (confirmedPayment minTxoutAmount 2 []) SendChance.trivial =
          .ok (some (confirmedCreated 1000 [500, 500])) ∧
      ¬ (confirmedSender 1000 [5 * coin] (by decide) true).view.Accepted
        (confirmedWorld (sampleCoinRecord 100 1000 [5 * coin] []).toCTransaction)
        (confirmedCreated 1000 [500, 500]).tx := by
  refine ⟨confirmedWallet_agrees (by decide), by decide, rfl, ?_⟩
  rintro ⟨hcheck, -⟩
  exact absurd hcheck (by decide +kernel)

theorem createTransaction_accepted_change :
    (confirmedSender 1000 [5 * coin] (by decide) false).view.Accepted
      (confirmedWorld (sampleCoinRecord 100 1000 [5 * coin] []).toCTransaction)
      (confirmedCreated 1000 [coin]).tx := by
  have hok : (confirmedSender 1000 [5 * coin] (by decide) false).createTransaction
      (confirmedPayment coin 1 []) SendChance.trivial =
        .ok (some (confirmedCreated 1000 [coin])) := rfl
  refine (Sender.createTransaction_accepted_iff (confirmedWallet_agrees (by decide))
    ?_ ?_ ?_ ?_ ?_ ?_ hok).mpr ?_
  · decide +kernel
  · decide +kernel
  · decide
  · decide
  · decide
  · intro check _
    rfl
  · refine ⟨by decide, fun h => absurd h (by decide), fun h => absurd rfl h⟩

end HoboNickels

import HoboNickels.Connect
import HoboNickels.IndexSpec

/-!
# What connecting a block does

A successful `ConnectBlock` connects the block's transactions, in the sense of `TxTable`, to the
transaction index, and `DisconnectBlock` undoes them. The loop works on the database with the queued
changes laid over it (`overlay`); this overlay is the abstract table after the transactions done so
far.

Amounts are described by the *tallies* of a block: for each transaction the value of the outputs it
spends, in the state before the block, and of its own outputs. `ConnectBlock` adds up exactly these,
and lets pass what obeys the rules on fees and rewards (`TallyOk`).
-/

namespace HoboNickels

open Fallible WriteBatch List Function ChainState CTransaction
open CTxIndex TxTable CTxDB MapPrevTx CDiskTxPos

def CTransaction.place (env : Env) (tx : CTransaction) (pos : CDiskTxPos) : PlacedTx where
  hash := env.txHash tx
  inputs := tx.spendingInputs.map (·.prevout)
  pos := pos
  nOutputs := tx.vout.length

/-- The transactions of a stored block with their places, the first one at `nTxPos`. -/
def placeTxs (env : Env) (nFile nBlockPos : Nat) : Nat → List CTransaction → List PlacedTx
  | _, [] => []
  | nTxPos, tx :: rest =>
    tx.place env ⟨nFile, nBlockPos, nTxPos⟩
      :: placeTxs env nFile nBlockPos (nTxPos + tx.serializeSize) rest

def CBlock.place (env : Env) (b : CBlock) (pindex : CBlockIndex) : List PlacedTx :=
  placeTxs env pindex.nFile pindex.nBlockPos (firstTxPos pindex.nBlockPos b) b.vtx

variable {env : Env} {tx : CTransaction} {db : CTxDB} {w : World} {c : ConnectContext}
  {inputs : MapPrevTx} {i : Nat} {txin : CTxIn}

theorem mem_placeTxs (env : Env) (f p : Nat) {txs : List CTransaction} (n : Nat)
    (htx : tx ∈ txs) : ∃ x ∈ placeTxs env f p n txs, x.hash = env.txHash tx ∧
      x.inputs = tx.spendingInputs.map (·.prevout) := by
  induction txs generalizing n with
  | nil => cases htx
  | cons tx' rest ih =>
    rcases mem_cons.mp htx with rfl | htx
    · exact ⟨_, mem_cons_self, rfl, rfl⟩
    · obtain ⟨x, hx, hhash⟩ := ih (n + tx'.serializeSize) htx
      exact ⟨x, mem_cons_of_mem _ hx, hhash⟩

theorem pos_of_mem_placeTxs {f p : Nat} {x : PlacedTx} (txs : List CTransaction) :
    ∀ n, x ∈ placeTxs env f p n txs →
      x.pos.nFile = f ∧ x.pos.nBlockPos = p ∧ n ≤ x.pos.nTxPos := by
  induction txs with
  | nil =>
    intro n hx
    cases hx
  | cons tx rest ih =>
    intro n hx
    rcases mem_cons.mp hx with rfl | hx
    · exact ⟨rfl, rfl, le_refl n⟩
    · obtain ⟨hf, hp, hn⟩ := ih _ hx
      exact ⟨hf, hp, le_trans (Nat.le_add_right n _) hn⟩

theorem CBlock.pos_ne_memoryPool {b : CBlock} {pindex : CBlockIndex} :
    ∀ x ∈ b.place env pindex, x.pos ≠ memoryPool := by
  intro x hx hpool
  obtain ⟨-, -, hn⟩ := pos_of_mem_placeTxs _ _ hx
  rw [hpool] at hn
  have hheader : blockHeaderSize = 80 := rfl
  unfold firstTxPos memoryPool at hn
  simp only at hn
  omega

def overlay (db : CTxDB) (changes : QueuedChanges) (h : Uint256) : Option CTxIndex :=
  match changes.lookup h with
  | some t => some t
  | none => db.readTxIndex h

theorem overlay_empty (db : CTxDB) : overlay db ∅ = db.readTxIndex := by
  funext h
  rw [overlay, AList.lookup_empty]

theorem overlay_insert (db : CTxDB) (changes : QueuedChanges) (k : Uint256) (t : CTxIndex)
    (h : Uint256) :
    overlay db (changes.insert k t) h = if h = k then some t else overlay db changes h := by
  unfold overlay
  by_cases hk : h = k
  · subst hk
    rw [AList.lookup_insert, if_pos rfl]
  · rw [AList.lookup_insert_ne hk, if_neg hk]

def Shows (look : Uint256 → Option CTxIndex) (I : TxTable) : Prop := ∀ h, look h = I.lookup h

variable {changes : QueuedChanges} {I : TxTable}

section

variable {c : FetchContext} {inputs' : MapPrevTx} {k : Uint256} {t : CTxIndex} {x : CTransaction}

theorem Shows.insert (hs : Shows (overlay db changes) I) (k : Uint256) (t : CTxIndex) :
    Shows (overlay db (changes.insert k t)) (I.insert k t) := by
  intro h
  rw [overlay_insert]
  by_cases hk : h = k
  · subst hk
    rw [if_pos rfl, Finmap.lookup_insert]
  · rw [if_neg hk, Finmap.lookup_insert_of_ne _ hk]
    exact hs h

/-! ## Inputs -/

def World.prevTx (w : World) (mempool : Uint256 → Option CTransaction) (pos : CDiskTxPos)
    (h : Uint256) : Option CTransaction :=
  if pos = CDiskTxPos.memoryPool then mempool h else w.disk.tx pos.nFile pos.nTxPos

def FetchContext.Found (c : FetchContext) (w : World) (h : Uint256) (t : CTxIndex)
    (txPrev : CTransaction) : Prop :=
  c.readIndex h = some t ∧ w.prevTx c.mempool t.pos h = some txPrev

def FetchContext.AllFound (c : FetchContext) (w : World) (inputs : MapPrevTx) : Prop :=
  ∀ h t txPrev, inputs h = some (t, txPrev) → c.Found w h t txPrev

theorem World.readTx_eq_some {site : ReadSite} {pos : CDiskTxPos}
    (h : w.readTx site pos = some tx) : w.disk.tx pos.nFile pos.nTxPos = some tx := by
  unfold readTx at h
  split at h
  · exact h
  · cases h

/-- What one round enters comes from the index with the disk or the pool, or, for a transaction that
is not to be in a block, from the pool alone. -/
theorem fetchInput_entry (h : fetchInput env w c tx inputs i txin = .ok inputs')
    (hk : inputs' k = some (t, x)) : inputs k = some (t, x) ∨ c.Found w k t x ∨
    ((c.fBlock || c.fMiner) = false ∧ c.readIndex k = none) := by
  have hread : ∀ {t' x'}, c.Found w txin.prevout.hash t' x' →
      update inputs txin.prevout.hash (some (t', x')) k = some (t, x) →
      inputs k = some (t, x) ∨ c.Found w k t x := by
    intro t' x' hfound hk
    obtain ⟨rfl, ⟨⟩⟩ | ⟨-, hk⟩ := update_eq_some hk
    · exact .inr hfound
    · exact .inl hk
  revert h
  fun_cases fetchInput with
  | case1 =>
    rintro ⟨⟩
    exact .inl hk
  | case4 _ _ hnone hqueue =>
    rintro ⟨⟩
    obtain ⟨rfl, -⟩ | ⟨-, hk⟩ := update_eq_some hk
    · exact .inr (.inr ⟨by simpa using hqueue, hnone⟩)
    · exact .inl hk
  | case6 _ _ _ ht hpool _ hx =>
    rintro ⟨⟩
    exact (hread ⟨ht, (if_pos hpool).trans hx⟩ hk).imp_right .inl
  | case8 _ _ _ ht hpool _ hx =>
    rintro ⟨⟩
    exact (hread ⟨ht, (if_neg hpool).trans (World.readTx_eq_some hx)⟩ hk).imp_right .inl
  | _ => nofun

theorem fetchInputsFrom_entry (l : List CTxIn) : ∀ i inputs inputs', fetchInputsFrom env w c tx i l
    inputs = .ok inputs' → inputs' k = some (t, x) → inputs k = some (t, x) ∨ c.Found w k t x ∨
    ((c.fBlock || c.fMiner) = false ∧ c.readIndex k = none) := by
  induction l with
  | nil =>
    intro i inputs inputs' h hk
    cases h
    exact .inl hk
  | cons txin rest ih =>
    intro i inputs inputs' h hk
    obtain ⟨_, h1, h2⟩ := bind_eq_ok.mp h
    exact (ih _ _ _ h2 hk).elim (fetchInput_entry h1) .inr

/-- **FetchInputs.** Every previous transaction it returns was found in the index, and all
referenced outputs exist. -/
theorem fetchInputs_ok (hqueue : (c.fBlock || c.fMiner) = true) (hcb : tx.isCoinBase = false)
    (h : fetchInputs env w c tx = .ok inputs) : c.AllFound w inputs ∧ ∀ txin ∈ tx.vin,
    inputs.inRange txin = true := by
  unfold fetchInputs at h
  rw [hcb] at h
  obtain ⟨_, h1, h⟩ := bind_eq_ok.mp h
  obtain ⟨_, hrange, h⟩ := bind_eq_ok.mp h
  cases h
  constructor
  · intro k t x hk
    obtain hk | hfound | ⟨hnot, -⟩ := fetchInputsFrom_entry _ _ _ _ h1 hk
    · cases hk
    · exact hfound
    · rw [hqueue] at hnot
      cases hnot
  · simpa using hrange

end

theorem checkInput_eq_ok {v v' : Int} (h : checkInput env c inputs tx v txin = .ok v') :
    (∃ txindex txPrev, inputs txin.prevout.hash = some (txindex, txPrev) ∧
      txPrev.nTime ≤ tx.nTime) ∧ v' = v + inputs.valueOf txin ∧ 0 ≤ v' ∧ v' ≤ maxMoney := by
  revert h
  fun_cases checkInput with
  | case1 => nofun
  | case2 txindex txPrev hin =>
    intro h
    simp only [bind_eq_ok, require_eq_ok, Bool.and_eq_true_iff] at h
    obtain ⟨_, -, _, -, _, htime, _, hrange, h⟩ := h
    cases h
    refine ⟨⟨txindex, txPrev, hin, by simpa using htime⟩, ?_, moneyRange_iff.mp hrange.2⟩
    rw [valueOf, outputOf, hin]

theorem foldlM_checkInput_ok (l : List CTxIn) {v' : Int}
    (h : l.foldlM (checkInput env c inputs tx) 0 = .ok v') :
    v' = (l.map inputs.valueOf).sum ∧ 0 ≤ v' ∧ v' ≤ maxMoney := by
  refine foldlM_ok_induct (fun done v => v = (done.map inputs.valueOf).sum ∧ 0 ≤ v ∧ v ≤ maxMoney)
    (fun done txin v v' hv hstep => ?_) l [] 0 v' ⟨rfl, le_rfl, by decide⟩ h
  obtain ⟨-, rfl, hrange⟩ := checkInput_eq_ok hstep
  exact ⟨by simp [hv.1], hrange⟩

/-- One input looks at a null slot and marks it, in the map of previous transactions and, for a
block or a template, in the proposed changes. -/
theorem spendInput_cases {st st' : SpendState} (h : spendInput env c tx st i txin = .ok st') :
    ∃ txindex txPrev, st.inputs txin.prevout.hash = some (txindex, txPrev) ∧
      (txindex.vSpent.getD txin.prevout.n null).isNull = true ∧
      st'.inputs = update st.inputs txin.prevout.hash
        (some (txindex.setSpent txin.prevout.n c.posThisTx, txPrev)) ∧
      st'.mapTestPool = if c.fBlock || c.fMiner then st.mapTestPool.insert txin.prevout.hash
        (txindex.setSpent txin.prevout.n c.posThisTx) else st.mapTestPool := by
  revert h
  fun_cases spendInput with
  | case1 => nofun
  | case2 txindex txPrev hin =>
    intro h
    obtain ⟨_, hnull, h⟩ := bind_eq_ok.mp h
    obtain ⟨_, -, h⟩ := bind_eq_ok.mp h
    cases h
    exact ⟨txindex, txPrev, hin, by simpa using hnull, rfl, rfl⟩

def MapPrevTx.Agrees (inputs : MapPrevTx) (I : TxTable) : Prop :=
  ∀ h t txPrev, inputs h = some (t, txPrev) → I.lookup h = some t

theorem MapPrevTx.inRange_update {h : Uint256} {t t' : CTxIndex} {txPrev : CTransaction}
    (hin : inputs h = some (t, txPrev)) (hlen : t'.vSpent.length = t.vSpent.length) (txin : CTxIn) :
    inRange (update inputs h (some (t', txPrev))) txin
      = inputs.inRange txin := by
  unfold inRange
  by_cases hh : txin.prevout.hash = h
  · rw [hh, update_self, hin]
    simp only [hlen]
  · rw [update_of_ne hh]

/-- **The second loop of ConnectInputs** marks the inputs, distinct and each of them null before. -/
theorem spendInputsFrom_ok (hqueue : (c.fBlock || c.fMiner) = true)
    (hpos : c.posThisTx.isNull = false) (l : List CTxIn) :
    ∀ i st st' (I : TxTable), Shows (overlay db st.mapTestPool) I → I.Canonical →
      st.inputs.Agrees I → (∀ txin ∈ l, st.inputs.inRange txin = true) →
      spendInputsFrom env c tx i l st = .ok st' →
      Shows (overlay db st'.mapTestPool) (markAll c.posThisTx I (l.map (·.prevout))) ∧
        (l.map (·.prevout)).Nodup ∧
        ∀ o ∈ l.map (·.prevout), I.slot o = some null := by
  induction l with
  | nil =>
    intro i st st' I hs _ _ _ h
    cases h
    exact ⟨hs, nodup_nil, by simp⟩
  | cons txin rest ih =>
    intro i st st' I hs hcan hagree hrange h
    obtain ⟨st1, h1, h2⟩ := bind_eq_ok.mp h
    obtain ⟨t, x, hin, hnull, hinputs, hchanges⟩ := spendInput_cases h1
    rw [hqueue, if_pos rfl] at hchanges
    have hlookup : I.lookup txin.prevout.hash = some t := hagree _ _ _ hin
    have hlt : txin.prevout.n < t.vSpent.length := by
      have hr := hrange txin mem_cons_self
      rw [inRange, hin] at hr
      simpa using (Bool.and_eq_true_iff.mp hr).2
    have hslot : I.slot txin.prevout = some null := by
      have hget : I.slot txin.prevout = some (t.vSpent.get ⟨txin.prevout.n, hlt⟩) :=
        slot_eq_some.mpr ⟨t, hlookup, getElem?_eq_getElem hlt⟩
      rw [getD_eq_getElem?_getD, getElem?_eq_getElem hlt] at hnull
      rw [hget, hcan _ _ hget hnull]
    have hmark : I.mark c.posThisTx txin.prevout
        = I.insert txin.prevout.hash (t.setSpent txin.prevout.n c.posThisTx) := by
      rw [mark, hlookup]
    have hagree1 : st1.inputs.Agrees (I.mark c.posThisTx txin.prevout) := by
      intro k t' x' hk
      rw [hinputs] at hk
      rw [hmark]
      obtain ⟨rfl, ⟨⟩⟩ | ⟨hkk, hk⟩ := update_eq_some hk
      · exact Finmap.lookup_insert _
      · rw [Finmap.lookup_insert_of_ne _ hkk]
        exact hagree k t' x' hk
    have hrange1 : ∀ txin' ∈ rest, st1.inputs.inRange txin' = true := by
      intro txin' hin'
      rw [hinputs, inRange_update hin (length_setSpent t _ _)]
      exact hrange txin' (mem_cons_of_mem _ hin')
    have hs1 : Shows (overlay db st1.mapTestPool) (I.mark c.posThisTx txin.prevout) := by
      rw [hchanges, hmark]
      exact hs.insert _ _
    obtain ⟨hshows, hnd, hnulls⟩ := ih _ _ _ _ hs1 (canonical_mark hcan hpos) hagree1 hrange1 h2
    -- the slot just marked is not null, so the input does not come again
    have hfirst : txin.prevout ∉ rest.map (·.prevout) := by
      intro hagain
      have hagain := hnulls _ hagain
      rw [slot_mark, if_pos rfl, hslot, Option.map_some, Option.some.injEq] at hagain
      rw [hagain] at hpos
      cases hpos
    refine ⟨hshows, nodup_cons.mpr ⟨hfirst, hnd⟩, ?_⟩
    intro o ho
    rcases mem_cons.mp ho with rfl | ho
    · exact hslot
    have hne : o ≠ txin.prevout := by
      rintro rfl
      exact hfirst ho
    have := hnulls o ho
    rwa [slot_mark, if_neg hne] at this

/-! ## Rewards and fees -/

theorem checkFee_ok {nValueIn : Int} {u : Unit} (h : checkFee c tx nValueIn = .ok u) :
    ∃ v, tx.getValueOut = some v ∧ v + minTxFee ≤ nValueIn := by
  simp only [checkFee, bind_eq_ok] at h
  obtain ⟨v, hv, _, -, _, -, _, hfee, -⟩ := h
  refine ⟨v, demand_eq_ok.mp hv, ?_⟩
  rw [getMinFee_default, require_eq_ok, Bool.not_eq_true', decide_eq_false_iff_not] at hfee
  omega

theorem CTransaction.getValueOut_of (hmin : ∀ out ∈ tx.vout, 0 ≤ out.nValue)
    (hsum : (tx.vout.map CTxOut.nValue).sum ≤ maxMoney) :
    tx.getValueOut = some (tx.vout.map CTxOut.nValue).sum := by
  have key : ∀ (outs : List CTxOut) (acc : Int), 0 ≤ acc → (∀ out ∈ outs, 0 ≤ out.nValue) →
      acc + (outs.map CTxOut.nValue).sum ≤ maxMoney →
      valueOutFrom acc outs = some (acc + (outs.map CTxOut.nValue).sum) := by
    intro outs
    induction outs with
    | nil => simp [valueOutFrom]
    | cons out outs ih =>
      intro acc hacc hall hle
      simp only [map_cons, sum_cons, mem_cons, forall_eq_or_imp] at hall hle ⊢
      have hnonneg : 0 ≤ (outs.map CTxOut.nValue).sum := sum_nonneg (by simpa using hall.2)
      have hout : moneyRange out.nValue = true := moneyRange_iff.mpr (by omega)
      have hacc' : moneyRange (acc + out.nValue) = true := moneyRange_iff.mpr (by omega)
      rw [valueOutFrom, hout, hacc', ih _ (by omega) hall.2 (by omega), add_assoc]
      rfl
  simpa [getValueOut] using key tx.vout 0 le_rfl hmin (by simpa using hsum)

variable {nBestHeight : Int}

theorem checkStakeReward_ok {nValueIn : Int} {u : Unit}
    (h : checkStakeReward env w db nBestHeight c tx nValueIn = .ok u) :
    ∃ v nCoinAge, tx.getValueOut = some v ∧ getCoinAge env w db nBestHeight tx = some nCoinAge ∧
      v - nValueIn ≤ getProofOfStakeReward env.fTestNet (int64 nCoinAge) c.pindexBlock.nBits
        tx.nTime false := by
  obtain ⟨nCoinAge, hage, h⟩ := bind_eq_ok.mp h
  obtain ⟨v, hv, h⟩ := bind_eq_ok.mp h
  refine ⟨v, nCoinAge, demand_eq_ok.mp hv, demand_eq_ok.mp hage, ?_⟩
  rw [getMinFee_default, require_eq_ok, Bool.not_eq_true', decide_eq_false_iff_not] at h
  omega

variable {checks : List CScriptCheck}

theorem connectInputs_ok {changes' : QueuedChanges} (hcb : tx.isCoinBase = false)
    (h : connectInputs env w db nBestHeight c inputs changes tx = .ok (changes', checks)) :
    ∃ nValueIn st, tx.vin.foldlM (checkInput env c inputs tx) 0 = .ok nValueIn ∧
      spendInputsFrom env c tx 0 tx.vin ⟨inputs, changes, []⟩ = .ok st ∧
      st.mapTestPool = changes' ∧ getValueIn inputs tx = nValueIn ∧
      nValueIn = (tx.vin.map inputs.valueOf).sum ∧
      checkReward env w db nBestHeight c tx nValueIn = .ok () := by
  unfold connectInputs at h
  rw [hcb] at h
  obtain ⟨nValueIn, hvalue, h⟩ := bind_eq_ok.mp h
  obtain ⟨st, hspend, h⟩ := bind_eq_ok.mp h
  obtain ⟨_, hreward, h⟩ := bind_eq_ok.mp h
  cases h
  obtain ⟨hsum, _, _⟩ := foldlM_checkInput_ok _ hvalue
  refine ⟨nValueIn, st, hvalue, hspend, rfl, ?_, hsum, hreward⟩
  -- the sum stays in the money range, so 64 bits hold it
  rw [getValueIn, hcb, ← hsum]
  have hmax : maxMoney = 120000000000000 := by decide
  exact Int.bmod_eq_of_le (by omega) (by omega)

/-! ## One transaction of the loop -/

section Loop

variable {env : Env} {w : World} {c : BlockContext}

def ConnectState.posNext (st : ConnectState) (c : BlockContext) : CDiskTxPos :=
  ⟨c.pindex.nFile, c.pindex.nBlockPos, st.nTxPos⟩

variable {st st' : ConnectState} {tx : CTransaction} {before : List PlacedTx}

theorem connectTx_cases (h : connectTx env w c st tx = .ok st') :
    ∃ nTxValueIn nTxValueOut, tx.getValueOut = some nTxValueOut ∧
      st'.nTxPos = st.nTxPos + tx.serializeSize ∧
      st'.nValueIn = st.nValueIn + nTxValueIn ∧ st'.nValueOut = st.nValueOut + nTxValueOut ∧
      ((tx.isCoinBase = true ∧ nTxValueIn = 0 ∧
          st'.mapQueuedChanges = st.mapQueuedChanges.insert (env.txHash tx)
            (new (st.posNext c) tx.vout.length)) ∨
        (tx.isCoinBase = false ∧ ∃ inputs changes checks,
          fetchInputs env w (c.fetchContext st.mapQueuedChanges) tx = .ok inputs ∧
          nTxValueIn = getValueIn inputs tx ∧
          connectInputs env w c.db c.nBestHeight (c.connectContext env (st.posNext c)) inputs
            st.mapQueuedChanges tx = .ok (changes, checks) ∧
          st'.mapQueuedChanges = changes.insert (env.txHash tx)
            (new (st.posNext c) tx.vout.length))) := by
  obtain ⟨_, -, h⟩ := bind_eq_ok.mp h
  obtain ⟨_, -, h⟩ := bind_eq_ok.mp h
  obtain ⟨_, hvalues, h⟩ := bind_eq_ok.mp h
  cases h
  unfold connectTxValues at hvalues
  split at hvalues
  next hcb =>
    obtain ⟨v, hv, hvalues⟩ := bind_eq_ok.mp hvalues
    cases hvalues
    exact ⟨0, v, demand_eq_ok.mp hv, rfl, (add_zero _).symm, rfl, .inl ⟨hcb, rfl, rfl⟩⟩
  next hcb =>
    obtain ⟨inputs, hfetch, hvalues⟩ := bind_eq_ok.mp hvalues
    obtain ⟨_, -, hvalues⟩ := bind_eq_ok.mp hvalues
    obtain ⟨v, hv, hvalues⟩ := bind_eq_ok.mp hvalues
    obtain ⟨⟨changes, checks⟩, hconnect, hvalues⟩ := bind_eq_ok.mp hvalues
    cases hvalues
    exact ⟨getValueIn inputs tx, v, demand_eq_ok.mp hv, rfl, rfl, rfl,
      .inr ⟨by simpa using hcb, inputs, changes, checks, hfetch, rfl, hconnect, rfl⟩⟩

/-- The id of the transaction is not in the table, or an input of it is spent there already. -/
def CTransaction.NewTo (env : Env) (tx : CTransaction) (I : TxTable) : Prop :=
  I.lookup (env.txHash tx) = none ∨ ∃ o ∈ tx.spendingInputs.map (·.prevout), I.Taken o

/-- **FetchInputs and ConnectInputs** connect a transaction that is not a coinbase to the abstract
table. -/
theorem connectInputs_connect {fc : FetchContext}
    {cc : ConnectContext} (hfetch : fetchInputs env w fc tx = .ok inputs)
    (hconnect : connectInputs env w db nBestHeight cc inputs fc.mapTestPool tx
      = .ok (changes, checks))
    (hfc : (fc.fBlock || fc.fMiner) = true) (hcc : (cc.fBlock || cc.fMiner) = true)
    (hpos : cc.posThisTx.isNull = false) (hcb : tx.isCoinBase = false) (hfresh : tx.NewTo env I)
    (hs : Shows (overlay fc.db fc.mapTestPool) I) (hcan : I.Canonical) :
    ∃ J, I.connect (tx.place env cc.posThisTx) = some J ∧
      Shows (overlay fc.db (changes.insert (env.txHash tx)
        (new cc.posThisTx tx.vout.length))) J := by
  have hinputs : (tx.place env cc.posThisTx).inputs = tx.vin.map (·.prevout) := by
    simp [place, spendingInputs, hcb]
  obtain ⟨hfound, hrange⟩ := fetchInputs_ok hfc hcb hfetch
  obtain ⟨_, st1, -, hspend, hchanges, -, -, -⟩ := connectInputs_ok hcb hconnect
  have hagree : inputs.Agrees I := by
    intro k e x hk
    have hread : fc.readIndex k = overlay fc.db fc.mapTestPool k := by
      rw [FetchContext.readIndex, if_pos hfc]
      rfl
    rw [← hs k, ← hread]
    exact (hfound k e x hk).1
  obtain ⟨hshows, hnd, hnulls⟩ := spendInputsFrom_ok hcc hpos tx.vin 0
    ⟨inputs, fc.mapTestPool, []⟩ st1 I hs hcan hagree hrange hspend
  have hfresh : I.lookup (env.txHash tx) = none := by
    refine hfresh.resolve_right ?_
    rintro ⟨o, ho, p, hp, hpn⟩
    rw [spendingInputs, if_neg (by simp [hcb])] at ho
    rw [hnulls o ho] at hp
    cases hp
    cases hpn
  refine ⟨I.apply (tx.place env cc.posThisTx), ?_, ?_⟩
  · refine connect_eq_some.mpr ⟨⟨hfresh, hpos, ?_, ?_⟩, rfl⟩
    · rw [hinputs]
      exact hnd
    · rw [hinputs]
      exact hnulls
  · rw [apply, hinputs, ← hchanges]
    exact hshows.insert _ _

/-- **One transaction.** A round of the loop connects the transaction, at its place, to the
abstract table. -/
theorem connectTx_connect (h : connectTx env w c st tx = .ok st')
    (hfile : (st.posNext c).isNull = false) (hfresh : tx.NewTo env I)
    (hs : Shows (overlay c.db st.mapQueuedChanges) I) (hcan : I.Canonical) :
    ∃ J, I.connect (tx.place env (st.posNext c)) = some J ∧
      Shows (overlay c.db st'.mapQueuedChanges) J := by
  obtain ⟨_, _, -, -, -, -, hcases⟩ := connectTx_cases h
  rcases hcases with ⟨hcb, -, hqueue⟩ | ⟨hcb, inputs, _, _, hfetch, -, hconnect, hqueue⟩
  · have hinputs : (tx.place env (st.posNext c)).inputs = [] := by
      simp [place, spendingInputs, hcb]
    have hfresh : I.lookup (env.txHash tx) = none := by
      simpa [NewTo, spendingInputs, hcb] using hfresh
    refine ⟨I.apply (tx.place env (st.posNext c)), ?_, ?_⟩
    · refine connect_eq_some.mpr ⟨⟨hfresh, hfile, ?_, ?_⟩, rfl⟩
      · rw [hinputs]
        exact nodup_nil
      · rw [hinputs]
        simp
    · rw [hqueue, apply, hinputs]
      exact hs.insert _ _
  · rw [hqueue]
    exact connectInputs_connect hfetch hconnect rfl rfl hfile hcb hfresh hs hcan

/-- **The loop** connects the transactions of a block, in order and each at its place, to the
abstract table. -/
theorem foldlM_connectTx_connect (txs : List CTransaction)
    (hfile : ∀ st : ConnectState, (st.posNext c).isNull = false) (st st' : ConnectState)
    (I : TxTable) (h : txs.foldlM (connectTx env w c) st = .ok st')
    (hs : Shows (overlay c.db st.mapQueuedChanges) I) (hcan : I.Canonical)
    (hfresh : (∀ tx ∈ txs, tx.NewTo env I)) (hids : (txs.map env.txHash).Nodup) :
    ∃ J, I.connectAll (placeTxs env c.pindex.nFile c.pindex.nBlockPos st.nTxPos txs) = some J ∧
      Shows (overlay c.db st'.mapQueuedChanges) J := by
  induction txs generalizing st st' I with
  | nil =>
    cases h
    exact ⟨I, rfl, hs⟩
  | cons tx rest ih =>
    obtain ⟨st1, h1, h2⟩ := bind_eq_ok.mp h
    rw [map_cons, nodup_cons] at hids
    obtain ⟨I1, hI1, hs1⟩ := connectTx_connect h1 (hfile st) (hfresh tx mem_cons_self) hs hcan
    obtain ⟨_, _, -, hpos, -⟩ := connectTx_cases h1
    have hfresh1 : ∀ tx' ∈ rest, tx'.NewTo env I1 := by
      intro tx' hin
      rcases hfresh tx' (mem_cons_of_mem tx hin) with hnone | ⟨o, ho, htaken⟩
      · refine .inl ?_
        rw [← Option.not_isSome_iff_eq_none, isSome_lookup_connect hI1, hnone]
        rintro (hsome | heq)
        · cases hsome
        apply hids.1
        have heq : env.txHash tx' = env.txHash tx := heq
        rw [← heq]
        exact mem_map_of_mem hin
      · exact .inr ⟨o, ho, (taken_connect hI1 o).mpr (.inl htaken)⟩
    obtain ⟨J, hJ, hsJ⟩ := ih st1 st' I1 h2 hs1 (canonical_connect hI1 hcan) hfresh1 hids.2
    rw [hpos] at hJ
    exact ⟨J, connectAll_cons.mpr ⟨I1, hI1, hJ⟩, hsJ⟩

/-! ## Tallies -/

/-- The place of transaction `h` after the transactions `before` of the block: one of them, or
else what the index says. -/
def prevPos (db : CTxDB) (before : List PlacedTx) (h : Uint256) : Option CDiskTxPos :=
  match before.reverse.find? (fun x => x.hash == h) with
  | some x => some x.pos
  | none => (db.readTxIndex h).map CTxIndex.pos

def BlockContext.inputValue (c : BlockContext) (w : World) (before : List PlacedTx)
    (txin : CTxIn) : Int :=
  ((prevPos c.db before txin.prevout.hash).bind (fun pos =>
      w.prevTx c.mempool pos txin.prevout.hash)).elim 0
    (fun txPrev => (txPrev.vout.getD txin.prevout.n default).nValue)

structure TxTally where
  tx : CTransaction
  nTxValueIn : Int
  nTxValueOut : Int

def BlockContext.tallies (c : BlockContext) (env : Env) (w : World) :
    List PlacedTx → Nat → List CTransaction → List TxTally
  | _, _, [] => []
  | before, nTxPos, tx :: rest =>
    ⟨tx, (tx.spendingInputs.map (c.inputValue w before)).sum, (tx.vout.map (·.nValue)).sum⟩
      :: c.tallies env w
        (before ++ [tx.place env ⟨c.pindex.nFile, c.pindex.nBlockPos, nTxPos⟩])
        (nTxPos + tx.serializeSize) rest

structure TallyOk (env : Env) (w : World) (c : BlockContext) (t : TxTally) : Prop where
  out : t.tx.getValueOut = some t.nTxValueOut
  coinbase : t.tx.isCoinBase = true → t.nTxValueIn = 0
  fee : t.tx.isCoinBase = false → t.tx.isCoinStake = false →
    t.nTxValueOut + minTxFee ≤ t.nTxValueIn
  stake : t.tx.isCoinBase = false → t.tx.isCoinStake = true →
    ∃ nCoinAge, getCoinAge env w c.db c.nBestHeight t.tx = some nCoinAge ∧
      t.nTxValueOut - t.nTxValueIn
        ≤ getProofOfStakeReward env.fTestNet (int64 nCoinAge) c.pindex.nBits t.tx.nTime false

def ConnectState.PlacesAfter (st : ConnectState) (c : BlockContext) (before : List PlacedTx) :
    Prop :=
  ∀ h, (overlay c.db st.mapQueuedChanges h).map CTxIndex.pos = prevPos c.db before h

theorem prevPos_append (db : CTxDB) (before : List PlacedTx) (x : PlacedTx) (h : Uint256) :
    prevPos db (before ++ [x]) h = if h = x.hash then some x.pos else prevPos db before h := by
  unfold prevPos
  rw [reverse_append, reverse_singleton, singleton_append, find?_cons]
  by_cases hx : h = x.hash
  · rw [if_pos hx, hx, beq_self_eq_true]
  have hne : (x.hash == h) = false := by
    rw [beq_eq_false_iff_ne]
    exact Ne.symm hx
  rw [if_neg hx, hne]

theorem spendInputsFrom_pos {cc : ConnectContext} (db : CTxDB)
    (hqueue : (cc.fBlock || cc.fMiner) = true) (l : List CTxIn) :
    ∀ i st st', (∀ h t x, st.inputs h = some (t, x) →
        (overlay db st.mapTestPool h).map pos = some t.pos) →
      spendInputsFrom env cc tx i l st = .ok st' →
      ∀ h, (overlay db st'.mapTestPool h).map pos
        = (overlay db st.mapTestPool h).map pos := by
  induction l with
  | nil =>
    intro i st st' _ h k
    cases h
    rfl
  | cons txin rest ih =>
    intro i st st' hagree h k
    obtain ⟨st1, h1, h2⟩ := bind_eq_ok.mp h
    obtain ⟨t, x, hin, -, hinputs, hchanges⟩ := spendInput_cases h1
    rw [hqueue, if_pos rfl] at hchanges
    have hstep : ∀ k, (overlay db st1.mapTestPool k).map pos
        = (overlay db st.mapTestPool k).map pos := by
      intro k
      rw [hchanges, overlay_insert]
      by_cases hk : k = txin.prevout.hash
      · rw [if_pos hk, hk, hagree _ _ _ hin]
        rfl
      · rw [if_neg hk]
    rw [ih _ _ _ ?_ h2 k, hstep k]
    intro k' t' x' hk'
    rw [hstep k']
    rw [hinputs] at hk'
    obtain ⟨rfl, ⟨⟩⟩ | ⟨-, hk'⟩ := update_eq_some hk'
    · rw [hagree _ _ _ hin, pos_setSpent]
    · exact hagree _ _ _ hk'

theorem sum_valueOf_eq {l : List CTxIn} (hplaces : st.PlacesAfter c before)
    (hfound : (c.fetchContext st.mapQueuedChanges).AllFound w inputs)
    (hrange : ∀ txin ∈ l, inputs.inRange txin = true) :
    (l.map inputs.valueOf).sum = (l.map (c.inputValue w before)).sum := by
  congr 1
  apply map_congr_left
  intro txin hin
  have hr := hrange txin hin
  unfold inRange at hr
  split at hr
  next t txPrev hlook =>
    obtain ⟨hread, hprev⟩ := hfound _ _ _ hlook
    have hpos : prevPos c.db before txin.prevout.hash = some t.pos := by
      have hread : overlay c.db st.mapQueuedChanges txin.prevout.hash = some t := hread
      rw [← hplaces, hread]
      rfl
    have hprev : w.prevTx c.mempool t.pos txin.prevout.hash = some txPrev := hprev
    rw [valueOf, outputOf, hlook, BlockContext.inputValue, hpos, Option.bind_some, hprev]
    rfl
  · cases hr

theorem ConnectState.PlacesAfter.insert {p : CDiskTxPos}
    (hplaces : ∀ k, (overlay c.db changes k).map pos = prevPos c.db before k)
    (hqueue : st'.mapQueuedChanges = changes.insert (env.txHash tx) (new p tx.vout.length)) :
    st'.PlacesAfter c (before ++ [tx.place env p]) := by
  intro k
  rw [hqueue, overlay_insert, prevPos_append, ← hplaces k]
  split <;> rename_i hk
  · exact (if_pos hk).symm
  · exact (if_neg hk).symm

theorem connectTx_tally (hplaces : st.PlacesAfter c before)
    (h : connectTx env w c st tx = .ok st') :
    ∃ t : TxTally, t = ⟨tx, (tx.spendingInputs.map (c.inputValue w before)).sum,
        (tx.vout.map (·.nValue)).sum⟩ ∧
      TallyOk env w c t ∧ st'.nValueIn = st.nValueIn + t.nTxValueIn ∧
      st'.nValueOut = st.nValueOut + t.nTxValueOut ∧
      st'.PlacesAfter c (before ++ [tx.place env (st.posNext c)]) := by
  obtain ⟨vIn, vOut, hout, -, hin', hout', hcases⟩ := connectTx_cases h
  have hsum : vOut = (tx.vout.map (·.nValue)).sum := getValueOut_eq hout
  refine ⟨_, rfl, ?_⟩
  rcases hcases with ⟨hcb, hzero, hqueue⟩ | ⟨hcb, _, _, _, hfetch, hvin, hconnect,
    hqueue⟩
  · have hspend : tx.spendingInputs = [] := by rw [spendingInputs, if_pos hcb]
    rw [hspend]
    refine ⟨?_, ?_, ?_, ?_⟩
    · exact
        { out := hsum ▸ hout
          coinbase := fun _ => rfl
          fee := fun hncb => absurd hcb (by simp [hncb])
          stake := fun hncb => absurd hcb (by simp [hncb]) }
    · rw [hin', hzero]
      rfl
    · rw [hout', hsum]
    · exact .insert hplaces hqueue
  · have hspend : tx.spendingInputs = tx.vin := by
      rw [spendingInputs, if_neg (by simp [hcb])]
    obtain ⟨hfound, hrange⟩ := fetchInputs_ok rfl hcb hfetch
    obtain ⟨nValueIn, st1, -, hloop, hchanges, hvalue, hvsum, hreward⟩ :=
      connectInputs_ok hcb hconnect
    have htally : vIn = (tx.vin.map (c.inputValue w before)).sum := by
      rw [hvin, hvalue, hvsum]
      exact sum_valueOf_eq hplaces hfound hrange
    have hvin' : vIn = nValueIn := hvin.trans hvalue
    rw [hspend]
    unfold checkReward at hreward
    refine ⟨?_, ?_, ?_, ?_⟩
    · refine
        { out := hsum ▸ hout
          coinbase := fun hcb' => absurd hcb' (by simp [hcb])
          fee := ?_
          stake := ?_ }
      · intro _ hstake
        rw [hstake] at hreward
        obtain ⟨v, hv, hfee⟩ := checkFee_ok hreward
        rw [hout] at hv
        cases hv
        rw [← htally, ← hsum, hvin']
        exact hfee
      · intro _ hstake
        rw [hstake] at hreward
        obtain ⟨v, nCoinAge, hv, hage, hle⟩ := checkStakeReward_ok hreward
        rw [hout] at hv
        cases hv
        refine ⟨nCoinAge, hage, ?_⟩
        rw [← htally, ← hsum, hvin']
        exact hle
    · rw [hin', htally]
    · rw [hout', hsum]
    · have hmoved := spendInputsFrom_pos c.db rfl tx.vin 0 _ st1 ?_ hloop
      · exact .insert (fun k => (hchanges ▸ hmoved k).trans (hplaces k)) hqueue
      · intro k t x hk
        have hread : overlay c.db st.mapQueuedChanges k = some t := (hfound k t x hk).1
        rw [hread]
        rfl

/-- **The loop of ConnectBlock** adds up the tallies, and each of them obeys the rules. -/
theorem foldlM_connectTx_tallies (txs : List CTransaction) (before : List PlacedTx)
    (st st' : ConnectState) (hplaces : st.PlacesAfter c before)
    (h : txs.foldlM (connectTx env w c) st = .ok st') :
    (∀ t ∈ c.tallies env w before st.nTxPos txs, TallyOk env w c t) ∧ st'.nValueIn =
      st.nValueIn + ((c.tallies env w before st.nTxPos txs).map TxTally.nTxValueIn).sum ∧
      st'.nValueOut =
      st.nValueOut + ((c.tallies env w before st.nTxPos txs).map TxTally.nTxValueOut).sum := by
  induction txs generalizing before st st' with
  | nil =>
    cases h
    simp [BlockContext.tallies]
  | cons tx rest ih =>
    obtain ⟨_, h1, h2⟩ := bind_eq_ok.mp h
    obtain ⟨_, _, -, hpos, -⟩ := connectTx_cases h1
    obtain ⟨t, ht, hok, hin, hout, hplaces1⟩ := connectTx_tally hplaces h1
    obtain ⟨hoks, hins, houts⟩ := ih _ _ _ hplaces1 h2
    rw [hpos] at hoks hins houts
    have hcons : c.tallies env w before st.nTxPos (tx :: rest)
        = t :: c.tallies env w (before ++ [tx.place env (st.posNext c)])
            (st.nTxPos + tx.serializeSize) rest := by
      rw [ht]
      rfl
    rw [hcons]
    refine ⟨?_, ?_, ?_⟩
    · intro t' ht'
      rcases mem_cons.mp ht' with rfl | ht'
      · exact hok
      · exact hoks t' ht'
    · rw [hins, hin, map_cons, sum_cons, add_assoc]
    · rw [houts, hout, map_cons, sum_cons, add_assoc]

end Loop

/-! ## Writing the changes -/

theorem readTxIndex_foldl_update (l : List (Σ _ : Uint256, CTxIndex)) (db : CTxDB)
    (hnd : (l.map Sigma.fst).Nodup) :
    ∀ h, (l.foldl (fun db e => updateTxIndex db e.1 e.2) db).readTxIndex h =
      match dlookup h l with | some t => some t | none => db.readTxIndex h := by
  induction l generalizing db with
  | nil =>
    intro h
    rfl
  | cons e l ih =>
    intro h
    obtain ⟨k, t⟩ := e
    rw [map_cons, nodup_cons] at hnd
    rw [foldl_cons, ih _ hnd.2, readTxIndex_updateTxIndex]
    by_cases hk : h = k
    · subst hk
      have habsent : dlookup h l = none := by
        rw [dlookup_eq_none]
        exact hnd.1
      rw [habsent, dlookup_cons_eq]
      exact if_pos rfl
    · rw [dlookup_cons_ne _ _ hk, if_neg hk]

variable (s : ChainState)

theorem readTxIndex_writePrevIndex (db : CTxDB) (pindex : CBlockIndex)
    (n h : Uint256) : (s.writePrevIndex db pindex n).readTxIndex h = db.readTxIndex h := by
  unfold writePrevIndex
  split
  · rfl
  · exact readTxIndex_writeBlockIndex _ _ _

theorem inTxn_writePrevIndex (db : CTxDB) (pindex : CBlockIndex) (n : Uint256) :
    db.InTxn (s.writePrevIndex db pindex n) := by
  unfold writePrevIndex
  split
  · exact InTxn.refl db
  · exact inTxn_doOp db _

theorem readTxIndex_finishConnect (pindex : CBlockIndex) (st : ConnectState) :
    (s.finishConnect pindex st).db.readTxIndex = overlay s.db st.mapQueuedChanges := by
  funext h
  unfold finishConnect CTxDB.writeQueued
  rw [readTxIndex_writePrevIndex, readTxIndex_foldl_update _ _ st.mapQueuedChanges.nodupKeys,
    readTxIndex_writeBlockIndex]
  rfl

theorem inTxn_finishConnect (pindex : CBlockIndex) (st : ConnectState) :
    s.db.InTxn (s.finishConnect pindex st).db := by
  refine InTxn.trans ?_ (inTxn_writePrevIndex _ _ _ _)
  exact foldlRecOn (motive := s.db.InTxn) _ _ (inTxn_doOp s.db _)
    fun db h _ _ => h.trans (inTxn_doOp db _)

/-! ## ConnectBlock -/

variable {pindex : CBlockIndex} {s' : ChainState} {env : Env} {w : World}
  {mempool : Uint256 → Option CTransaction} {b : CBlock} {I : TxTable}

variable {s : ChainState}

theorem connectBlock_ok (h : s.connectBlock env w mempool b pindex = .ok s') :
    ∃ st, CheckedBlock env b ∧
      b.vtx.foldlM (connectTx env w (s.blockContext env w mempool pindex))
        (b.initialConnectState pindex) = .ok st ∧
      s' = s.finishConnect pindex st := by
  obtain ⟨_, hcheck, h⟩ := bind_eq_ok.mp h
  obtain ⟨st, hloop, h⟩ := bind_eq_ok.mp h
  obtain ⟨_, -, h⟩ := bind_eq_ok.mp h
  cases h
  exact ⟨st, CBlock.checkBlock_ok hcheck, hloop, rfl⟩

structure SameMemory (s s' : ChainState) : Prop where
  mapBlockIndex : s'.mapBlockIndex = s.mapBlockIndex
  pindexGenesisBlock : s'.pindexGenesisBlock = s.pindexGenesisBlock
  pindexBest : s'.pindexBest = s.pindexBest
  hashBestChain : s'.hashBestChain = s.hashBestChain
  nBestHeight : s'.nBestHeight = s.nBestHeight
  nBestChainTrust : s'.nBestChainTrust = s.nBestChainTrust

structure SameChain (s s' : ChainState) : Prop extends memory : SameMemory s s' where
  pnext : s'.pnext = s.pnext

variable {s₁ s₂ s₃ : ChainState}

theorem SameMemory.refl (s : ChainState) : SameMemory s s := ⟨rfl, rfl, rfl, rfl, rfl, rfl⟩

theorem SameMemory.trans (h₁ : SameMemory s₁ s₂) (h₂ : SameMemory s₂ s₃) : SameMemory s₁ s₃ :=
  ⟨h₂.1.trans h₁.1, h₂.2.trans h₁.2, h₂.3.trans h₁.3, h₂.4.trans h₁.4, h₂.5.trans h₁.5,
    h₂.6.trans h₁.6⟩

theorem SameChain.refl : SameChain s s := ⟨.refl s, rfl⟩

theorem SameChain.trans (h₁ : SameChain s₁ s₂) (h₂ : SameChain s₂ s₃) : SameChain s₁ s₃ :=
  ⟨h₁.memory.trans h₂.memory, h₂.pnext.trans h₁.pnext⟩

/-- **ConnectBlock** connects the transactions of the block to the table that the database
shows, provided that they are new to it. -/
theorem connectBlock_connects (h : s.connectBlock env w mempool b pindex = .ok s')
    (hfile : openBlockFile pindex.nFile = true) (hs : Shows s.db.readTxIndex I)
    (hcan : I.Canonical) (hfresh : ∀ tx ∈ b.vtx, tx.NewTo env I) :
    ∃ J, I.connectAll (b.place env pindex) = some J ∧ Shows s'.db.readTxIndex J := by
  obtain ⟨st, hchecked, hloop, rfl⟩ := connectBlock_ok h
  have hnull : ∀ st : ConnectState,
      (st.posNext (s.blockContext env w mempool pindex)).isNull = false := by
    intro st
    exact isNull_of_openBlockFile hfile
  have hstart : Shows (overlay (s.blockContext env w mempool pindex).db
      (b.initialConnectState pindex).mapQueuedChanges) I := by
    exact hs
  obtain ⟨J, hJ, hsJ⟩ := foldlM_connectTx_connect b.vtx hnull _ _ I hloop hstart hcan hfresh
    hchecked.distinct_ids
  refine ⟨J, hJ, ?_⟩
  rw [readTxIndex_finishConnect]
  exact hsJ

def ChainState.tallies (env : Env) (w : World)
    (mempool : Uint256 → Option CTransaction) (b : CBlock) (pindex : CBlockIndex) :
    List TxTally :=
  (s.blockContext env w mempool pindex).tallies env w [] (firstTxPos pindex.nBlockPos b) b.vtx

def issued (tallies : List TxTally) : Int :=
  (tallies.map TxTally.nTxValueOut).sum - (tallies.map TxTally.nTxValueIn).sum

/-- The tallies of a connected block obey the rules, and the money supply grows by what they
issue. -/
theorem connectBlock_tallies (h : s.connectBlock env w mempool b pindex = .ok s') :
    (∀ t ∈ s.tallies env w mempool b pindex,
        TallyOk env w (s.blockContext env w mempool pindex) t) ∧
      s'.nMoneySupply = update s.nMoneySupply pindex.hashBlock
        (int64 (s.prevMoneySupply pindex + issued (s.tallies env w mempool b pindex))) := by
  obtain ⟨st, -, hloop, rfl⟩ := connectBlock_ok h
  have hplaces : (b.initialConnectState pindex).PlacesAfter
      (s.blockContext env w mempool pindex) [] := by
    intro k
    change (overlay s.db ∅ k).map pos = (s.db.readTxIndex k).map pos
    rw [overlay_empty]
  obtain ⟨hok, hin, hout⟩ := foldlM_connectTx_tallies b.vtx [] _ st hplaces hloop
  refine ⟨hok, ?_⟩
  have hsupply : s.prevMoneySupply pindex + st.nValueOut - st.nValueIn
      = s.prevMoneySupply pindex + issued (s.tallies env w mempool b pindex) := by
    have hout : st.nValueOut
        = 0 + ((s.tallies env w mempool b pindex).map TxTally.nTxValueOut).sum := hout
    have hin : st.nValueIn
        = 0 + ((s.tallies env w mempool b pindex).map TxTally.nTxValueIn).sum := hin
    unfold issued
    omega
  change update s.nMoneySupply pindex.hashBlock
    (int64 (s.prevMoneySupply pindex + st.nValueOut - st.nValueIn)) = _
  rw [hsupply]

theorem connectBlock_frame (h : s.connectBlock env w mempool b pindex = .ok s') :
    SameChain s s' ∧ s.db.InTxn s'.db := by
  obtain ⟨st, -, -, rfl⟩ := connectBlock_ok h
  exact ⟨⟨⟨rfl, rfl, rfl, rfl, rfl, rfl⟩, rfl⟩, inTxn_finishConnect s pindex st⟩

/-! ## DisconnectBlock -/

theorem inTxn_foldlM {α : Type} {f : CTxDB → α → Except Fail CTxDB}
    (step : ∀ db a db', f db a = .ok db' → db.InTxn db') (l : List α) (db db' : CTxDB)
    (h : l.foldlM f db = .ok db') : db.InTxn db' :=
  foldlM_ok_induct (fun _ => db.InTxn) (fun _ a s s' hs hstep => hs.trans (step s a s' hstep))
    l [] db db' (.refl db) h

theorem inTxn_disconnectInputs (env : Env) (db : CTxDB) (tx : CTransaction) (db' : CTxDB)
    (h : disconnectInputs env db tx = .ok db') : db.InTxn db' := by
  obtain ⟨db1, h1, h⟩ := bind_eq_ok.mp h
  cases h
  refine (inTxn_foldlM ?_ _ _ _ h1).trans (inTxn_doOp db1 _)
  intro db txin db' h
  obtain ⟨t, -, h⟩ := bind_eq_ok.mp h
  obtain ⟨_, -, h⟩ := bind_eq_ok.mp h
  cases h
  exact inTxn_doOp db _

theorem disconnectBlock_frame (h : s.disconnectBlock env b pindex = .ok s') :
    SameChain s s' ∧ s.db.InTxn s'.db ∧ s'.nMoneySupply = s.nMoneySupply := by
  obtain ⟨db, hloop, h⟩ := bind_eq_ok.mp h
  cases h
  refine ⟨⟨⟨rfl, rfl, rfl, rfl, rfl, rfl⟩, rfl⟩, ?_, rfl⟩
  refine InTxn.trans ?_ (inTxn_writePrevIndex s db pindex 0)
  exact inTxn_foldlM (inTxn_disconnectInputs env) _ _ _ hloop

theorem disconnectInput_ok {db' : CTxDB}
    (hs : Shows db.readTxIndex I) (h : disconnectInput db txin = .ok db') :
    Shows db'.readTxIndex (I.mark null txin.prevout) := by
  obtain ⟨t, ht, h⟩ := bind_eq_ok.mp h
  obtain ⟨_, -, h⟩ := bind_eq_ok.mp h
  cases h
  have hlookup : I.lookup txin.prevout.hash = some t := (hs _).symm.trans (demand_eq_ok.mp ht)
  intro k
  rw [readTxIndex_updateTxIndex, lookup_mark]
  by_cases hk : k = txin.prevout.hash
  · subst hk
    rw [if_pos rfl, if_pos rfl, hlookup]
    rfl
  · rw [if_neg hk, if_neg hk]
    exact hs k

theorem disconnectInputs_ok {db' : CTxDB}
    (hs : Shows db.readTxIndex I) (h : disconnectInputs env db tx = .ok db')
    (pos : CDiskTxPos) : Shows db'.readTxIndex (I.undo (tx.place env pos)) := by
  obtain ⟨_, h1, h⟩ := bind_eq_ok.mp h
  cases h
  have hs1 := foldlM_ok_induct (fun done db => Shows db.readTxIndex (I.markAll null
    (done.map (·.prevout)))) (fun done txin s s' hs hstep => by
      simpa [markAll] using disconnectInput_ok hs hstep) _ [] db _ hs h1
  intro k
  rw [readTxIndex_eraseTxIndex]
  unfold undo
  by_cases hk : k = env.txHash tx
  · subst hk
    have hhash : (tx.place env pos).hash = env.txHash tx := rfl
    rw [if_pos rfl, hhash, Finmap.lookup_erase]
  · rw [if_neg hk, hs1 k]
    exact (Finmap.lookup_erase_ne hk).symm

theorem foldlM_disconnectInputs_ok {f p : Nat} (txs : List CTransaction) (n : Nat)
    (db db' : CTxDB) (I : TxTable) (hs : Shows db.readTxIndex I)
    (h : txs.reverse.foldlM (disconnectInputs env) db = .ok db') :
    Shows db'.readTxIndex (I.undoAll (placeTxs env f p n txs)) := by
  induction txs generalizing n db db' I with
  | nil =>
    cases h
    exact hs
  | cons tx rest ih =>
    rw [reverse_cons, foldlM_append] at h
    obtain ⟨db1, h1, h2⟩ := bind_eq_ok.mp h
    obtain ⟨_, h2, h3⟩ := bind_eq_ok.mp h2
    cases h3
    have hs1 := ih (n + tx.serializeSize) db db1 I hs h1
    have hback : I.undoAll (placeTxs env f p n (tx :: rest))
        = (I.undoAll (placeTxs env f p (n + tx.serializeSize) rest)).undo
            (tx.place env ⟨f, p, n⟩) := by
      simp [undoAll, placeTxs, foldl_append]
    rw [hback]
    exact disconnectInputs_ok hs1 h2 ⟨f, p, n⟩

/-- **DisconnectBlock** undoes the transactions of the block. -/
theorem disconnectBlock_undoes (h : s.disconnectBlock env b pindex = .ok s')
    (hs : Shows s.db.readTxIndex I) :
    Shows s'.db.readTxIndex (I.undoAll (b.place env pindex)) := by
  obtain ⟨db, hloop, h⟩ := bind_eq_ok.mp h
  cases h
  have hshows := foldlM_disconnectInputs_ok (f := pindex.nFile) (p := pindex.nBlockPos) b.vtx
    (firstTxPos pindex.nBlockPos b) _ _ _ hs hloop
  intro k
  rw [readTxIndex_writePrevIndex]
  exact hshows k

end HoboNickels

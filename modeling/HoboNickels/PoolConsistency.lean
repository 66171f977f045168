import HoboNickels.Agreement

/-!
# The memory pool and the main chain

No pooled transaction should spend an output that the main chain has spent. One enters with its
inputs unspent (`acceptToMemoryPool_unspent`), and those of a connected block leave, but by their
ids: a pooled transaction that spends what another one of the block spends stays. So the pool is
consistent over every run in which no block is connected that conflicts with it or with what the
reorganisation has put back into it (`mempool_unspent`), and a conflicting block breaks it
(`double_spend_stays_in_pool`).
-/

namespace HoboNickels

open Fallible WriteBatch List Function CTxDB CTxIndex Node

variable {env : Env} {w : World}

def CTxIndex.isSpent (t : CTxIndex) (n : Nat) : Bool :=
  match t.vSpent[n]? with
  | some p => !p.isNull
  | none => false

def spentIn (look : Uint256 → Option CTxIndex) (o : COutPoint) : Bool :=
  match look o.hash with
  | some t => t.isSpent o.n
  | none => false

theorem CTxIndex.isSpent_new (pos : CDiskTxPos) (k n : Nat) : (new pos k).isSpent n = false := by
  unfold isSpent new
  by_cases h : n < k <;> simp [h]

variable {t : CTxIndex}

theorem CTxIndex.isSpent_setSpent_of_ne {n m : Nat} (p : CDiskTxPos) (h : m ≠ n) :
    (t.setSpent n p).isSpent m = t.isSpent m := by
  simp [isSpent, setSpent, Ne.symm h]

theorem CTxIndex.isSpent_setSpent_null {n m : Nat}
    (h : (t.setSpent n CDiskTxPos.null).isSpent m = true) : t.isSpent m = true := by
  by_cases hm : m = n
  · subst hm
    unfold isSpent setSpent at h
    rw [getElem?_set_self'] at h
    cases ht : t.vSpent[m]? <;> simp [ht] at h
  · rwa [isSpent_setSpent_of_ne _ hm] at h

theorem CTxIndex.isSpent_setSpent_mono {n m : Nat} {p : CDiskTxPos}
    (hp : p.isNull = false) (h : t.isSpent m = true) : (t.setSpent n p).isSpent m = true := by
  by_cases hm : m = n
  · subst hm
    unfold isSpent at h ⊢
    unfold setSpent
    rw [getElem?_set_self']
    cases ht : t.vSpent[m]? with
    | none =>
      rw [ht] at h
      cases h
    | some q => simp [hp]
  · rwa [isSpent_setSpent_of_ne _ hm]

variable {look : Uint256 → Option CTxIndex}

theorem spentIn_eq_true {o : COutPoint} :
    spentIn look o = true ↔ ∃ t, look o.hash = some t ∧ t.isSpent o.n = true := by
  unfold spentIn
  cases look o.hash <;> simp

theorem spentIn_mono {f g : Uint256 → Option CTxIndex} {o : COutPoint}
    (h : ∀ t, f o.hash = some t → g o.hash = some t) (ho : spentIn f o = true) :
    spentIn g o = true := by
  obtain ⟨t, ht, hn⟩ := spentIn_eq_true.mp ho
  exact spentIn_eq_true.mpr ⟨t, h t ht, hn⟩

/-! ## What connecting and disconnecting spend

`Q` is a set of outpoints that contains all the spent ones; each lemma says when it still does
after a step. -/

variable {mempool : Uint256 → Option CTransaction} {pindex : CBlockIndex} {c : ConnectContext}

section SpentWithin

variable {Q : COutPoint → Prop} {tx : CTransaction}

theorem spendInputsFrom_spent {db : CTxDB}
    (hqueue : (c.fBlock || c.fMiner) = true) (l : List CTxIn) :
    ∀ i st st', (∀ txin ∈ l, Q txin.prevout) →
      (∀ h t x, st.inputs h = some (t, x) → ∀ n, t.isSpent n = true → Q ⟨h, n⟩) →
      (∀ o, spentIn (overlay db st.mapTestPool) o = true → Q o) →
      spendInputsFrom env c tx i l st = .ok st' →
      ∀ o, spentIn (overlay db st'.mapTestPool) o = true → Q o := by
  induction l with
  | nil =>
    intro i st st' _ _ hspent h
    cases h
    exact hspent
  | cons txin rest ih =>
    intro i st st' hl hinputs hspent h
    obtain ⟨_, h1, h2⟩ := bind_eq_ok.mp h
    obtain ⟨t, x, hin, -, hin1, hchanges1⟩ := spendInput_cases h1
    rw [hqueue, if_pos rfl] at hchanges1
    have hmarked : ∀ n, (t.setSpent txin.prevout.n c.posThisTx).isSpent n = true →
        Q ⟨txin.prevout.hash, n⟩ := by
      intro n hn
      by_cases hne : n = txin.prevout.n
      · subst hne
        exact hl txin mem_cons_self
      · rw [isSpent_setSpent_of_ne _ hne] at hn
        exact hinputs _ _ _ hin n hn
    refine ih _ _ _ (fun y hy => hl y (mem_cons_of_mem txin hy)) ?_ ?_ h2
    · intro h t' x' ht' n hn
      rw [hin1] at ht'
      obtain ⟨rfl, ⟨⟩⟩ | ⟨-, ht'⟩ := update_eq_some ht'
      · exact hmarked n hn
      · exact hinputs h t' x' ht' n hn
    · intro o ho
      obtain ⟨t', ht', hn⟩ := spentIn_eq_true.mp ho
      rw [hchanges1, overlay_insert] at ht'
      split at ht'
      next hh =>
        cases ht'
        obtain ⟨h, n⟩ := o
        cases hh
        exact hmarked n hn
      · exact hspent o (spentIn_eq_true.mpr ⟨t', ht', hn⟩)

theorem spentIn_insert_new {db : CTxDB} {changes : QueuedChanges} {k : Uint256} {pos : CDiskTxPos}
    {nOutputs : Nat} (hspent : ∀ o, spentIn (overlay db changes) o = true → Q o) :
    ∀ o, spentIn (overlay db (changes.insert k (new pos nOutputs))) o = true → Q o := by
  intro o ho
  obtain ⟨t, ht, hn⟩ := spentIn_eq_true.mp ho
  rw [overlay_insert] at ht
  split at ht
  · cases ht
    rw [isSpent_new] at hn
    cases hn
  · exact hspent o (spentIn_eq_true.mpr ⟨t, ht, hn⟩)

theorem connectTx_spent {c : BlockContext} {st st' : ConnectState}
    (hin : tx.isCoinBase = false → ∀ txin ∈ tx.vin, Q txin.prevout)
    (hspent : ∀ o, spentIn (overlay c.db st.mapQueuedChanges) o = true → Q o)
    (h : connectTx env w c st tx = .ok st') :
    ∀ o, spentIn (overlay c.db st'.mapQueuedChanges) o = true → Q o := by
  obtain ⟨_, _, -, -, -, -, hcases⟩ := connectTx_cases h
  rcases hcases with ⟨-, -, hchanges⟩ | ⟨hcb, _, _, _, hfetch, -, hconn, hchanges⟩
  · rw [hchanges]
    exact spentIn_insert_new hspent
  rw [hchanges]
  refine spentIn_insert_new ?_
  obtain ⟨_, _, -, hspend, hst1, -⟩ := connectInputs_ok hcb hconn
  obtain ⟨hfound, -⟩ := fetchInputs_ok rfl hcb hfetch
  rw [← hst1]
  refine spendInputsFrom_spent rfl _ _ _ _ (hin hcb) ?_ hspent hspend
  intro h t x ht n hn
  exact hspent ⟨h, n⟩ (spentIn_eq_true.mpr ⟨t, (hfound h t x ht).1, hn⟩)

theorem foldlM_connectTx_spent {c : BlockContext} (txs : List CTransaction) :
    ∀ st st', (∀ tx ∈ txs, tx.isCoinBase = false → ∀ txin ∈ tx.vin, Q txin.prevout) →
      (∀ o, spentIn (overlay c.db st.mapQueuedChanges) o = true → Q o) →
      txs.foldlM (connectTx env w c) st = .ok st' →
      ∀ o, spentIn (overlay c.db st'.mapQueuedChanges) o = true → Q o := by
  induction txs with
  | nil =>
    intro st st' _ hspent h
    cases h
    exact hspent
  | cons tx rest ih =>
    intro st st' hin hspent h
    obtain ⟨st1, h1, h2⟩ := bind_eq_ok.mp h
    exact ih st1 st' (fun x hx => hin x (mem_cons_of_mem tx hx))
      (connectTx_spent (hin tx mem_cons_self) hspent h1) h2

def CBlock.Spends (b : CBlock) (o : COutPoint) : Prop :=
  ∃ tx ∈ b.vtx, tx.isCoinBase = false ∧ ∃ txin ∈ tx.vin, txin.prevout = o

theorem connectBlock_spent {s s' : ChainState} {b : CBlock} (hin : ∀ o, b.Spends o → Q o)
    (hspent : ∀ o, spentIn s.db.readTxIndex o = true → Q o)
    (h : s.connectBlock env w mempool b pindex = .ok s') :
    ∀ o, spentIn s'.db.readTxIndex o = true → Q o := by
  obtain ⟨_, -, hloop, rfl⟩ := connectBlock_ok h
  rw [readTxIndex_finishConnect]
  refine foldlM_connectTx_spent b.vtx _ _ ?_ ?_ hloop
  · intro tx htx hcb txin htxin
    exact hin _ ⟨tx, htx, hcb, txin, htxin, rfl⟩
  · exact hspent

theorem disconnectBlock_spent {s s' : ChainState} {b : CBlock}
    (hspent : ∀ o, spentIn s.db.readTxIndex o = true → Q o)
    (h : s.disconnectBlock env b pindex = .ok s') :
    ∀ o, spentIn s'.db.readTxIndex o = true → Q o := by
  let P (db : CTxDB) : Prop := ∀ o, spentIn db.readTxIndex o = true → Q o
  have hinput : ∀ db db' txin, disconnectInput db txin = .ok db' → P db → P db' := by
    intro db db' txin h hspent o ho
    obtain ⟨t, ht, h⟩ := bind_eq_ok.mp h
    obtain ⟨_, -, h⟩ := bind_eq_ok.mp h
    cases h
    rw [demand_eq_ok] at ht
    refine hspent o ?_
    obtain ⟨t', ht', hn⟩ := spentIn_eq_true.mp ho
    rw [readTxIndex_updateTxIndex] at ht'
    split at ht'
    next hh =>
      cases ht'
      exact spentIn_eq_true.mpr ⟨t, hh ▸ ht, isSpent_setSpent_null hn⟩
    · exact spentIn_eq_true.mpr ⟨t', ht', hn⟩
  have htx : ∀ db db' tx, disconnectInputs env db tx = .ok db' → P db → P db' := by
    intro db db' tx h hspent
    obtain ⟨_, hloop, h⟩ := bind_eq_ok.mp h
    cases h
    have hend := foldlM_ok_induct (fun _ => P)
      (fun _ txin db db' hP h => hinput db db' txin h hP) _ [] _ _ hspent hloop
    intro o ho
    refine hend o (spentIn_mono (fun t ht => ?_) ho)
    rw [readTxIndex_eraseTxIndex] at ht
    split at ht
    · cases ht
    · exact ht
  obtain ⟨db, hloop, h⟩ := bind_eq_ok.mp h
  cases h
  have hend := foldlM_ok_induct (fun _ => P)
    (fun _ tx db db' hP h => htx db db' tx h hP) _ [] _ _ hspent hloop
  intro o ho
  refine hend o (spentIn_mono (fun t ht => ?_) ho)
  rwa [readTxIndex_writePrevIndex] at ht

end SpentWithin

/-! ## Entering the pool -/

variable {tx : CTransaction} {n n' : Node} {b : CBlock} {pindexNew : CBlockIndex}

theorem spendInputsFrom_unspent (hpos : c.posThisTx.isNull = false) (l : List CTxIn) :
    ∀ i st st', (∀ h t x, st.inputs h = some (t, x) → ∀ n, spentIn look ⟨h, n⟩ = true →
        t.isSpent n = true) →
      spendInputsFrom env c tx i l st = .ok st' →
      ∀ txin ∈ l, spentIn look txin.prevout = false := by
  induction l with
  | nil =>
    intro i st st' _ _ txin htxin
    cases htxin
  | cons txin rest ih =>
    intro i st st' hmarked h
    obtain ⟨_, h1, h2⟩ := bind_eq_ok.mp h
    obtain ⟨t, x, hin, hnull, hin1, -⟩ := spendInput_cases h1
    have hthis : spentIn look txin.prevout = false := by
      by_contra hspent
      have ht := hmarked _ _ _ hin txin.prevout.n (by simpa using hspent)
      unfold isSpent at ht
      rw [getD_eq_getElem?_getD] at hnull
      cases hslot : t.vSpent[txin.prevout.n]? with
      | none =>
        rw [hslot] at ht
        cases ht
      | some p =>
        rw [hslot] at ht hnull
        rw [Option.getD_some] at hnull
        simp [hnull] at ht
    have hrest := ih _ _ _ (fun h t' x' ht' n hn => by
      rw [hin1] at ht'
      obtain ⟨rfl, ⟨⟩⟩ | ⟨-, ht'⟩ := update_eq_some ht'
      · exact isSpent_setSpent_mono hpos (hmarked _ _ _ hin n hn)
      · exact hmarked h t' x' ht' n hn) h2
    intro y hy
    rcases mem_cons.mp hy with rfl | hy
    · exact hthis
    · exact hrest y hy

/-- **AcceptToMemoryPool** adds one transaction to the pool, and its inputs are unspent. -/
theorem Node.acceptToMemoryPool_unspent {pool : CTxMemPool}
    (h : n.acceptToMemoryPool env w tx = .ok pool) :
    pool.mapTx = update n.mempool.mapTx (env.txHash tx) (some tx) ∧
      ∀ txin ∈ tx.vin, spentIn n.chain.db.committedTx txin.prevout = false := by
  obtain ⟨rfl, haccepted⟩ := acceptToMemoryPool_ok h
  obtain ⟨inputs, pindexBest, changes, checks, hfetch, hconn⟩ := haccepted.connected
  have hcb := haccepted.notCoinBase
  refine ⟨rfl, ?_⟩
  obtain ⟨_, st, -, hspend, -⟩ := connectInputs_ok hcb hconn
  unfold fetchInputs at hfetch
  rw [hcb] at hfetch
  obtain ⟨inputs1, hloop, hfetch⟩ := bind_eq_ok.mp hfetch
  obtain ⟨_, -, hfetch⟩ := bind_eq_ok.mp hfetch
  cases hfetch
  refine spendInputsFrom_unspent rfl _ _ _ _ ?_ hspend
  intro h t x ht k hk
  obtain ⟨t', ht', hkt'⟩ := spentIn_eq_true.mp hk
  obtain ht | ⟨hread, -⟩ | ⟨-, hread⟩ := fetchInputsFrom_entry _ _ _ _ hloop ht
  · cases ht
  · cases hread.symm.trans ht'
    exact hkt'
  · cases hread.symm.trans ht'

/-! ## Leaving the pool -/

theorem CTxMemPool.mapTx_remove (pool : CTxMemPool) (tx : CTransaction) (h : Uint256) :
    (pool.remove env tx).mapTx h = if h = env.txHash tx then none else pool.mapTx h := by
  unfold remove
  by_cases hh : h = env.txHash tx
  · subst hh
    split
    · simp
    next hnone => simpa using hnone
  · split
    · simp [hh]
    · rfl

theorem CTxMemPool.mapTx_foldl_remove (txs : List CTransaction) (pool : CTxMemPool) (h : Uint256)
    (tx : CTransaction) (hm : (txs.foldl (remove env) pool).mapTx h = some tx) :
    pool.mapTx h = some tx ∧ ∀ t ∈ txs, env.txHash t ≠ h := by
  induction txs generalizing pool h tx with
  | nil => exact ⟨hm, by simp⟩
  | cons t txs ih =>
    obtain ⟨hold, hrest⟩ := ih _ _ _ hm
    rw [mapTx_remove] at hold
    split at hold
    · cases hold
    rename_i hne
    refine ⟨hold, ?_⟩
    intro t' ht'
    rcases mem_cons.mp ht' with rfl | ht'
    · exact fun heq => hne heq.symm
    · exact hrest t' ht'

theorem Node.mapTx_foldl_tryAccept (txs : List CTransaction) (n : Node) (h : Uint256)
    (tx : CTransaction) (hm : (txs.foldl (tryAccept env w) n).mempool.mapTx h = some tx) :
    n.mempool.mapTx h = some tx ∨ (tx ∈ txs ∧ h = env.txHash tx ∧
      ∀ txin ∈ tx.vin, spentIn n.chain.db.committedTx txin.prevout = false) := by
  induction txs generalizing n h tx with
  | nil => exact .inl hm
  | cons t txs ih =>
    rcases ih _ _ _ hm with hold | ⟨hmem, hh, hunspent⟩
    · unfold tryAccept at hold
      split at hold
      next pool haccept =>
        obtain ⟨hmap, hunspent⟩ := acceptToMemoryPool_unspent haccept
        rw [hmap] at hold
        obtain ⟨hh, ⟨⟩⟩ | ⟨-, hold⟩ := update_eq_some hold
        · exact .inr ⟨mem_cons_self, hh, hunspent⟩
        · exact .inl hold
      · exact .inl hold
    · rw [chain_tryAccept] at hunspent
      exact .inr ⟨mem_cons_of_mem t hmem, hh, hunspent⟩

def PoolUnspent (n : Node) : Prop :=
  ∀ h tx, n.mempool.mapTx h = some tx →
    ∀ txin ∈ tx.vin, spentIn n.chain.db.committedTx txin.prevout = false

/-- If the block spends an input of the transaction with id `h`, it contains a transaction with
that id. -/
def CBlock.SparesTx (env : Env) (b : CBlock) (h : Uint256) (tx : CTransaction) : Prop :=
  ∀ txin ∈ tx.vin, b.Spends txin.prevout → ∃ t ∈ b.vtx, env.txHash t = h

def CBlock.SparesPool (env : Env) (b : CBlock) (pool : CTxMemPool) : Prop :=
  ∀ h tx, pool.mapTx h = some tx → b.SparesTx env h tx

theorem PoolUnspent.setBestChainInner
    {outcome : Outcome} (hpool : PoolUnspent n) (hspares : b.SparesPool env n.mempool)
    (h : n.txnBegin.setBestChainInner env w b pindex = (n', outcome)) :
    PoolUnspent n' ∧ ∀ h tx, n'.mempool.mapTx h = some tx → n.mempool.mapTx h = some tx := by
  rcases setBestChainInner_outcome rfl h with
    ⟨-, hmem, s1, hconn, hchain⟩ | ⟨-, hun, hmem⟩
  · have hkept : ∀ h tx, n'.mempool.mapTx h = some tx →
        n.mempool.mapTx h = some tx ∧ ∀ t ∈ b.vtx, env.txHash t ≠ h := by
      rw [hmem]
      exact fun h tx => CTxMemPool.mapTx_foldl_remove b.vtx n.mempool h tx
    have hspent : ∀ o, spentIn n'.chain.db.committedTx o = true →
        spentIn n.chain.db.committedTx o = true ∨ b.Spends o := by
      have hcommit : n'.chain.db.committedTx = s1.db.readTxIndex := by
        rw [hchain]
        exact funext fun k => committedTx_commit _ _ k
      rw [hcommit]
      refine connectBlock_spent (fun o ho => .inr ho) ?_ hconn
      exact fun o ho => .inl ho
    refine ⟨?_, fun h tx htx => (hkept h tx htx).1⟩
    intro h tx htx txin htxin
    obtain ⟨hold, hgone⟩ := hkept h tx htx
    by_contra hne
    rcases hspent txin.prevout (by simpa using hne) with hbefore | hblock
    · rw [hpool h tx hold txin htxin] at hbefore
      cases hbefore
    · obtain ⟨t, ht, hid⟩ := hspares h tx hold txin htxin hblock
      exact hgone t ht hid
  · rw [PoolUnspent, hmem, hun.committedTx]
    exact ⟨hpool, fun _ _ htx => htx⟩

/-! ## Reorganising -/

variable {l : List CBlockIndex}

section

variable {Q : COutPoint → Prop} {s s' : ChainState} {r : Except Fail (List CTransaction)}

theorem disconnectBlocks_spent (hspent : ∀ o, spentIn s.db.readTxIndex o = true → Q o)
    (h : s.disconnectBlocks env w l = (s', r)) :
    ∀ o, spentIn s'.db.readTxIndex o = true → Q o := by
  obtain ⟨-, hP, -⟩ := disconnectBlocks_induct
    (fun s _ => ∀ o, spentIn s.db.readTxIndex o = true → Q o)
    (fun s s' pindex rest b hP _ hdisc => disconnectBlock_spent hP hdisc) l s s' r hspent h
  exact hP

theorem connectBlocks_spent (hin : ∀ p ∈ l, ∀ b, w.readBlock env p = some b → ∀ o, b.Spends o → Q o)
    (hspent : ∀ o, spentIn s.db.readTxIndex o = true → Q o)
    (h : s.connectBlocks env w mempool l = (s', r)) :
    ∀ o, spentIn s'.db.readTxIndex o = true → Q o := by
  obtain ⟨-, ⟨-, hP⟩, -⟩ := connectBlocks_induct
    (fun s rest => (∀ p ∈ rest, p ∈ l) ∧ ∀ o, spentIn s.db.readTxIndex o = true → Q o)
    (fun s s' pindex rest b hP hread hconn =>
      ⟨fun p hp => hP.1 p (mem_cons_of_mem pindex hp),
        connectBlock_spent (hin pindex (hP.1 pindex mem_cons_self) b hread) hP.2 hconn⟩)
    l s s' r ⟨fun p hp => hp, hspent⟩ h
  exact hP

end

theorem mem_vResurrect (l : List CBlockIndex) (s s' : ChainState) (vResurrect : List CTransaction)
    (h : s.disconnectBlocks env w l = (s', .ok vResurrect)) :
    ∀ tx ∈ vResurrect, ∃ p ∈ l, ∃ b, w.readBlock env p = some b ∧ tx ∈ b.resurrect env p := by
  induction l generalizing s s' vResurrect with
  | nil =>
    intro tx htx
    cases h
    cases htx
  | cons pindex rest ih =>
    intro tx htx
    rcases disconnectBlocks_cons h with ⟨-, e, he⟩ | ⟨b, _, _, hread, -, hloop, hmap⟩
    · cases he
    obtain ⟨_, rfl, rfl⟩ := exists_ok_of_map hmap.symm
    rcases mem_append.mp htx with htx | htx
    · obtain ⟨p, hp, hfound⟩ := ih _ _ _ hloop tx htx
      exact ⟨p, mem_cons_of_mem pindex hp, hfound⟩
    · exact ⟨pindex, mem_cons_self, b, hread, htx⟩

theorem mem_vDelete (l : List CBlockIndex) :
    ∀ (s s' : ChainState) (vDelete : List CTransaction),
      s.connectBlocks env w mempool l = (s', .ok vDelete) → ∀ p ∈ l, ∀ b,
      w.readBlock env p = some b → ∀ tx ∈ b.vtx, tx ∈ vDelete := by
  induction l with
  | nil =>
    intro s s' vDelete _ p hp
    cases hp
  | cons pindex rest ih =>
    intro s s' vDelete h p hp b hb tx htx
    rcases connectBlocks_cons h with ⟨-, e, he⟩ | ⟨_, _, _, hread, -, hloop, hmap⟩
    · cases he
    obtain ⟨_, rfl, rfl⟩ := exists_ok_of_map hmap.symm
    rcases mem_cons.mp hp with rfl | hp
    · obtain rfl := Option.some.inj (hread.symm.trans hb)
      exact mem_append_left _ htx
    · exact mem_append_right _ (ih _ _ _ hloop p hp b hb tx htx)

/-- **Reorganize** keeps the pool consistent if the blocks it connects conflict with nothing in it.
-/
theorem PoolUnspent.reorganize (hpool : PoolUnspent n) (hspares : ∀ pfork,
      findFork n.chain.bestChain (n.chain.mapBlockIndex.chainOf pindexNew.hashBlock) = some pfork →
      ∀ p ∈ aboveFork pfork (n.chain.mapBlockIndex.chainOf pindexNew.hashBlock), ∀ b,
      w.readBlock env p = some b → b.SparesPool env n.mempool)
    (h : n.txnBegin.reorganize env w pindexNew = (n', .ok ())) :
    PoolUnspent n' ∧ ∃ pfork,
      findFork n.chain.bestChain (n.chain.mapBlockIndex.chainOf pindexNew.hashBlock) = some pfork ∧
      ∀ h tx, n'.mempool.mapTx h = some tx → n.mempool.mapTx h = some tx ∨
        (h = env.txHash tx ∧ ∃ p ∈ aboveFork pfork n.chain.bestChain, ∃ b,
          w.readBlock env p = some b ∧ tx ∈ b.resurrect env p) := by
  unfold Node.reorganize at h
  simp only at h
  split at h
  · cases h
  rename_i pfork hfork
  have hspares := hspares pfork hfork
  rcases switchBranch_cases rfl h with
    ⟨-, _, s2, vResurrect, vDelete, hdisc, hconn, hn'⟩ | ⟨⟨e, he⟩, -⟩
  · have hcommit : committedTx (Store.txnCommit (s2.db.writeHashBestChain pindexNew.hashBlock))
        = s2.db.readTxIndex := funext fun k => committedTx_commit _ _ k
    -- what is spent afterwards was spent before or is spent by a connected block
    have hspent : ∀ o, spentIn s2.db.readTxIndex o = true →
        spentIn n.chain.db.committedTx o = true ∨
        ∃ p ∈ aboveFork pfork (n.chain.mapBlockIndex.chainOf pindexNew.hashBlock), ∃ b,
          w.readBlock env p = some b ∧ b.Spends o := by
      refine connectBlocks_spent ?_ (disconnectBlocks_spent ?_ hdisc) hconn
      · intro p hp b hb o ho
        exact .inr ⟨p, mem_reverse.mp hp, b, hb, ho⟩
      intro o ho
      exact .inl (spentIn_mono (fun t ht => (readTxIndex_txnBegin _ _).symm.trans ht) ho)
    -- what is in the pool afterwards
    have hentry : ∀ h tx, n'.mempool.mapTx h = some tx →
        (∀ t ∈ vDelete, env.txHash t ≠ h) ∧ (n.mempool.mapTx h = some tx ∨
          (tx ∈ vResurrect ∧ h = env.txHash tx ∧
            ∀ txin ∈ tx.vin, spentIn s2.db.readTxIndex txin.prevout = false)) := by
      intro h tx htx
      rw [hn', finishReorganize, foldl_removeFromPool] at htx
      obtain ⟨htx, hgone⟩ := CTxMemPool.mapTx_foldl_remove _ _ _ _ htx
      refine ⟨hgone, ?_⟩
      rcases mapTx_foldl_tryAccept _ _ _ _ htx with hold | ⟨hmem, hh, hunspent⟩
      · exact .inl hold
      refine .inr ⟨hmem, hh, ?_⟩
      intro txin htxin
      have := hunspent txin htxin
      rwa [hcommit] at this
    refine ⟨?_, pfork, hfork, ?_⟩
    · intro h tx htx txin htxin
      obtain ⟨hgone, hfrom⟩ := hentry h tx htx
      rw [hn', chain_finishReorganize, hcommit]
      rcases hfrom with hold | ⟨-, -, hunspent⟩
      · by_contra hne
        rcases hspent txin.prevout (by simpa using hne) with hbefore | ⟨p, hp, b, hb, hblock⟩
        · rw [hpool h tx hold txin htxin] at hbefore
          cases hbefore
        · obtain ⟨t, ht, hid⟩ := hspares p hp b hb h tx hold txin htxin hblock
          exact hgone t (mem_vDelete _ _ _ _ hconn p (mem_reverse.mpr hp) b hb t ht) hid
      · exact hunspent txin htxin
    · intro h tx htx
      rcases (hentry h tx htx).2 with hold | ⟨hmem, hh, -⟩
      · exact .inl hold
      · exact .inr ⟨hh, mem_vResurrect _ _ _ _ hdisc tx hmem⟩
  · cases he

/-! ## SetBestChain -/

/-- The fork between the chain of `best`, the best block, and the block that `SetBestChain`
reorganises to. -/
def Node.ForksAt (n : Node) (best pindexNew pfork : CBlockIndex) : Prop :=
  n.chain.bestChain.head? = some best ∧ findFork n.chain.bestChain
    (n.chain.mapBlockIndex.chainOf (n.intermediate best pindexNew).hashBlock) = some pfork

/-- The block that the call connects spends no input of a pooled transaction that is not in it; nor
do the blocks of a new branch; nor do the postponed blocks spend an input of a transaction that the
disconnected blocks give back. -/
structure Node.NoConflict (env : Env) (n : Node) (w : World) (b : CBlock)
    (pindexNew : CBlockIndex) : Prop where
  extending : b.hashPrevBlock = n.chain.hashBestChain → b.SparesPool env n.mempool
  switching : b.hashPrevBlock ≠ n.chain.hashBestChain → ∀ best pfork,
    n.ForksAt best pindexNew pfork → ∀ p,
    p ∈ aboveFork pfork
        (n.chain.mapBlockIndex.chainOf (n.intermediate best pindexNew).hashBlock) ∨
      p ∈ n.secondary best pindexNew →
    ∀ q, w.readBlock env p = some q → q.SparesPool env n.mempool
  resurrecting : b.hashPrevBlock ≠ n.chain.hashBestChain → ∀ best pfork,
    n.ForksAt best pindexNew pfork →
    ∀ p ∈ n.secondary best pindexNew, ∀ q, w.readBlock env p = some q →
    ∀ p' ∈ aboveFork pfork n.chain.bestChain, ∀ q', w.readBlock env p' = some q' →
    ∀ tx ∈ q'.resurrect env p', q.SparesTx env (env.txHash tx) tx

theorem PoolUnspent.congr (hpool : PoolUnspent n)
    (hdb : n'.chain.db.committedTx = n.chain.db.committedTx)
    (hmem : ∀ h tx, n'.mempool.mapTx h = some tx → n.mempool.mapTx h = some tx) :
    PoolUnspent n' := by
  intro h tx htx
  rw [hdb]
  exact hpool h tx (hmem h tx htx)

theorem PoolUnspent.connectFurther {r : Option String} (hpool : PoolUnspent n)
    (hspares : ∀ p ∈ l, ∀ q, w.readBlock env p = some q → q.SparesPool env n.mempool)
    (h : connectFurther env w l n = (n', r)) : PoolUnspent n' := by
  -- the pool only shrinks, so a block that spares it at the start spares it later
  obtain ⟨-, ⟨hend, -, -⟩, -⟩ := connectFurther_induct
    (fun n1 rest => PoolUnspent n1 ∧ (∀ p ∈ rest, p ∈ l) ∧
      ∀ h tx, n1.mempool.mapTx h = some tx → n.mempool.mapTx h = some tx)
    (fun n1 n2 pindex rest b hP hread hin => by
      obtain ⟨hun, hsub, hold⟩ := hP
      obtain ⟨hun', hold'⟩ := hun.setBestChainInner
        (fun h tx htx => hspares pindex (hsub pindex mem_cons_self) b hread h tx
          (hold h tx htx)) hin
      exact ⟨hun', fun p hp => hsub p (mem_cons_of_mem pindex hp),
        fun h tx htx => hold h tx (hold' h tx htx)⟩)
    (fun n1 n2 pindex rest b outcome hP hread hin _ => by
      obtain ⟨hun, hsub, hold⟩ := hP
      obtain ⟨hun', hold'⟩ := hun.setBestChainInner
        (fun h tx htx => hspares pindex (hsub pindex mem_cons_self) b hread h tx
          (hold h tx htx)) hin
      exact ⟨hun', hsub, fun h tx htx => hold h tx (hold' h tx htx)⟩)
    l n n' r ⟨hpool, fun p hp => hp, fun _ _ htx => htx⟩ h
  exact hend

/-- **SetBestChain** keeps the pool consistent if it meets no conflict. -/
theorem PoolUnspent.setBestChain (hpool : PoolUnspent n) (hok : n.NoConflict env w b pindexNew) :
    PoolUnspent (n.setBestChain env w b pindexNew).1 := by
  unfold Node.setBestChain
  simp only
  split
  · exact hpool
  split
  · -- the genesis block spends nothing
    unfold setBestGenesis
    split
    · exact hpool.congr (funext fun k => (committedTx_commit _ _ k).trans
        (readTxIndex_txnBegin _ k)) (fun _ _ htx => htx)
    · exact hpool
  split
  next hprev =>
    cases hin : n.txnBegin.setBestChainInner env w b pindexNew with
    | mk n1 outcome =>
      have hinner := (hpool.setBestChainInner (hok.extending hprev) hin).1
      rcases outcome with ⟨_ | _⟩ | message <;> exact hinner
  next hprev =>
    cases hbest : n.chain.bestChain.head? with
    | none =>
      have hempty : n.txnBegin.chain.bestChain = [] := head?_eq_none_iff.mp hbest
      unfold setBestByReorganize
      rw [hempty]
      exact hpool
    | some best =>
      cases hset : n.txnBegin.setBestByReorganize env w
          (env.scryptBlockhash b.toCBlockHeader) pindexNew with
      | mk n' outcome =>
        rcases setBestByReorganize_cases (n := n.txnBegin) hbest hset with
          ⟨-, n1, e, hreorg, hn'⟩ | ⟨n1, _, r, hreorg, hfurther, hsome, hnone⟩
        · obtain ⟨hdb, hmem⟩ := reorganize_error hreorg
          have habort : PoolUnspent n1.txnAbort :=
            hpool.congr hdb (fun h tx htx => by rwa [← hmem])
          rcases hn' with rfl | rfl
          · exact habort
          · refine habort.congr (untouched_invalidChainFound rfl pindexNew).committedTx ?_
            rw [mempool_invalidChainFound]
            exact fun _ _ htx => htx
        · obtain ⟨hun, pfork, hfork, hentries⟩ := hpool.reorganize (fun pfork hfork p hp q hq =>
              hok.switching hprev best pfork ⟨hbest, hfork⟩ p (.inl hp) q hq) hreorg
          -- what is in the pool by now was there before or was resurrected
          have hspares : ∀ p ∈ n.secondary best pindexNew, ∀ q, w.readBlock env p = some q →
              q.SparesPool env n1.mempool := by
            intro p hp q hq h tx htx
            rcases hentries h tx htx with hold | ⟨rfl, p', hp', q', hq', hres⟩
            · exact hok.switching hprev best pfork ⟨hbest, hfork⟩ p (.inr hp) q hq h tx hold
            · exact hok.resurrecting hprev best pfork ⟨hbest, hfork⟩ p hp q hq p' hp' q' hq' tx hres
          have hend := hun.connectFurther hspares hfurther
          cases r with
          | some message => exact (hsome message rfl).1 ▸ hend
          | none =>
            rw [(hnone rfl).1]
            exact hend

/-! ## Runs -/

/-- A transaction is offered to the pool, a block is indexed, `SetBestChain` is called under the
condition `ok`, or something happens that leaves the committed index alone and adds nothing to the
pool. -/
inductive PoolStep (env : Env) (ok : Node → World → CBlock → CBlockIndex → Prop) :
    Node → Node → Prop
  | accept {n : Node} (w : World) (tx : CTransaction) : PoolStep env ok n (n.tryAccept env w tx)
  | index {n : Node} (w : World) (pindexNew : CBlockIndex) :
      PoolStep env ok n (n.entered w pindexNew)
  | setBest {n : Node} {b : CBlock} {pindexNew : CBlockIndex} (w : World)
      (hok : ok n w b pindexNew) : PoolStep env ok n (n.setBestChain env w b pindexNew).1
  | other {n n' : Node} (hdb : n'.chain.db.committedTx = n.chain.db.committedTx)
      (hpool : ∀ h tx, n'.mempool.mapTx h = some tx → n.mempool.mapTx h = some tx) :
      PoolStep env ok n n'

abbrev PoolRun (env : Env) (ok : Node → World → CBlock → CBlockIndex → Prop) : Node → Node → Prop :=
  Relation.ReflTransGen (PoolStep env ok)

theorem CTxDB.committedTx_writeBlockIndex (db : CTxDB) (e : CDiskBlockIndex) (k : Uint256) :
    committedTx (Store.txnCommit (writeBlockIndex (Store.txnBegin db) e)) k
      = db.committedTx k :=
  (lookup_txnCommit _ _).trans
    ((readTxIndex_writeBlockIndex _ _ _).trans (readTxIndex_txnBegin db k))

theorem ChainState.committedTx_indexBlock (s : ChainState) (w : World) (pindexNew : CBlockIndex) :
    (s.indexBlock w pindexNew).1.db.committedTx = s.db.committedTx := by
  unfold indexBlock
  split
  · rfl
  · split
    · exact funext fun k => committedTx_writeBlockIndex _ _ k
    · rfl

theorem PoolUnspent.step (hpool : PoolUnspent n)
    (h : PoolStep env (NoConflict env) n n') : PoolUnspent n' := by
  cases h with
  | accept w tx =>
    intro h t ht txin htxin
    rw [chain_tryAccept]
    rcases mapTx_foldl_tryAccept [tx] n h t ht with hold | ⟨-, -, hunspent⟩
    · exact hpool h t hold txin htxin
    · exact hunspent txin htxin
  | index w pindexNew =>
    exact hpool.congr (ChainState.committedTx_indexBlock _ w pindexNew) (fun _ _ htx => htx)
  | setBest w hok => exact hpool.setBestChain hok
  | other hdb hmem => exact hpool.congr hdb hmem

/-- **The pool is consistent with the chain.** In a run in which no call of `SetBestChain` meets a
conflict, no pooled transaction spends an output that the committed index has as spent. -/
theorem mempool_unspent {n₀ n : Node} (h₀ : PoolUnspent n₀)
    (hrun : PoolRun env (NoConflict env) n₀ n) :
    ∀ h tx, n.mempool.mapTx h = some tx →
      ∀ txin ∈ tx.vin, spentIn n.chain.db.committedTx txin.prevout = false := by
  have hunspent : PoolUnspent n := by
    induction hrun with
    | refl => exact h₀
    | tail _ hstep ih => exact ih.step hstep
  exact hunspent

theorem Node.addToBlockIndex_poolRun {ok : Node → World → CBlock → CBlockIndex → Prop}
    {nFile nBlockPos : Nat} {hashProofOfStake : Uint256} (hok : ∀ pindexNew,
      n.chain.newBlockIndex env b nFile nBlockPos hashProofOfStake = .ok pindexNew →
      ok (n.entered w pindexNew) w b pindexNew) :
    PoolRun env ok n (n.addToBlockIndex env w b nFile nBlockPos hashProofOfStake).1 := by
  refine addToBlockIndex_induct (fun r => PoolRun env ok n r.1) (fun _ _ => .refl)
    (fun pindexNew _ _ => .single (PoolStep.index w pindexNew)) fun pindexNew hnew => ?_
  exact .tail (.single (PoolStep.index w pindexNew)) (PoolStep.setBest w (hok pindexNew hnew))

/-! ## A double spend

Blocks 1 to 8 are the main chain, so that the coinbases of blocks 2 and 3 can be spent. -/

def eightBlocks : Node where
  chain := { sampleState ([8, 7, 6, 5, 4, 3, 2, 1].map chainEntry) with
    pnext := fun h => if 1 ≤ h ∧ h < 8 then some (h + 1) else none
    pindexGenesisBlock := some 1
    nBestHeight := 7
    db := ⟨[2, 3, 4, 5, 6, 7, 8].foldl (fun (t : Table DbVal) (k : Uint256) =>
      t.insert (.tx k) (CTxIndex.new ⟨1, 1000 * k, firstTxPos (1000 * k) (chainBlock k)⟩ 1))
        ((∅ : Table DbVal).insert .hashBestChain (8 : Uint256)), none⟩ }
  mempool := CTxMemPool.empty

theorem poolUnspent_eightBlocks : PoolUnspent eightBlocks := by
  rintro h _ ⟨⟩

def pooledTwo (tx : CTransaction) : Node :=
  (eightBlocks.tryAccept sampleEnv (nineWorld tx) (spendCoinbase 100 2)).tryAccept sampleEnv
    (nineWorld tx) (spendCoinbase 101 3)

/-- Block 9 spends the coinbase of block 2 with another transaction, and the pooled one stays. -/
theorem double_spend_stays_in_pool :
    let tx := spendCoinbase 102 2
    let result := (pooledTwo tx).acceptBlock sampleEnv (nineWorld tx) (nineWorld tx) (blockNine tx)
    result.2 = .ok () ∧ result.1.chain.hashBestChain = 9 ∧
      result.1.mempool.mapTx 100 = some (spendCoinbase 100 2) ∧
      spentIn result.1.chain.db.committedTx ⟨2, 0⟩ = true := by
  decide +kernel

theorem mempool_unspent_block_nine :
    let tx := spendCoinbase 100 2
    let n := ((pooledTwo tx).addToBlockIndex sampleEnv (nineWorld tx) (blockNine tx) 1 9000 0).1
    spentIn n.chain.db.committedTx ⟨2, 0⟩ = true ∧ n.mempool.mapTx 100 = none ∧
      n.mempool.mapTx 101 = some (spendCoinbase 101 3) ∧
      PoolUnspent eightBlocks ∧ PoolRun sampleEnv (NoConflict sampleEnv) eightBlocks n ∧
      ∀ h tx, n.mempool.mapTx h = some tx →
        ∀ txin ∈ tx.vin, spentIn n.chain.db.committedTx txin.prevout = false := by
  intro tx n
  have hrun : PoolRun sampleEnv (NoConflict sampleEnv) eightBlocks n := by
    refine .trans (.single (.accept (nineWorld tx) _))
      (.trans (.single (.accept (nineWorld tx) _)) (addToBlockIndex_poolRun ?_))
    intro pindexNew _
    have hprev : (blockNine tx).hashPrevBlock
        = ((pooledTwo tx).chain.indexBlock (nineWorld tx) pindexNew).1.hashBestChain := by
      rfl
    refine ⟨fun _ => ?_, fun hne => absurd hprev hne, fun hne => absurd hprev hne⟩
    intro h t ht txin htxin hspends
    change ([spendCoinbase 100 2, spendCoinbase 101 3].foldl
      (tryAccept sampleEnv (nineWorld tx)) eightBlocks).mempool.mapTx h = some t at ht
    rcases mapTx_foldl_tryAccept _ _ h t ht with hold | ⟨hmem, hh, -⟩
    · cases hold
    simp only [mem_cons, not_mem_nil, or_false] at hmem
    rcases hmem with rfl | rfl
    · exact ⟨tx, mem_cons_of_mem _ mem_cons_self, hh.symm⟩
    have hother : ∀ txin ∈ (spendCoinbase 101 3).vin, ∀ t ∈ (blockNine tx).vtx,
        ∀ txin' ∈ t.vin, txin'.prevout ≠ txin.prevout := by decide
    obtain ⟨t, ht, -, txin', htxin', heq⟩ := hspends
    exact absurd heq (hother txin htxin t ht txin' htxin')
  exact ⟨by decide +kernel, by decide +kernel, by decide +kernel, poolUnspent_eightBlocks, hrun,
    mempool_unspent poolUnspent_eightBlocks hrun⟩

end HoboNickels

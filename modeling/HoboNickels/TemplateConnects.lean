import HoboNickels.PoolConsistency
import HoboNickels.Replay
import HoboNickels.Staking

/-!
# Block templates connect

The transactions that `CreateNewBlock` collects can be connected, in their order, to the index of
the best chain: the database with the changes of `mapTestPool` laid over it is the abstract table
after the transactions collected (`TemplateState.Connects`). A child whose parent was skipped finds
no record of it, and `FetchInputs` turns it away.

`createNewBlock_connects` reads off what this says about inputs, sizes, signature operations and
times. Left out are a `-blockmaxsize` of 1000 or less, and the 32 bits of the header's time
(`template_at_its_limits`).
-/

namespace HoboNickels

open Fallible WriteBatch List Function CDiskTxPos TxTable Option CTransaction Subperm

section

variable (n : Node) (env : Env) (w : World) (m : MinerInput)

/-- The committed index is the replay of the best chain; the pool has each transaction under its id,
and none of the chain's; times are kept in 32 bits. -/
structure Node.Consistent (d : Disk) (n : Node) : Prop where
  index : Replays env d n.chain.db.committedTx n.chain.bestChain
  named : ∀ {h tx}, n.mempool.mapTx h = some tx → env.txHash tx = h
  unconfirmed : ∀ {h tx}, n.mempool.mapTx h = some tx → h ∉ chainIds env d n.chain.bestChain
  txTime : ∀ {h tx}, n.mempool.mapTx h = some tx → tx.nTime < 2 ^ 32
  blockTime : ∀ {h p}, n.chain.mapBlockIndex h = some p → p.nTime < 2 ^ 32

def ChainState.UnspentOutput (s : ChainState) (env : Env) (d : Disk) (o : COutPoint) : Prop :=
  (∃ p ∈ s.bestChain, ∃ x ∈ p.placed env d, x.hash = o.hash ∧ o.n < x.nOutputs) ∧
    o ∉ chainInputs env d s.bestChain

def Node.prevTx (h : Uint256) : Option CTransaction :=
  match n.chain.db.committedTx h with
  | some txindex => w.disk.tx txindex.pos.nFile txindex.pos.nTxPos
  | none => n.mempool.mapTx h

def Node.spentScript (o : COutPoint) : CScript :=
  (n.prevTx w o.hash).elim [] fun txPrev => (txPrev.vout.getD o.n default).scriptPubKey

/-- The legacy signature operations of a transaction and those of the scripts that it spends by
their hash. -/
def Node.sigOps (tx : CTransaction) : Nat :=
  tx.getLegacySigOpCount env + (tx.vin.map fun txin =>
    if env.isPayToScriptHash (n.spentScript w txin.prevout) then
      env.p2shSigOpCount (n.spentScript w txin.prevout) txin.scriptSig else 0).sum

/-- The transactions can follow the coinbase of a block on top of the best chain. -/
structure Node.Connects (txs : List CTransaction) : Prop where
  distinct : (txs.map env.txHash).Nodup
  inputs : ∀ earlier tx later, txs = earlier ++ tx :: later → ∀ txin ∈ tx.vin,
    n.chain.UnspentOutput env w.disk txin.prevout ∨
      ∃ parent ∈ earlier, env.txHash parent = txin.prevout.hash ∧
        txin.prevout.n < parent.vout.length
  spentOnce : (txs.flatMap fun tx => tx.vin.map (·.prevout)).Nodup
  size : txs = [] ∨ (txs.map serializeSize).sum + 1000 < m.nBlockMaxSize
  sigOps : (txs.map (n.sigOps env w)).sum < maxBlockSigops

/-! ## The transactions under way -/

def TemplateState.pending (st : TemplateState) : List CTransaction :=
  st.vecPriority ++ st.vOrphan.map COrphan.ptx

def Node.candidates : List CTransaction :=
  (m.poolKeys.filterMap n.mempool.mapTx).filter fun tx => !tx.isCoinBase

end

section Loop

variable {env : Env} {w : World} {n : Node} {m : MinerInput} {f : Bool} {pindexPrev : CBlockIndex}
  {I : TxTable}

variable {tx : CTransaction}

theorem Node.mem_candidates (hcons : n.Consistent env w.disk) (h : tx ∈ n.candidates m) :
    n.mempool.mapTx (env.txHash tx) = some tx ∧ tx.isCoinBase = false := by
  obtain ⟨hin, hcb⟩ := mem_filter.mp h
  obtain ⟨k, -, hk⟩ := mem_filterMap.mp hin
  rw [hcons.named hk]
  exact ⟨hk, by simpa using hcb⟩

theorem Node.nodup_candidates (hcons : n.Consistent env w.disk) (hkeys : m.poolKeys.Nodup) :
    ((n.candidates m).map env.txHash).Nodup := by
  -- a transaction is stored under its id, so that two keys do not lead to one id
  have hpool : ((m.poolKeys.filterMap n.mempool.mapTx).map env.txHash).Nodup := by
    rw [map_filterMap]
    refine hkeys.filterMap ?_
    intro k k' h hk hk'
    obtain ⟨_, htx, rfl⟩ := map_eq_some_iff.mp hk
    obtain ⟨_, htx', heq⟩ := map_eq_some_iff.mp hk'
    rw [← hcons.named htx, ← heq, hcons.named htx']
  exact hpool.sublist (filter_sublist.map env.txHash)

theorem nodup_of_subperm {txs all : List CTransaction} (h : txs.Subperm all)
    (hall : (all.map env.txHash).Nodup) : (txs.map env.txHash).Nodup := by
  obtain ⟨l, hperm, hsub⟩ := h
  rw [← (hperm.map env.txHash).nodup_iff]
  exact hall.sublist (hsub.map env.txHash)

theorem Node.queuePool_spec {nHeight : Nat} {queued : TemplateState}
    (h : n.queuePool env w m nHeight = .ok queued) :
    queued.pending.Subperm (n.candidates m) ∧ queued.vtx = [] ∧ queued.mapTestPool = ∅ ∧
      queued.nBlockSize = 1000 ∧ queued.nBlockSigOps = 100 := by
  have hinitial : m.initialState.pending.Subperm [] ∧ m.initialState.vtx = [] ∧
      m.initialState.mapTestPool = ∅ ∧ m.initialState.nBlockSize = 1000 ∧
      m.initialState.nBlockSigOps = 100 := ⟨refl _, rfl, rfl, rfl, rfl⟩
  refine foldlM_ok_induct
    (fun done st => st.pending.Subperm (done.filter fun tx => !tx.isCoinBase) ∧ st.vtx = [] ∧
      st.mapTestPool = ∅ ∧ st.nBlockSize = 1000 ∧ st.nBlockSigOps = 100) ?_
    (m.poolKeys.filterMap n.mempool.mapTx) [] m.initialState queued hinitial h
  rintro done tx st _ ⟨hpending, hrest⟩ hstep
  rw [filter_append]
  obtain rfl | ⟨hcb, -, hqueued⟩ := enqueue_cases hstep
  · refine ⟨hpending.trans ?_, hrest⟩
    exact (sublist_append_left _ _).subperm
  have hadded : (done.filter fun tx => !tx.isCoinBase) ++ [tx].filter (fun tx => !tx.isCoinBase)
      = (done.filter fun tx => !tx.isCoinBase) ++ [tx] := by
    simp [hcb]
  rw [hadded]
  have hone : (st.pending ++ [tx]).Subperm ((done.filter fun tx => !tx.isCoinBase) ++ [tx]) :=
    hpending.append (refl _)
  rcases hqueued with rfl | ⟨_, rfl⟩
  · refine ⟨?_, hrest⟩
    apply trans _ hone
    apply Perm.subperm
    unfold TemplateState.pending
    rw [append_assoc, append_assoc]
    exact perm_append_comm.append_left _
  · refine ⟨?_, hrest⟩
    apply trans _ hone
    apply Perm.subperm
    simp [TemplateState.pending]

/-! ## One transaction -/

variable {st : TemplateState}

theorem Node.tryConnect_cases {changes : QueuedChanges}
    {nTxSigOps : Nat} (h : n.tryConnect env w pindexPrev st tx = .ok (some (changes, nTxSigOps))) :
    ∃ inputs checks, fetchInputs env w (n.minerFetchContext st.mapTestPool) tx = .ok inputs ∧
      connectInputs env w n.chain.db.readOnly n.chain.nBestHeight
        (n.minerConnectContext pindexPrev) inputs st.mapTestPool tx = .ok (changes, checks) ∧
      nTxSigOps = tx.getLegacySigOpCount env + getP2SHSigOpCount env inputs tx ∧
      st.nBlockSigOps + nTxSigOps < maxBlockSigops := by
  unfold tryConnect at h
  split at h
  · cases h
  · cases h
  rename_i inputs hfetch
  obtain ⟨_, -, h⟩ := bind_eq_ok.mp h
  split at h
  · cases h
  dsimp only at h
  split at h
  · cases h
  rename_i hsigops
  split at h
  · cases h
  · cases h
  next changes' checks hconnect =>
    cases h
    exact ⟨inputs, checks, hfetch, hconnect, rfl, not_le.mp hsigops⟩

theorem Node.prevTx_of_found {inputs : MapPrevTx} {J : TxTable} {h : Uint256}
    {t : CTxIndex} {txPrev : CTransaction} (hcons : n.Consistent env w.disk)
    (hI : replayChain env w.disk n.chain.bestChain = some I) (hs : Shows n.chain.db.committedTx I)
    (hpool : ∀ tx ∈ st.vtx, n.mempool.mapTx (env.txHash tx) = some tx)
    (hJ : I.connectAll (st.vtx.map (·.place env memoryPool)) = some J)
    (hsJ : Shows (overlay n.chain.db.readOnly st.mapTestPool) J)
    (hfound : (n.minerFetchContext st.mapTestPool).AllFound w inputs)
    (hin : inputs h = some (t, txPrev)) : n.prevTx w h = some txPrev := by
  obtain ⟨hread, hprev⟩ := hfound h t txPrev hin
  have hread : overlay n.chain.db.readOnly st.mapTestPool h = some t := hread
  have hpos : prevPos n.chain.db.readOnly (st.vtx.map (·.place env memoryPool)) h = some t.pos := by
    have hs : Shows n.chain.db.readOnly.readTxIndex I := hs
    rw [← pos_lookup_connectAll hs _ J hJ, ← hsJ h, hread]
    rfl
  unfold prevPos at hpos
  split at hpos
  · -- a transaction collected before: it comes from the pool, and the chain does not have it
    rename_i x hx
    obtain ⟨tx, htx, rfl⟩ := mem_map.mp (mem_reverse.mp (mem_of_find?_eq_some hx))
    have hhash : env.txHash tx = h := by simpa [place] using find?_some hx
    have hmem : t.pos = memoryPool := (some.inj hpos).symm
    have hnone : n.chain.db.committedTx h = none := by
      rw [hs h, ← not_isSome_iff_eq_none, isSome_lookup_replayChain _ hI, ← hhash]
      exact hcons.unconfirmed (hpool tx htx)
    rw [World.prevTx, if_pos hmem] at hprev
    rw [prevTx, hnone]
    exact hprev
  · obtain ⟨t', ht', heq⟩ := map_eq_some_iff.mp hpos
    have ht' : n.chain.db.committedTx h = some t' := ht'
    have hstored : t'.pos ≠ memoryPool :=
      stored_replayChain hI h t' ((hs h).symm.trans ht')
    rw [World.prevTx, ← heq, if_neg hstored] at hprev
    rw [prevTx, ht']
    exact hprev

theorem Node.sigOps_eq {inputs : MapPrevTx} (hcb : tx.isCoinBase = false)
    (hrange : ∀ txin ∈ tx.vin, inputs.inRange txin = true)
    (hprev : ∀ h t txPrev, inputs h = some (t, txPrev) → n.prevTx w h = some txPrev) :
    tx.getLegacySigOpCount env + getP2SHSigOpCount env inputs tx = n.sigOps env w tx := by
  rw [getP2SHSigOpCount, if_neg (by simp [hcb])]
  congr 2
  apply map_congr_left
  intro txin htxin
  have hscript : inputs.scriptOf txin = n.spentScript w txin.prevout := by
    cases hin : inputs txin.prevout.hash with
    | none =>
      have hr := hrange txin htxin
      rw [MapPrevTx.inRange, hin] at hr
      cases hr
    | some e =>
      rw [MapPrevTx.scriptOf, MapPrevTx.outputOf, hin, spentScript, hprev _ e.1 e.2 hin]
      rfl
  rw [hscript]

/-! ## The loop -/

/-- The database with the proposed changes is the table after the transactions collected, and the
counters have their sizes and signature operations. -/
structure TemplateState.Connects (n : Node) (env : Env) (w : World) (m : MinerInput) (I : TxTable)
    (st : TemplateState) : Prop where
  candidates : (st.vtx ++ st.pending).Subperm (n.candidates m)
  table : ∃ J, I.connectAll (st.vtx.map (·.place env CDiskTxPos.memoryPool)) = some J ∧
    Shows (overlay n.chain.db.readOnly st.mapTestPool) J
  size : st.nBlockSize = 1000 + (st.vtx.map serializeSize).sum
  sizeBelow : st.vtx = [] ∨ st.nBlockSize < m.nBlockMaxSize
  sigOps : st.nBlockSigOps = 100 + (st.vtx.map (n.sigOps env w)).sum
  sigOpsBelow : st.nBlockSigOps < maxBlockSigops

theorem TemplateState.Connects.collectTx {st' : TemplateState} {nAdjusted : Int}
    {first : CTransaction} {rest : List CTransaction} (hcons : n.Consistent env w.disk)
    (hkeys : m.poolKeys.Nodup) (hI : replayChain env w.disk n.chain.bestChain = some I)
    (hs : Shows n.chain.db.committedTx I) (hqueue : st.vecPriority = first :: rest)
    (hst : st.Connects n env w m I) (h : n.collectTx env w m f pindexPrev nAdjusted
      { st with vecPriority := (m.pop st first rest).2 } (m.pop st first rest).1 = .ok st') :
    st'.Connects n env w m I := by
  obtain ⟨J, hJ, hsJ⟩ := hst.table
  have hpop := m.pop_perm st first rest
  generalize (m.pop st first rest).1 = tx at h hpop
  generalize (m.pop st first rest).2 = queue at h hpop
  -- the transaction at the front and the others make up what is under way
  have hall : (st.vtx ++ (tx :: queue ++ st.vOrphan.map COrphan.ptx)).Subperm (n.candidates m) := by
    refine trans ?_ hst.candidates
    rw [pending, hqueue]
    exact ((hpop.append_right _).append_left _).subperm
  rcases Node.collectTx_cases h with
    ⟨fSorted, rfl⟩ | ⟨fSorted, _, nTxSigOps, hlimits, htry, rfl⟩
  · refine ⟨trans ?_ hall, ⟨J, hJ, hsJ⟩, hst.size, hst.sizeBelow, hst.sigOps,
      hst.sigOpsBelow⟩
    exact ((sublist_cons_self _ _).append_left _).subperm
  have hids := nodup_of_subperm hall (Node.nodup_candidates hcons hkeys)
  have hcand : ∀ tx' ∈ st.vtx ++ [tx], n.mempool.mapTx (env.txHash tx') = some tx' ∧
      tx'.isCoinBase = false := by
    intro tx' htx'
    apply Node.mem_candidates hcons
    apply hall.subset
    simp only [mem_append, mem_cons] at htx' ⊢
    tauto
  obtain ⟨htx, hcb⟩ := hcand tx (by simp)
  obtain ⟨_, _, hfetch, hconnect, hcount, hbelow⟩ := Node.tryConnect_cases htry
  have hnew : J.lookup (env.txHash tx) = none := by
    rw [← not_isSome_iff_eq_none, isSome_lookup_connectAll _ hJ, isSome_lookup_replayChain _ hI]
    rintro (hchain | hagain)
    · exact hcons.unconfirmed htx hchain
    · rw [map_append, nodup_append] at hids
      refine hids.2.2 (env.txHash tx) ?_ (env.txHash tx) (by simp) rfl
      simpa [place] using hagain
  have hcan := canonical_connectAll _ hJ (canonical_replayChain hI)
  obtain ⟨J', hJ', hsJ'⟩ := connectInputs_connect hfetch hconnect rfl rfl rfl hcb
    (.inl hnew) hsJ hcan
  obtain ⟨hfound, hrange⟩ := fetchInputs_ok rfl hcb hfetch
  have hsigops : nTxSigOps = n.sigOps env w tx := by
    rw [hcount]
    refine Node.sigOps_eq hcb hrange fun k t txPrev hin => ?_
    exact Node.prevTx_of_found hcons hI hs
      (fun tx' htx' => (hcand tx' (mem_append_left _ htx')).1) hJ hsJ hfound hin
  constructor
  · refine trans (Perm.subperm ?_) hall
    rw [append_assoc]
    apply Perm.append_left
    rw [pending, append_assoc]
    exact ((releaseOrphans_perm (env.txHash tx) st.vOrphan).append_left queue).cons tx
  · refine ⟨J', ?_, hsJ'⟩
    rw [map_append]
    exact connectAll_append.mpr ⟨J, hJ, connectAll_cons.mpr ⟨J', hJ', rfl⟩⟩
  · simp [hst.size, add_assoc]
  · right
    simp only [MinerInput.withinLimits, Bool.and_eq_true, Bool.not_eq_true',
      decide_eq_false_iff_not, not_le] at hlimits
    exact hlimits.1.1
  · simp [hst.sigOps, hsigops, add_assoc]
  · exact hbelow

variable {nHeight rounds : Nat} {queued : TemplateState} (hcons : n.Consistent env w.disk)
  (hkeys : m.poolKeys.Nodup) (hI : replayChain env w.disk n.chain.bestChain = some I)
include hcons hkeys hI

/-- **The collecting loop** keeps the invariant from the queue to the template. -/
theorem Node.collect_connects (hs : Shows n.chain.db.committedTx I)
    (hqueued : n.queuePool env w m nHeight = .ok queued)
    (h : n.collect env w m f pindexPrev rounds queued = .ok st) : st.Connects n env w m I := by
  refine collect_induct (TemplateState.Connects n env w m I) ?_ rounds queued st ?_ h
  · intro nAdjusted st first rest st' hqueue hst hround
    exact hst.collectTx hcons hkeys hI hs hqueue hround
  obtain ⟨hpending, hvtx, hchanges, hsize, hsigops⟩ := queuePool_spec hqueued
  constructor
  · rw [hvtx]
    exact hpending
  · refine ⟨I, by rw [hvtx]; rfl, ?_⟩
    rw [hchanges]
    exact hs
  · rw [hsize, hvtx]
    rfl
  · exact .inl hvtx
  · rw [hsigops, hvtx]
    rfl
  · rw [hsigops]
    decide

theorem TemplateState.Connects.result (hst : st.Connects n env w m I) : n.Connects env w m
    st.vtx := by
  obtain ⟨J, hJ, -⟩ := hst.table
  have hvtx : st.vtx.Subperm (n.candidates m) :=
    (sublist_append_left _ _).subperm.trans hst.candidates
  have hplace : ∀ tx ∈ st.vtx, (tx.place env memoryPool).inputs = tx.vin.map (·.prevout) := by
    intro tx htx
    have hcb := (Node.mem_candidates hcons (hvtx.subset htx)).2
    simp [place, spendingInputs, hcb]
  constructor
  · exact nodup_of_subperm hvtx (Node.nodup_candidates hcons hkeys)
  · intro earlier tx later hsplit txin htxin
    rw [hsplit, map_append] at hJ
    obtain ⟨_, hearlier, hJ⟩ := connectAll_append.mp hJ
    obtain ⟨_, htx, -⟩ := connectAll_cons.mp hJ
    obtain ⟨hc, -⟩ := connect_eq_some.mp htx
    have hinput : txin.prevout ∈ (tx.place env memoryPool).inputs := by
      rw [hplace tx (by rw [hsplit]; simp)]
      exact mem_map_of_mem htxin
    rcases slot_connectAll _ hearlier (hc.2.2.2 _ hinput) with ⟨q, hq⟩ | ⟨x, hx, hout⟩
    · refine .inl ⟨output_of_slot_replayChain hI hq, ?_⟩
      rw [← taken_replayChain _ hI]
      intro htaken
      exact hc.not_taken _ hinput ((taken_connectAll _ hearlier).mpr (.inl htaken))
    · obtain ⟨parent, hparent, rfl⟩ := mem_map.mp hx
      exact .inr ⟨parent, hparent, hout⟩
  · have hnodup := (nodup_inputs_connectAll _ hJ).1
    have heq : (st.vtx.map (·.place env memoryPool)).flatMap PlacedTx.inputs
        = st.vtx.flatMap fun tx => tx.vin.map (·.prevout) := by
      rw [flatMap_map]
      exact flatMap_congr hplace
    rwa [heq] at hnodup
  · refine hst.sizeBelow.imp_right fun hlt => ?_
    have := hst.size
    omega
  · have hlt := hst.sigOpsBelow
    have := hst.sigOps
    omega

end Loop

theorem le_uint32 {k : Nat} {x : Int} (hk : (k : Int) ≤ x) (hx : x < 2 ^ 32) : k ≤ uint32 x := by
  unfold uint32
  omega

theorem templateTime_ge {chain : List CBlockIndex} {prev : CBlockIndex} {b : CBlock}
    (hmedian : getMedianTimePast chain + 1 < 2 ^ 32) (hprev : prev.nTime < 2 ^ 32)
    (hvtx : ∀ tx ∈ b.vtx, tx.nTime < 2 ^ 32) :
    ∀ tx ∈ b.vtx, tx.nTime ≤ templateTime chain prev b := by
  have hmax : b.getMaxTransactionTime ≤ 2 ^ 32 - 1 := by
    apply CBlock.getMaxTransactionTime_le_iff.mpr
    intro tx htx
    have := hvtx tx htx
    omega
  have hdrift : pastDrift prev.getBlockTime < 2 ^ 32 := by
    unfold pastDrift CBlockIndex.getBlockTime
    split <;> omega
  intro tx htx
  have hle : tx.nTime ≤ b.getMaxTransactionTime :=
    CBlock.getMaxTransactionTime_le_iff.mp (le_refl _) tx htx
  have hfirst : tx.nTime
      ≤ uint32 (max (getMedianTimePast chain + 1) (b.getMaxTransactionTime : Int)) :=
    le_uint32 (by omega) (by omega)
  have hbound := uint32_lt (max (getMedianTimePast chain + 1) (b.getMaxTransactionTime : Int))
  exact le_uint32 (by omega) (by omega)

/-- **Block templates connect.** What follows the coinbase are distinct transactions that spend,
each output once, unspent outputs of the best chain or of transactions before them, within the
limits on size and signature operations; as long as the times leave room in 32 bits, nothing is
later than the header. -/
theorem Node.createNewBlock_connects {n : Node} {env : Env} {w : World} {m : MinerInput}
    {fProofOfStake : Bool} {template : CBlock} (hcons : n.Consistent env w.disk)
    (hkeys : m.poolKeys.Nodup) (h : n.createNewBlock env w m fProofOfStake = .ok (some template)) :
    ∃ out txs, template.vtx = m.coinbase out :: txs ∧ n.Connects env w m txs ∧
      (getMedianTimePast n.chain.bestChain + 1 < 2 ^ 32 →
        (fProofOfStake = false → w.nAdjustedTime < 2 ^ 32) →
        ∀ tx ∈ template.vtx, tx.nTime ≤ template.nTime) := by
  obtain ⟨out, hashPrev, pindexPrev, _, st, -, hbest, hprev, hqueued, hcollect, hvtx, htime⟩ :=
    createNewBlock_cases h
  obtain ⟨I, hI, hs⟩ := hcons.index
  have hst := collect_connects hcons hkeys hI hs hqueued hcollect
  refine ⟨out, st.vtx, hvtx, hst.result hcons hkeys hI, ?_⟩
  intro hmedian hclock tx htx
  have hchain : n.chain.bestChain = n.chain.mapBlockIndex.chainOf hashPrev := by
    rw [ChainState.bestChain, hbest]
  rw [hchain] at hmedian
  have htimes : ∀ tx ∈ template.vtx, tx.nTime < 2 ^ 32 := by
    intro tx htx
    rw [hvtx] at htx
    rcases mem_cons.mp htx with rfl | htx
    · exact uint32_lt m.nCoinbaseTime
    · exact hcons.txTime (mem_candidates hcons (hst.candidates.subset (mem_append_left _ htx))).1
  have hle := templateTime_ge hmedian (hcons.blockTime hprev) htimes tx htx
  rw [htime]
  cases fProofOfStake with
  | true => exact hle
  | false =>
    have hlt : templateTime (n.chain.mapBlockIndex.chainOf hashPrev) pindexPrev template < 2 ^ 32 :=
      uint32_lt _
    have hclock := hclock rfl
    exact le_uint32 (by omega) (by omega)

/-! ## A parent and its child -/

def spendChild : CTransaction :=
  { spendCoinbase 101 2 with
    vin := [⟨⟨100, 0⟩, [], uint32Max⟩]
    vout := [⟨coin - 2 * cent, [0x51]⟩] }

def parentAndChild : Node :=
  { eightBlocks with mempool :=
    (CTxMemPool.empty.addUnchecked 100 (spendCoinbase 100 2)).addUnchecked 101 spendChild }

theorem consistent_parentAndChild : parentAndChild.Consistent sampleEnv minerWorld.disk := by
  have hpool : ∀ {h tx}, parentAndChild.mempool.mapTx h = some tx →
      h = 101 ∧ tx = spendChild ∨ h = 100 ∧ tx = spendCoinbase 100 2 := by
    intro h tx htx
    change update (update (fun _ => none) 100 (some (spendCoinbase 100 2))) 101
      (some spendChild) h = some tx at htx
    by_cases h1 : h = 101
    · rw [h1] at htx
      exact .inl ⟨h1, (some.inj htx).symm⟩
    rw [update_of_ne h1] at htx
    by_cases h0 : h = 100
    · rw [h0] at htx
      exact .inr ⟨h0, (some.inj htx).symm⟩
    · rw [update_of_ne h0] at htx
      cases htx
  refine ⟨replays_eightBlocks, ?_, ?_, ?_, ?_⟩
  · intro h tx htx
    obtain ⟨rfl, rfl⟩ | ⟨rfl, rfl⟩ := hpool htx <;> rfl
  · intro h tx htx
    obtain ⟨rfl, -⟩ | ⟨rfl, -⟩ := hpool htx <;> decide +kernel
  · intro h tx htx
    obtain ⟨-, rfl⟩ | ⟨-, rfl⟩ := hpool htx <;> decide
  intro h p hp
  have htimes : ∀ p ∈ [8, 7, 6, 5, 4, 3, 2, 1].map chainEntry, p.nTime < 2 ^ 32 := by decide
  change ([8, 7, 6, 5, 4, 3, 2, 1].map chainEntry).find? (·.hashBlock == h) = some p at hp
  exact htimes p (mem_of_find?_eq_some hp)

theorem createNewBlock_connects_child :
    let m := sampleMiner 500000 [100, 101] (sampleTime + 600)
    ∃ template, parentAndChild.createNewBlock sampleEnv minerWorld m false = .ok (some template) ∧
      template.vtx.tail = [spendCoinbase 100 2, spendChild] ∧
      parentAndChild.Connects sampleEnv minerWorld m [spendCoinbase 100 2, spendChild] ∧
      ∀ tx ∈ template.vtx, tx.nTime ≤ template.nTime := by
  intro m
  have hvtx : (parentAndChild.createNewBlock sampleEnv minerWorld m false).map
      (Option.map fun b => b.vtx.tail) = .ok (some [spendCoinbase 100 2, spendChild]) := by
    decide +kernel
  obtain ⟨_, hnew, hsome⟩ := map_eq_ok.mp hvtx
  obtain ⟨template, rfl, htail⟩ := Option.map_eq_some_iff.mp hsome
  obtain ⟨_, txs, hvtx, hconnects, htime⟩ :=
    Node.createNewBlock_connects consistent_parentAndChild (by decide) hnew
  have htxs : txs = [spendCoinbase 100 2, spendChild] := by
    rw [← htail, hvtx]
    rfl
  rw [htxs] at hconnects
  exact ⟨template, hnew, htail, hconnects, htime (by decide +kernel) fun _ => by decide⟩

/-! ## The collecting loop ends -/

section

variable {n : Node} {env : Env} {w : World} {m : MinerInput} {st st' : TemplateState} {f : Bool}
  {pindexPrev : CBlockIndex}

/-- **The collecting loop ends** with an empty queue after a round for each transaction that waits
in the queue or among the orphans. -/
theorem Node.collect_empties {rounds : Nat}
    (hle : st.vecPriority.length + st.vOrphan.length ≤ rounds)
    (h : n.collect env w m f pindexPrev rounds st = .ok st') : st'.vecPriority = [] := by
  induction rounds generalizing st st' with
  | zero =>
    cases h
    exact length_eq_zero_iff.mp (by omega)
  | succ rounds ih =>
    rw [collect] at h
    split at h
    · cases h
      assumption
    rename_i first rest hqueue
    obtain ⟨_, hround, hrest⟩ := bind_eq_ok.mp h
    have hpop : (m.pop st first rest).2.length = rest.length := by
      simpa using (m.pop_perm st first rest).length_eq
    have hlen : st.vecPriority.length = rest.length + 1 := by rw [hqueue]; rfl
    refine ih ?_ hrest
    rcases collectTx_cases hround with ⟨fSorted, rfl⟩ | ⟨fSorted, _, _, -, -, rfl⟩
    · change (m.pop st first rest).2.length + st.vOrphan.length ≤ rounds
      omega
    have hcount := (releaseOrphans_perm (env.txHash (m.pop st first rest).1) st.vOrphan).length_eq
    rw [length_append, length_map, length_map] at hcount
    rw [length_append]
    change (m.pop st first rest).2.length
      + (releaseOrphans (env.txHash (m.pop st first rest).1) st.vOrphan).1.length
      + (releaseOrphans (env.txHash (m.pop st first rest).1) st.vOrphan).2.length ≤ rounds
    omega

end

/-- The child waits for its parent, and is pushed back onto the queue when that is collected. -/
def waitingChild : TemplateState :=
  { (sampleMiner 500000 [] 0).initialState with
    vecPriority := [spendCoinbase 100 2]
    vOrphan := [⟨spendChild, [100]⟩] }

theorem Node.collect_empties_child :
    ∃ st, parentAndChild.collect sampleEnv minerWorld (sampleMiner 500000 [] (sampleTime + 600))
        false (chainEntry 8) 2 waitingChild = .ok st ∧
      st.vtx = [spendCoinbase 100 2, spendChild] ∧ st.vecPriority = [] := by
  have hvtx : (parentAndChild.collect sampleEnv minerWorld
      (sampleMiner 500000 [] (sampleTime + 600)) false (chainEntry 8) 2 waitingChild).map
        TemplateState.vtx = .ok [spendCoinbase 100 2, spendChild] := by decide +kernel
  obtain ⟨st, hst, hvtx⟩ := map_eq_ok.mp hvtx
  exact ⟨st, hst, hvtx, Node.collect_empties (by decide) hst⟩

def youngNode (nTime : Nat) : Node where
  chain := sampleState [{ sampleIndex 1 none 0 1 with nTime := nTime }]
  mempool := CTxMemPool.empty

theorem consistent_youngNode {nTime : Nat} (h : nTime < 2 ^ 32) (d : Disk) :
    (youngNode nTime).Consistent sampleEnv d := by
  have hindex : Replays sampleEnv d (youngNode nTime).chain.db.committedTx [] := by
    refine ⟨∅, rfl, ?_⟩
    intro k
    exact Finmap.lookup_insert_of_ne _ (by simp)
  refine ⟨hindex.root rfl, ?_, ?_, ?_, ?_⟩
  · rintro _ _ ⟨⟩
  · rintro _ _ ⟨⟩
  · rintro _ _ ⟨⟩
  intro k p hp
  have hmem := mem_of_find?_eq_some hp
  rw [mem_singleton.mp hmem]
  exact h

/-- With `-blockmaxsize` below 1000 the empty template is too large. At the end of 32 bits the
header's time falls behind the coinbase's. -/
theorem template_at_its_limits :
    let late : Nat := 2 ^ 32 - 1
    ((youngNode sampleTime).Consistent sampleEnv minerWorld.disk ∧
      ((youngNode sampleTime).createNewBlock sampleEnv minerWorld
        (sampleMiner 0 [] sampleTime) false).map (Option.map fun b => b.vtx.tail)
          = .ok (some []) ∧
      ¬ (([] : List CTransaction).map serializeSize).sum + 1000
        < (sampleMiner 0 [] sampleTime).nBlockMaxSize) ∧
    ((youngNode late).Consistent sampleEnv minerWorld.disk ∧
      ((youngNode late).createNewBlock sampleEnv minerWorld (sampleMiner 500000 [] late) true).map
        (Option.map fun b => (b.vtx.map (·.nTime), b.nTime)) = .ok (some ([late], late - 300))) ∧
    ((youngNode sampleTime).Consistent sampleEnv minerWorld.disk ∧
      ((youngNode sampleTime).createNewBlock sampleEnv
        { minerWorld with nAdjustedTime := 2 ^ 32 } (sampleMiner 500000 [] late) false).map
        (Option.map fun b => (b.vtx.map (·.nTime), b.nTime)) = .ok (some ([late], 0))) := by
  intro late
  have hyoung := consistent_youngNode (by decide : sampleTime < 2 ^ 32) minerWorld.disk
  have hlate := consistent_youngNode (by decide : late < 2 ^ 32) minerWorld.disk
  exact ⟨⟨hyoung, by decide +kernel, by decide⟩, ⟨hlate, by decide +kernel⟩,
    ⟨hyoung, by decide +kernel⟩⟩

end HoboNickels

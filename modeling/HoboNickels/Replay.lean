import HoboNickels.PoolConsistency

/-!
# The transaction index is the replay of the main chain

`replayChain` connects the blocks of a chain, as the block files hold them, to an empty index. A
call of `SetBestChain` that starts with the committed index equal to the replay of the committed
best chain ends with it, wherever it fails (`setBestChain_replays`).
-/

namespace HoboNickels

open Fallible WriteBatch ParentChain List BlockMap TxTable CBlockIndex

variable {env : Env} {w : World} {d : Disk}

/-- The transactions of a block, at their places in the block files. The genesis block is not
connected and has none. -/
def CBlockIndex.placed (env : Env) (d : Disk) (p : CBlockIndex) : List PlacedTx :=
  match p.pprev with
  | none => []
  | some _ => ((d.block p.nFile p.nBlockPos).map (fun b => b.place env p)).getD []

/-- The index after connecting the blocks of a chain, given tip first, to an empty index. -/
def replayChain (env : Env) (d : Disk) (chain : List CBlockIndex) : Option TxTable :=
  TxTable.replay (chain.reverse.map (placed env d))

variable {p pindexNew tip : CBlockIndex} {b : CBlock} {chain : List CBlockIndex} {I : TxTable}
  {s s' : ChainState} {n n' : Node}

variable {h : Uint256}

theorem CBlockIndex.placed_eq (hp : p.pprev = some h) (hb : d.block p.nFile p.nBlockPos = some b) :
    p.placed env d = b.place env p := by
  rw [placed, hp, hb]
  rfl

theorem replayChain_cons {J : TxTable} : replayChain env d (p :: chain) = some J ↔
      ∃ I, replayChain env d chain = some I ∧ I.connectAll (p.placed env d) = some J := by
  unfold replayChain replay
  rw [reverse_cons, map_append, flatten_append, connectAll_append]
  simp only [map_cons, map_nil, flatten_cons, flatten_nil, append_nil]

theorem canonical_replayChain (h : replayChain env d chain = some I) : I.Canonical :=
  canonical_connectAll _ h canonical_empty

theorem stored_replayChain (h : replayChain env d chain = some I) : I.Stored := by
  refine stored_connectAll _ h ?_ (fun k t ht => by cases ht)
  intro x hx
  obtain ⟨placed, hplaced, hx⟩ := mem_flatten.mp hx
  obtain ⟨p, -, rfl⟩ := mem_map.mp hplaced
  unfold placed at hx
  split at hx
  · cases hx
  cases hb : d.block p.nFile p.nBlockPos with
  | none =>
    rw [hb] at hx
    cases hx
  | some b =>
    rw [hb] at hx
    exact CBlock.pos_ne_memoryPool x hx

def chainIds (env : Env) (d : Disk) (chain : List CBlockIndex) : List Uint256 :=
  chain.flatMap (fun p => (p.placed env d).map PlacedTx.hash)

theorem isSome_lookup_replayChain (chain : List CBlockIndex) :
    ∀ {I : TxTable}, replayChain env d chain = some I →
      ((I.lookup h).isSome ↔ h ∈ chainIds env d chain) := by
  induction chain with
  | nil =>
    intro I hI
    cases hI
    simp [chainIds]
  | cons p chain ih =>
    intro J hJ
    obtain ⟨I, hI, hIJ⟩ := replayChain_cons.mp hJ
    rw [isSome_lookup_connectAll _ hIJ, ih hI, or_comm]
    unfold chainIds
    rw [flatMap_cons, mem_append]

def chainInputs (env : Env) (d : Disk) (chain : List CBlockIndex) : List COutPoint :=
  chain.flatMap (fun p => (p.placed env d).flatMap PlacedTx.inputs)

theorem taken_replayChain {o : COutPoint} (chain : List CBlockIndex) :
    ∀ {I : TxTable}, replayChain env d chain = some I →
      (I.Taken o ↔ o ∈ chainInputs env d chain) := by
  induction chain with
  | nil =>
    intro I hI
    cases hI
    simp [chainInputs, not_taken_empty]
  | cons p chain ih =>
    intro J hJ
    obtain ⟨I, hI, hIJ⟩ := replayChain_cons.mp hJ
    rw [taken_connectAll _ hIJ, ih hI, or_comm]
    simp [chainInputs]

theorem output_of_slot_replayChain {o : COutPoint}
    {pos : CDiskTxPos} (h : replayChain env d chain = some I) (hslot : I.slot o = some pos) :
    ∃ p ∈ chain, ∃ x ∈ p.placed env d, x.hash = o.hash ∧ o.n < x.nOutputs := by
  rcases slot_connectAll _ h hslot with ⟨q, hq⟩ | ⟨x, hx, hout⟩
  · obtain ⟨t, ht, -⟩ := slot_eq_some.mp hq
    cases ht
  · obtain ⟨placed, hplaced, hx⟩ := mem_flatten.mp hx
    obtain ⟨p, hp, rfl⟩ := mem_map.mp hplaced
    exact ⟨p, mem_reverse.mp hp, x, hx, hout⟩

/-- No transaction of the chain repeats one below it, unless an input of it is spent there. -/
def NoRepeats (env : Env) (d : Disk) (chain : List CBlockIndex) : Prop :=
  ∀ p below, p :: below <:+ chain → ∀ x ∈ p.placed env d,
    x.hash ∉ chainIds env d below ∨ ∃ o ∈ x.inputs, o ∈ chainInputs env d below

theorem NoRepeats.suffix {chain' : List CBlockIndex} (h : NoRepeats env d chain)
    (hsuffix : chain' <:+ chain) : NoRepeats env d chain' :=
  fun p below hbelow => h p below (hbelow.trans hsuffix)

theorem NoRepeats.of_nodup (h : (chainIds env d chain).Nodup) : NoRepeats env d chain := by
  rintro p _ ⟨_, rfl⟩ x hx
  simp only [chainIds, flatMap_append, flatMap_cons] at h
  have hbelow := (nodup_append.mp (nodup_append.mp h).2.1).2.2
  exact .inl fun hmem => hbelow x.hash (mem_map_of_mem hx) x.hash hmem rfl

def Replays (env : Env) (d : Disk) (look : Uint256 → Option CTxIndex) (chain : List CBlockIndex) :
    Prop :=
  ∃ I, replayChain env d chain = some I ∧ Shows look I

variable {mempool : Uint256 → Option CTransaction}

theorem Replays.connectBlock (hrep : Replays env d s.db.readTxIndex chain)
    (hconn : s.connectBlock env w mempool b p = .ok s') (hp : p.pprev = some h)
    (hfile : openBlockFile p.nFile = true) (hb : d.block p.nFile p.nBlockPos = some b)
    (hnew : NoRepeats env d (p :: chain)) : Replays env d s'.db.readTxIndex (p :: chain) := by
  obtain ⟨I, hI, hs⟩ := hrep
  have hplaced : p.placed env d = b.place env p := placed_eq hp hb
  have hfresh : ∀ tx ∈ b.vtx, tx.NewTo env I := by
    intro tx htx
    obtain ⟨x, hx, hhash, hinputs⟩ := mem_placeTxs env p.nFile p.nBlockPos
      (firstTxPos p.nBlockPos b) htx
    rw [CTransaction.NewTo, ← Option.not_isSome_iff_eq_none, isSome_lookup_replayChain chain hI,
      ← hhash, ← hinputs]
    refine (hnew p chain (suffix_refl _) x (hplaced ▸ hx)).imp_right ?_
    rintro ⟨o, ho, hspent⟩
    exact ⟨o, ho, (taken_replayChain chain hI).mpr hspent⟩
  obtain ⟨J, hJ, hsJ⟩ := connectBlock_connects hconn hfile hs (canonical_replayChain hI) hfresh
  refine ⟨J, replayChain_cons.mpr ⟨I, hI, ?_⟩, hsJ⟩
  rw [hplaced]
  exact hJ

theorem Replays.disconnectBlock (hrep : Replays env d s.db.readTxIndex (p :: chain))
    (hdisc : s.disconnectBlock env b p = .ok s') (hp : p.pprev = some h)
    (hb : d.block p.nFile p.nBlockPos = some b) : Replays env d s'.db.readTxIndex chain := by
  obtain ⟨J, hJ, hs⟩ := hrep
  obtain ⟨I, hI, hIJ⟩ := replayChain_cons.mp hJ
  rw [placed_eq hp hb] at hIJ
  have hs' := disconnectBlock_undoes hdisc hs
  rw [undoAll_connectAll _ hIJ] at hs'
  exact ⟨I, hI, hs'⟩

/-! ## Reorganising -/

theorem Replays.disconnectBlocks {above below : List CBlockIndex}
    {vResurrect : List CTransaction} (hrep : Replays env w.disk s.db.readTxIndex (above ++ below))
    (hparent : ∀ x ∈ above, ∃ p, x.pprev = some p)
    (h : s.disconnectBlocks env w above = (s', .ok vResurrect)) :
    Replays env w.disk s'.db.readTxIndex below := by
  obtain ⟨rest, ⟨hrest, -⟩, hdone⟩ := disconnectBlocks_induct
    (fun s rest => Replays env w.disk s.db.readTxIndex (rest ++ below) ∧
      ∀ x ∈ rest, ∃ p, x.pprev = some p)
    (by
      rintro s s' pindex rest b ⟨hrep, hparent⟩ hread hdisc
      obtain ⟨p, hp⟩ := hparent pindex mem_cons_self
      exact ⟨Replays.disconnectBlock hrep hdisc hp (World.readBlock_eq_some hread).2.1,
        fun x hx => hparent x (mem_cons_of_mem pindex hx)⟩)
    above s s' _ ⟨hrep, hparent⟩ h
  obtain rfl := hdone ⟨vResurrect, rfl⟩
  exact hrest

theorem foldlM_disconnectInput_total (l : List CTxIn) : ∀ {db : CTxDB} {J : TxTable},
    Shows db.readTxIndex J → (∀ txin ∈ l, (J.slot txin.prevout).isSome) →
      ∃ db', l.foldlM disconnectInput db = .ok db' := by
  induction l with
  | nil => exact fun _ _ => ⟨_, rfl⟩
  | cons txin l ih =>
    intro db J hs hslots
    obtain ⟨q, hq⟩ := Option.isSome_iff_exists.mp (hslots txin mem_cons_self)
    obtain ⟨t, ht, hn⟩ := slot_eq_some.mp hq
    obtain ⟨hlt, -⟩ := List.getElem?_eq_some_iff.mp hn
    have hstep : disconnectInput db txin = .ok _ := bind_eq_ok.mpr
      ⟨t, demand_eq_ok.mpr ((hs _).trans ht), bind_eq_ok.mpr ⟨(), by simp [hlt], rfl⟩⟩
    obtain ⟨db', hrest⟩ := ih (disconnectInput_ok hs hstep) fun txin' hmem => by
      have := hslots txin' (mem_cons_of_mem _ hmem)
      rw [slot_mark]
      split <;> simp [*]
    exact ⟨db', by rw [foldlM_cons, hstep]; exact hrest⟩

theorem foldlM_disconnectInputs_total {f q : Nat} (txs : List CTransaction) :
    ∀ {k : Nat} {db : CTxDB} {I J : TxTable}, Shows db.readTxIndex J →
      I.connectAll (placeTxs env f q k txs) = some J →
      ∃ db', txs.reverse.foldlM (disconnectInputs env) db = .ok db' ∧ Shows db'.readTxIndex I := by
  induction txs with
  | nil =>
    rintro k db I J hs ⟨⟩
    exact ⟨db, rfl, hs⟩
  | cons tx rest ih =>
    intro k db I J hs hJ
    obtain ⟨I1, h1, h2⟩ := connectAll_cons.mp hJ
    obtain ⟨db1, hrest, hs1⟩ := ih hs h2
    obtain ⟨hc, rfl⟩ := connect_eq_some.mp h1
    obtain ⟨db2, hinputs⟩ := foldlM_disconnectInput_total tx.spendingInputs hs1 fun txin hmem => by
      have hin : txin.prevout ∈ (tx.place env ⟨f, q, k⟩).inputs := mem_map_of_mem hmem
      rw [slot_apply, if_neg (hc.input_ne _ hin), if_pos hin, hc.2.2.2 _ hin]
      rfl
    have htx : disconnectInputs env db1 tx = .ok _ := bind_eq_ok.mpr ⟨db2, hinputs, rfl⟩
    refine ⟨_, ?_, undo_connect h1 ▸ disconnectInputs_ok hs1 htx ⟨f, q, k⟩⟩
    rw [reverse_cons, foldlM_append, hrest]
    exact bind_eq_ok.mpr ⟨_, rfl, bind_eq_ok.mpr ⟨_, htx, rfl⟩⟩

/-- **Disconnecting fails at an unreadable block only.** When the index is the replay of the chain,
the first loop of `Reorganize` succeeds and leaves the replay of the blocks below, unless it meets
the genesis block or a block that cannot be read. -/
theorem disconnectBlocks_total {above below : List CBlockIndex}
    (hrep : Replays env w.disk s.db.readTxIndex (above ++ below)) :
    (∃ x ∈ above, x.pprev = none ∨ w.readBlock env x = none) ∨ ∃ s' vResurrect,
      s.disconnectBlocks env w above = (s', .ok vResurrect) ∧
        Replays env w.disk s'.db.readTxIndex below := by
  induction above generalizing s with
  | nil => exact .inr ⟨s, [], rfl, hrep⟩
  | cons x above ih =>
    rcases hp : x.pprev with _ | h
    · exact .inl ⟨x, mem_cons_self, .inl hp⟩
    rcases hread : w.readBlock env x with _ | b
    · exact .inl ⟨x, mem_cons_self, .inr hread⟩
    have hb := (World.readBlock_eq_some hread).2.1
    obtain ⟨J, hJ, hs⟩ := id hrep
    obtain ⟨I, -, hIJ⟩ := replayChain_cons.mp hJ
    rw [placed_eq hp hb] at hIJ
    obtain ⟨db, hdb, -⟩ := foldlM_disconnectInputs_total b.vtx hs hIJ
    have hdisc : s.disconnectBlock env b x = .ok _ := bind_eq_ok.mpr ⟨db, hdb, rfl⟩
    rcases ih (Replays.disconnectBlock hrep hdisc hp hb) with
      ⟨y, hy, hstop⟩ | ⟨s', v, hloop, hbelow⟩
    · exact .inl ⟨y, mem_cons_of_mem x hy, hstop⟩
    · refine .inr ⟨s', v ++ b.resurrect env x, ?_, hbelow⟩
      simp only [ChainState.disconnectBlocks, hread, hdisc, hloop]

/-- The index has what the replay has for the ids of the chain, and nothing else. -/
theorem Replays.of_ids {look : Uint256 → Option CTxIndex} (ids : List Uint256)
    (hids : chainIds env d chain = ids)
    (hsame : (replayChain env d chain).map (fun I => ids.map I.lookup) = some (ids.map look))
    (hother : ∀ k ∉ ids, look k = none) : Replays env d look chain := by
  obtain ⟨I, hI, hlookup⟩ := Option.map_eq_some_iff.mp hsame
  refine ⟨I, hI, ?_⟩
  intro k
  by_cases hk : k ∈ ids
  · exact (map_inj_left.mp hlookup k hk).symm
  have hnone : I.lookup k = none := by
    rw [← Option.not_isSome_iff_eq_none, isSome_lookup_replayChain _ hI, hids]
    exact hk
  rw [hnone, hother k hk]

def minerWorld : World := nineWorld (spendCoinbase 100 2)

theorem replays_eightBlocks : Replays sampleEnv minerWorld.disk eightBlocks.chain.db.committedTx
    eightBlocks.chain.bestChain := by
  refine .of_ids [8, 7, 6, 5, 4, 3, 2] (by decide +kernel) (by decide +kernel) ?_
  intro k hk
  have hkeys : eightBlocks.chain.db.committed.keys = {.hashBestChain, .tx 2, .tx 3, .tx 4,
      .tx 5, .tx 6, .tx 7, .tx 8} := by decide +kernel
  refine Finmap.lookup_eq_none.mpr ?_
  rw [← Finmap.mem_keys, hkeys]
  simpa [not_or, and_comm, and_assoc, and_left_comm] using hk

/-- Block 9, which spends the coinbase of block 2, and block 8 are disconnected. -/
theorem disconnectBlocks_total_nine :
    ∃ s, eightBlocks.chain.connectBlock sampleEnv minerWorld (fun _ => none)
        (blockNine (spendCoinbase 100 2)) (chainEntry 9) = .ok s ∧
      spentIn s.db.readTxIndex ⟨2, 0⟩ = true ∧
      ∃ s' vResurrect, s.disconnectBlocks sampleEnv minerWorld [chainEntry 9, chainEntry 8]
          = (s', .ok vResurrect) ∧
        Replays sampleEnv minerWorld.disk s'.db.readTxIndex
          ([7, 6, 5, 4, 3, 2, 1].map chainEntry) := by
  have hspent : (eightBlocks.chain.connectBlock sampleEnv minerWorld (fun _ => none)
      (blockNine (spendCoinbase 100 2)) (chainEntry 9)).map
        (fun s => spentIn s.db.readTxIndex ⟨2, 0⟩) = .ok true := by decide +kernel
  obtain ⟨s, hconn, hspent⟩ := map_eq_ok.mp hspent
  have hchain : eightBlocks.chain.bestChain = [8, 7, 6, 5, 4, 3, 2, 1].map chainEntry := by
    decide +kernel
  have hbelow : Replays sampleEnv minerWorld.disk eightBlocks.chain.db.readTxIndex
      ([8, 7, 6, 5, 4, 3, 2, 1].map chainEntry) := hchain ▸ replays_eightBlocks
  have hrep : Replays sampleEnv minerWorld.disk s.db.readTxIndex
      ([chainEntry 9, chainEntry 8] ++ [7, 6, 5, 4, 3, 2, 1].map chainEntry) :=
    Replays.connectBlock (h := 8) hbelow hconn rfl (by decide) rfl
      (.of_nodup (by decide +kernel))
  exact ⟨s, hconn, hspent, (disconnectBlocks_total hrep).resolve_left (by decide +kernel)⟩

theorem Replays.connectBlocks {branch below : List CBlockIndex} {vDelete : List CTransaction}
    (hrep : Replays env w.disk s.db.readTxIndex below)
    (hparent : ∀ x ∈ branch, ∃ p, x.pprev = some p)
    (hnew : NoRepeats env w.disk (branch.reverse ++ below))
    (h : s.connectBlocks env w mempool branch = (s', .ok vDelete)) :
    Replays env w.disk s'.db.readTxIndex (branch.reverse ++ below) := by
  -- the blocks connected so far, on top of those below
  obtain ⟨rest, ⟨done, hrep', hsplit, -⟩, hdone⟩ := connectBlocks_induct
    (fun s rest => ∃ done, Replays env w.disk s.db.readTxIndex done ∧
      rest.reverse ++ done = branch.reverse ++ below ∧ ∀ x ∈ rest, ∃ p, x.pprev = some p)
    (by
      rintro s s' pindex rest b ⟨done, hrep, hsplit, hparent⟩ hread hconn
      obtain ⟨p, hp⟩ := hparent pindex mem_cons_self
      obtain ⟨hfile, hdisk, -⟩ := World.readBlock_eq_some hread
      have hsplit' : rest.reverse ++ pindex :: done = branch.reverse ++ below := by
        rw [← hsplit, reverse_cons, append_assoc, singleton_append]
      refine ⟨pindex :: done, hrep.connectBlock hconn hp hfile hdisk ?_, hsplit',
        fun x hx => hparent x (mem_cons_of_mem pindex hx)⟩
      exact hnew.suffix ⟨rest.reverse, hsplit'⟩)
    branch s s' _ ⟨below, hrep, rfl, hparent⟩ h
  obtain rfl := hdone ⟨vDelete, rfl⟩
  rw [← hsplit]
  exact hrep'

theorem Replays.reorganized {best : CBlockIndex} (wf : n.chain.mapBlockIndex.WellFormed)
    (hrep : Replays env w.disk n.chain.db.readTxIndex
      (n.chain.mapBlockIndex.chainOf best.hashBlock))
    (hrepeats : NoRepeats env w.disk (n.chain.mapBlockIndex.chainOf pindexNew.hashBlock))
    (h : Reorganized env w n n' best pindexNew) :
    Replays env w.disk n'.chain.db.committedTx
      (n.chain.mapBlockIndex.chainOf pindexNew.hashBlock) := by
  obtain ⟨pfork, _, _, _, _, hold, hnew, -, hdisc, hconn, hn'⟩ := h.loops
  rw [chainOf_split wf hold] at hrep
  have hfork := hrep.disconnectBlocks (fun x hx => (aboveFork_parent wf hold x hx).2) hdisc
  rw [chainOf_split wf hnew] at hrepeats ⊢
  rw [← reverse_reverse (aboveFork pfork (n.chain.mapBlockIndex.chainOf pindexNew.hashBlock))]
    at hrepeats ⊢
  obtain ⟨I, hI, hs⟩ := hfork.connectBlocks (fun x hx =>
    (aboveFork_parent wf hnew x (mem_reverse.mp hx)).2) hrepeats hconn
  refine ⟨I, hI, ?_⟩
  intro k
  rw [hn', Node.chain_finishReorganize]
  exact (CTxDB.committedTx_commit _ _ k).trans (hs k)

/-! ## Attaching -/

theorem Replays.txnBegin (h : Replays env d n.chain.db.committedTx chain) :
    Replays env d n.txnBegin.chain.db.readTxIndex chain := by
  obtain ⟨I, hI, hs⟩ := h
  exact ⟨I, hI, fun k => (CTxDB.readTxIndex_txnBegin _ k).trans (hs k)⟩

theorem Replays.attached (wf : n.chain.mapBlockIndex.WellFormed)
    (hrep : Replays env d n.chain.db.readTxIndex (n.chain.mapBlockIndex.chainOf tip.hashBlock))
    (hrepeats : NoRepeats env d (n.chain.mapBlockIndex.chainOf pindexNew.hashBlock))
    (hnew : n.chain.mapBlockIndex.Indexed pindexNew) (hprev : pindexNew.pprev = some tip.hashBlock)
    (hfile : openBlockFile pindexNew.nFile = true)
    (hdisk : d.block pindexNew.nFile pindexNew.nBlockPos = some b)
    (h : Attached env w n n' b tip pindexNew) :
    Replays env d n'.chain.db.committedTx (n.chain.mapBlockIndex.chainOf pindexNew.hashBlock) := by
  obtain ⟨_, hconn, hdb⟩ := h.connected
  rw [chainOf_pprev wf hnew hprev] at hrepeats ⊢
  obtain ⟨I, hI, hs⟩ := hrep.connectBlock hconn hprev hfile hdisk hrepeats
  exact ⟨I, hI, fun k => (hdb (.tx k) (by simp)).trans (hs k)⟩

theorem Replays.connectFurther {n0 : Node} {best : CBlockIndex}
    {rest : List CBlockIndex} {r : Option String} (wf : n0.chain.mapBlockIndex.WellFormed)
    (hrepeats : NoRepeats env w.disk (n0.chain.mapBlockIndex.chainOf pindexNew.hashBlock))
    (hat : Attaching n0 best pindexNew n rest tip) (hrep : Replays env w.disk n.chain.db.committedTx
      (n0.chain.mapBlockIndex.chainOf tip.hashBlock))
    (h : Node.connectFurther env w rest n = (n', r)) :
    ∃ rest' tip', Attaching n0 best pindexNew n' rest' tip' ∧
      Replays env w.disk n'.chain.db.committedTx
        (n0.chain.mapBlockIndex.chainOf tip'.hashBlock) := by
  obtain ⟨rest', ⟨tip', hat', hrep'⟩, -⟩ := Node.connectFurther_induct
    (fun n rest => ∃ tip, Attaching n0 best pindexNew n rest tip ∧
      Replays env w.disk n.chain.db.committedTx (n0.chain.mapBlockIndex.chainOf tip.hashBlock))
    (by
      rintro n n1 pindex rest b ⟨tip, hat, hrep⟩ hread hin
      obtain ⟨hat1, hatt⟩ := (hat.setBestChainInner wf hread hin).1 rfl
      obtain ⟨hfile, hdisk, -⟩ := World.readBlock_eq_some hread
      have hmap : n.txnBegin.chain.mapBlockIndex = n0.chain.mapBlockIndex :=
        hat.memory.mapBlockIndex
      refine ⟨pindex, hat1, ?_⟩
      have hrepeats' := hrepeats.suffix
        (chainOf_getLast wf rest pindex hat1.indexed hat1.chain hat1.last)
      have hread' := hrep.txnBegin
      rw [← hmap] at hread' hrepeats' wf ⊢
      refine hread'.attached wf hrepeats' ?_ (isChain_cons_cons.mp hat.chain).1 hfile hdisk hatt
      rw [hmap]
      exact hat.indexed pindex mem_cons_self)
    (by
      rintro n n1 pindex rest b _ ⟨tip, hat, hrep⟩ hread hin hne
      obtain ⟨hat1, hun, -⟩ := (hat.setBestChainInner wf hread hin).2 hne
      exact ⟨tip, hat1, hun.committedTx ▸ hrep⟩)
    rest n n' r ⟨tip, hat, hrep⟩ h
  exact ⟨rest', tip', hat', hrep'⟩

/-! ## SetBestChain -/

def ChainState.committedChain (s : ChainState) : List CBlockIndex :=
  match s.db.committedBest with
  | none => []
  | some h => s.mapBlockIndex.chainOf h

def IndexIsReplay (env : Env) (d : Disk) (s : ChainState) : Prop :=
  Replays env d s.db.committedTx s.committedChain

theorem TipAt.committedChain_eq (h : TipAt s tip) :
    s.committedChain = s.mapBlockIndex.chainOf tip.hashBlock := by
  rw [ChainState.committedChain, h.committed]

theorem IndexIsReplay.unmoved (h : IndexIsReplay env d s)
    (hun : Unmoved s s') : IndexIsReplay env d s' := by
  unfold IndexIsReplay ChainState.committedChain at h ⊢
  rw [hun.committedTx, hun.committedBest, hun.memory.mapBlockIndex]
  exact h

variable {look : Uint256 → Option CTxIndex}

theorem Replays.root
    (h : Replays env d look []) (hp : p.pprev = none) : Replays env d look [p] := by
  obtain ⟨I, hI, hs⟩ := h
  refine ⟨I, replayChain_cons.mpr ⟨I, hI, ?_⟩, hs⟩
  rw [placed, hp]
  rfl

theorem Replays.nodup_inputs (h : Replays env d look chain) :
    ((chain.reverse.map (placed env d)).flatten.flatMap PlacedTx.inputs).Nodup := by
  obtain ⟨I, hI, -⟩ := h
  exact (nodup_inputs_connectAll _ hI).1

theorem IndexIsReplay.setBestChain
    {outcome : Outcome} (hset : Settled env n) (hrep : IndexIsReplay env w.disk n.chain)
    (hfor : BlockFor env n.chain.mapBlockIndex b pindexNew)
    (hfile : openBlockFile pindexNew.nFile = true)
    (hdisk : w.disk.block pindexNew.nFile pindexNew.nBlockPos = some b)
    (hrepeats : NoRepeats env w.disk (n.chain.mapBlockIndex.chainOf pindexNew.hashBlock))
    (h : n.setBestChain env w b pindexNew = (n', outcome)) :
    IndexIsReplay env w.disk n'.chain ∧
      (outcome = .returned false → n'.chain.db.committedTx = n.chain.db.committedTx) := by
  have hat : ∀ {s : ChainState} {tip : CBlockIndex}, TipAt s tip →
      s.mapBlockIndex = n.chain.mapBlockIndex →
      Replays env w.disk s.db.committedTx (n.chain.mapBlockIndex.chainOf tip.hashBlock) →
      IndexIsReplay env w.disk s := by
    intro s tip htip hmap hreplays
    unfold IndexIsReplay
    rw [htip.committedChain_eq, hmap]
    exact hreplays
  rcases hset.best with hunset | ⟨best, htip⟩
  · obtain ⟨-, hun | ⟨hroot, htip, -, hmap, -, hdb, -⟩⟩ := hunset.setBestChain_cases hset hfor h
    · exact ⟨hrep.unmoved hun.toUnmoved, fun _ => hun.committedTx⟩
    · have htx : n'.chain.db.committedTx = n.chain.db.committedTx :=
        funext fun k => hdb (.tx k) (by simp)
      refine ⟨hat htip.toTipAt hmap ?_, fun _ => htx⟩
      unfold IndexIsReplay ChainState.committedChain at hrep
      rw [hunset.committed] at hrep
      rw [htx, chainOf_root hset.index hfor.indexed hroot]
      exact hrep.root hroot
  have hstart : Replays env w.disk n.chain.db.committedTx
      (n.chain.mapBlockIndex.chainOf best.hashBlock) := by
    rw [← htip.toTipAt.committedChain_eq]
    exact hrep
  rcases Node.setBestChain_cases hset.index hset.noBatch htip.indexed htip.pindexBest
      htip.hashBestChain htip.pindexGenesisBlock hfor h with
    ⟨-, hun, -⟩ | ⟨hout, hprev, n1, hin, rfl⟩ |
    ⟨n1, n2, r, hbegin, -, hreorg, hfurther, hsome, hnone⟩
  · exact ⟨hrep.unmoved hun.toUnmoved, fun _ => hun.committedTx⟩
  · rcases Node.setBestChainInner_cases (n := n.txnBegin) hset.index rfl htip.indexed
        hfor.indexed hprev hfor.hash hin with ⟨-, hatt⟩ | ⟨hne, -⟩
    · have hreplays := hstart.txnBegin.attached (n := n.txnBegin) hset.index hrepeats hfor.indexed
        hprev hfile hdisk hatt
      refine ⟨?_, fun hfalse => by rw [hout] at hfalse; cases hfalse⟩
      exact hat ⟨hatt.tipAt.indexed, hatt.tipAt.committed⟩ hatt.memory.mapBlockIndex hreplays
    · exact absurd rfl hne
  · obtain ⟨hattaching, hre⟩ := Attaching.start hset htip hfor.indexed hreorg
    have hinter := hstart.txnBegin.reorganized (n := n.txnBegin) hset.index
      (hrepeats.suffix (chainOf_getLast hset.index _ _ hattaching.indexed hattaching.chain
        hattaching.last)) hre
    obtain ⟨_, tip, hend, hreplays⟩ :=
      hinter.connectFurther hset.index hrepeats hattaching hfurther
    have hmap := hend.memory.mapBlockIndex
    cases r with
    | some message =>
      obtain ⟨rfl, rfl⟩ := hsome message rfl
      exact ⟨hat hend.tipAt hmap hreplays, fun hfalse => by cases hfalse⟩
    | none =>
      obtain ⟨rfl, rfl⟩ := hnone rfl
      exact ⟨hat ⟨hend.tipAt.indexed, hend.tipAt.committed⟩ hmap
        hreplays, fun hfalse => by cases hfalse⟩

/-- **The index is the replay of the main chain.** Wherever a call of `SetBestChain` fails, the
committed index is again the replay of the committed best chain. So no outpoint is spent twice; and
a call that returns `false`, or a reorganisation that fails, leaves the index as it was. -/
theorem setBestChain_replays {n n' : Node} {b : CBlock} {pindexNew : CBlockIndex}
    {outcome : Outcome} (hset : Settled env n) (hrep : IndexIsReplay env w.disk n.chain)
    (hfor : BlockFor env n.chain.mapBlockIndex b pindexNew)
    (hfile : openBlockFile pindexNew.nFile = true)
    (hdisk : w.disk.block pindexNew.nFile pindexNew.nBlockPos = some b)
    (hids : (chainIds env w.disk (n.chain.mapBlockIndex.chainOf pindexNew.hashBlock)).Nodup)
    (h : n.setBestChain env w b pindexNew = (n', outcome)) :
    IndexIsReplay env w.disk n'.chain ∧
      ((n'.chain.committedChain.reverse.map (placed env w.disk)).flatten.flatMap
        PlacedTx.inputs).Nodup ∧
      (outcome = .returned false → n'.chain.db.committedTx = n.chain.db.committedTx) ∧
      ∀ pindex n₁ e, n.chain.mapBlockIndex.Indexed pindex →
        n.txnBegin.reorganize env w pindex = (n₁, .error e) →
        n₁.txnAbort.chain.db.committedTx = n.chain.db.committedTx := by
  obtain ⟨hrep', hfalse⟩ := hrep.setBestChain hset hfor hfile hdisk (.of_nodup hids) h
  exact ⟨hrep', Replays.nodup_inputs hrep', hfalse,
    fun pindex n₁ e _ hreorg => (Node.reorganize_error hreorg).1⟩

theorem setBestChain_replays_branches :
    let result := twoBranches.setBestChain sampleEnv (minedWorld 5) (minedBlock 5 4 2)
      (twoBranches.chain.entry 5)
    result.2 = .returned true ∧ result.1.chain.db.committedTx 2 = none ∧
      result.1.chain.db.committedTx 5 ≠ none ∧
      IndexIsReplay sampleEnv (minedWorld 5).disk result.1.chain ∧
      ((result.1.chain.committedChain.reverse.map
        (placed sampleEnv (minedWorld 5).disk)).flatten.flatMap
          PlacedTx.inputs).Nodup ∧
      (result.2 = .returned false →
        result.1.chain.db.committedTx = twoBranches.chain.db.committedTx) ∧
      ∀ pindex n₁ e, twoBranches.chain.mapBlockIndex.Indexed pindex →
        twoBranches.txnBegin.reorganize sampleEnv (minedWorld 5) pindex = (n₁, .error e) →
        n₁.txnAbort.chain.db.committedTx = twoBranches.chain.db.committedTx := by
  have hrep : IndexIsReplay sampleEnv (minedWorld 5).disk twoBranches.chain := by
    refine .of_ids [2] (by decide +kernel) (by decide +kernel) ?_
    intro k hk
    have hkeys : twoBranches.chain.db.committed.keys = {.blockIndex 1, .blockIndex 2,
        .blockIndex 4, .blockIndex 5, .hashBestChain, .tx 2} := by decide +kernel
    refine Finmap.lookup_eq_none.mpr ?_
    rw [← Finmap.mem_keys, hkeys]
    simpa using hk
  have hfor : BlockFor sampleEnv twoBranches.chain.mapBlockIndex (minedBlock 5 4 2)
      (twoBranches.chain.entry 5) := ⟨by decide +kernel, by decide +kernel, by decide +kernel⟩
  exact ⟨by decide +kernel, by decide +kernel, by decide +kernel,
    setBestChain_replays inSync_twoBranches.toSettled hrep hfor (by decide +kernel)
      (by decide +kernel) (by decide +kernel) rfl⟩

end HoboNickels

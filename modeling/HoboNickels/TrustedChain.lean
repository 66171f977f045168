import HoboNickels.LoadIndex
import HoboNickels.SyncCheckpoint

/-!
# Blocks connected without script checks

`ConnectBlock` does not run the scripts of a block below the height of the last hardened checkpoint,
or that of the synchronized checkpoint if it is higher, as such a block is on the chain of a
checkpoint. For the synchronized checkpoint this is so. Below the last hardened checkpoint nothing
but the hashes at the checkpoints' own heights is compared, and a branch that has not come to one
yet is connected without its scripts (`forged_branch_skips_scripts`). `skipped_scripts_trusted` is
about the runs without such a branch. The functions `...Contexts` list the contexts in which a call
hands blocks to `ConnectBlock`.
-/

namespace HoboNickels

open Fallible WriteBatch ParentChain List BlockMap ChainState Node Relation ReflTransGen SyncCall

variable {env : Env} {w wPending : World}

def ChainState.connectBlocksContexts (env : Env) (w : World)
    (mempool : Uint256 → Option CTransaction) :
    List CBlockIndex → ChainState → List BlockContext
  | [], _ => []
  | pindex :: rest, s =>
    match w.readBlock env pindex with
    | none => []
    | some block =>
      s.blockContext env w mempool pindex ::
        match s.connectBlock env w mempool block pindex with
        | .error _ => []
        | .ok s₁ => connectBlocksContexts env w mempool rest s₁

namespace Node

variable (n : Node) (env : Env) (w : World)

def reorganizeContexts (pindexNew : CBlockIndex) : List BlockContext :=
  let chainNew := n.chain.mapBlockIndex.chainOf pindexNew.hashBlock
  match findFork n.chain.bestChain chainNew with
  | none => []
  | some pfork =>
    match n.chain.disconnectBlocks env w (aboveFork pfork n.chain.bestChain) with
    | (_, .error _) => []
    | (s₁, .ok _) =>
      s₁.connectBlocksContexts env w n.mempool.mapTx (aboveFork pfork chainNew).reverse

def connectFurtherContexts (env : Env) (w : World) : List CBlockIndex → Node → List BlockContext
  | [], _ => []
  | pindex :: rest, n =>
    match w.readBlock env pindex with
    | none => []
    | some block =>
      if w.txnBeginOk (.inner pindex.hashBlock) then
        n.txnBegin.chain.blockContext env w n.mempool.mapTx pindex ::
          match n.txnBegin.setBestChainInner env w block pindex with
          | (n₁, .returned true) => connectFurtherContexts env w rest n₁
          | _ => []
      else []

def setBestChainContexts (b : CBlock) (pindexNew : CBlockIndex) : List BlockContext :=
  if !w.txnBeginOk .setBestChain then []
  else if n.chain.pindexGenesisBlock = none ∧
      env.scryptBlockhash b.toCBlockHeader = env.hashGenesisBlock then []
  else if b.hashPrevBlock = n.chain.hashBestChain then
    [n.txnBegin.chain.blockContext env w n.mempool.mapTx pindexNew]
  else match n.chain.bestChain with
  | [] => []
  | best :: _ =>
    n.txnBegin.reorganizeContexts env w (n.intermediate best pindexNew) ++
      match n.txnBegin.reorganize env w (n.intermediate best pindexNew) with
      | (n₁, .ok ()) => connectFurtherContexts env w (n.secondary best pindexNew) n₁
      | _ => []

def addToBlockIndexContexts (b : CBlock)
    (nFile nBlockPos : Nat) (hashProofOfStake : Uint256) : List BlockContext :=
  match n.chain.newBlockIndex env b nFile nBlockPos hashProofOfStake with
  | .error _ => []
  | .ok pindexNew =>
    match n.chain.indexBlock w pindexNew with
    | (_, false) => []
    | (s₁, true) =>
      if pindexNew.nChainTrust > s₁.nBestChainTrust then
        { n with chain := s₁ }.setBestChainContexts env w b pindexNew
      else []

def checkpointContexts (hashCheckpoint : Uint256) : List BlockContext :=
  match n.chain.mapBlockIndex hashCheckpoint, n.chain.validateSyncCheckpoint hashCheckpoint with
  | some pindexCheckpoint, (s₁, true) =>
    if s₁.isInMainChain pindexCheckpoint.hashBlock then []
    else match w.readBlock env pindexCheckpoint with
    | none => []
    | some block => { n with chain := s₁ }.setBestChainContexts env w block pindexCheckpoint
  | _, _ => []

def pendingContexts : List BlockContext :=
  if n.chain.hashPendingCheckpoint = 0 then []
  else n.checkpointContexts env w n.chain.hashPendingCheckpoint

def acceptBlockContexts (wPending : World) (b : CBlock) : List BlockContext :=
  match n.chain.checkAccept env w b, w.writeToDisk with
  | .ok hashProofOfStake, some (nFile, nBlockPos) =>
    if !w.fDiskSpace then []
    else
      n.addToBlockIndexContexts env w b nFile nBlockPos hashProofOfStake ++
        match n.storeBlock env w b hashProofOfStake with
        | (n₁, .ok ()) => n₁.pendingContexts env wPending
        | _ => []
  | _, _ => []

end Node

def SyncCall.contexts (env : Env) (n : Node) : SyncCall → List BlockContext
  | acceptBlock w wPending b => n.acceptBlockContexts env w wPending b
  | processSyncCheckpoint w fSigned hashCheckpoint =>
    if fSigned then n.checkpointContexts env w hashCheckpoint else []
  | acceptPendingSyncCheckpoint w => n.pendingContexts env w

variable {mempool : Uint256 → Option CTransaction} {s s' : ChainState} {b : CBlock}
  {pindex pindexNew : CBlockIndex} {n : Node} {c : BlockContext}

/-! ## Which scripts are skipped -/

structure SameHorizon (s s' : ChainState) : Prop where
  nBestHeight : s'.nBestHeight = s.nBestHeight
  nSyncCheckpointHeight : s'.nSyncCheckpointHeight = s.nSyncCheckpointHeight

theorem SameHorizon.trans {s₁ s₂ s₃ : ChainState} (h₁ : SameHorizon s₁ s₂)
    (h₂ : SameHorizon s₂ s₃) : SameHorizon s₁ s₃ :=
  ⟨h₂.1.trans h₁.1, h₂.2.trans h₁.2⟩

theorem SameHorizon.verifyFromHeight (h : SameHorizon s s') :
    s'.verifyFromHeight env w = s.verifyFromHeight env w := by
  unfold ChainState.verifyFromHeight
  rw [h.nBestHeight, h.nSyncCheckpointHeight]

theorem SameHorizon.connectBlock (h : s.connectBlock env w mempool b pindex = .ok s') :
    SameHorizon s s' :=
  ⟨(connectBlock_frame h).1.memory.nBestHeight, (connectBlock_sameTree h).nSyncCheckpointHeight⟩

theorem SameHorizon.setBestChainInner {n' : Node}
    {outcome : Outcome} (h : n.txnBegin.setBestChainInner env w b pindex = (n', outcome)) :
    SameHorizon n.chain n'.chain := by
  have htree := setBestChainInner_sameTree n.txnBegin pindex env w b
  rw [h] at htree
  refine ⟨?_, htree.nSyncCheckpointHeight⟩
  rcases setBestChainInner_outcome rfl h with ⟨-, -, _, hconn, hchain⟩ | ⟨-, hun, -⟩
  · rw [hchain]
    exact (connectBlock_frame hconn).1.memory.nBestHeight
  · exact hun.memory.nBestHeight

structure HandedOver (env : Env) (w : World) (s : ChainState) (l : List CBlockIndex)
    (c : BlockContext) : Prop where
  mem : c.pindex ∈ l
  fScriptChecks : c.fScriptChecks = decide ((c.pindex.nHeight : Int) ≥ s.verifyFromHeight env w)

theorem HandedOver.mono {l l' : List CBlockIndex}
    (h : HandedOver env w s l c) (hsub : l ⊆ l') : HandedOver env w s l' c :=
  ⟨hsub h.mem, h.fScriptChecks⟩

theorem HandedOver.of_blockContext {l : List CBlockIndex} (hsame : SameHorizon s s')
    (hmem : pindex ∈ l) : HandedOver env w s l (s'.blockContext env w mempool pindex) := by
  refine ⟨hmem, ?_⟩
  rw [← hsame.verifyFromHeight]
  rfl

theorem handedOver_connectBlocks (l : List CBlockIndex)
    (hsame : SameHorizon s s') (hc : c ∈ s'.connectBlocksContexts env w mempool l) :
    HandedOver env w s l c := by
  fun_induction connectBlocksContexts with
  | case3 _ _ pindex rest _ ih =>
    rcases mem_cons.mp hc with rfl | hc
    · exact .of_blockContext hsame mem_cons_self
    split at hc
    · cases hc
    next s1 hconn =>
      exact (ih s1 (hsame.trans (SameHorizon.connectBlock hconn)) hc).mono (subset_cons_self ..)
  | _ => cases hc

theorem handedOver_connectFurther (l : List CBlockIndex)
    (hsame : SameHorizon s n.chain) (hc : c ∈ Node.connectFurtherContexts env w l n) :
    HandedOver env w s l c := by
  fun_induction connectFurtherContexts with
  | case3 pindex rest n _ _ _ ih =>
    rcases mem_cons.mp hc with rfl | hc
    · exact .of_blockContext (hsame.trans ⟨rfl, rfl⟩) mem_cons_self
    · split at hc
      next n1 hin =>
        exact (ih n1 (hsame.trans (SameHorizon.setBestChainInner hin)) hc).mono
          (subset_cons_self pindex rest)
      · cases hc
  | _ => cases hc

theorem handedOver_reorganize (hc : c ∈ n.txnBegin.reorganizeContexts env w pindexNew) :
    HandedOver env w n.chain (n.chain.mapBlockIndex.chainOf pindexNew.hashBlock) c := by
  revert hc
  fun_cases reorganizeContexts with
  | case3 _ pfork _ s1 _ hdisc =>
    intro hc
    have hsame : SameHorizon n.chain s1 := by
      refine ⟨(disconnectBlocks_frame hdisc).1.memory.nBestHeight, ?_⟩
      exact (disconnectBlocks_sameTree hdisc).nSyncCheckpointHeight
    refine (handedOver_connectBlocks _ hsame hc).mono ?_
    intro p hp
    exact (takeWhile_subset _) (mem_reverse.mp hp)
  | _ => nofun

theorem handedOver_setBestChain {best : CBlockIndex} (hset : Settled env n)
    (htip : AtTip n.chain best) (hnew : n.chain.mapBlockIndex.Indexed pindexNew)
    (hc : c ∈ n.setBestChainContexts env w b pindexNew) :
    HandedOver env w n.chain (n.chain.mapBlockIndex.chainOf pindexNew.hashBlock) c := by
  unfold setBestChainContexts at hc
  split at hc
  · cases hc
  split at hc
  · cases hc
  split at hc
  · obtain ⟨_, hhead⟩ := chainOf_head hnew
    rw [mem_singleton.mp hc]
    refine .of_blockContext ⟨rfl, rfl⟩ ?_
    rw [hhead]
    exact mem_cons_self
  · obtain ⟨_, hchain⟩ := head?_eq_some_iff.mp htip.head_bestChain
    rw [hchain] at hc
    obtain ⟨_, hsplit⟩ := n.chainOf_intermediate best hnew
    rcases mem_append.mp hc with hc | hc
    · refine (handedOver_reorganize hc).mono ?_
      intro p hp
      refine mem_chainOf_trans hset.index hp ?_
      simp [hsplit]
    split at hc
    next n1 hreorg =>
      have htree := reorganize_sameTree n.txnBegin (n.intermediate best pindexNew) env w
      rw [hreorg] at htree
      have hbest := (Attaching.start hset htip hnew hreorg).1.memory.nBestHeight
      refine (handedOver_connectFurther _ ⟨hbest, htree.nSyncCheckpointHeight⟩ hc).mono ?_
      simp [hsplit]
    · cases hc

/-! ## Trusted blocks -/

section Trusted

-- The tree of all blocks, known to the node or not: the parent of a block by hash.
variable (prevOf : Uint256 → Option Uint256)

def IsAncestor (a h : Uint256) : Prop := Relation.ReflTransGen (fun x y => prevOf x = some y) a h

def OnHardenedChain (env : Env) (h : Uint256) : Prop :=
  ∃ cp ∈ (hardenedCheckpoints env).map Prod.snd, IsAncestor prevOf cp h

def Trusted (env : Env) (hashSync h : Uint256) : Prop :=
  OnHardenedChain prevOf env h ∨ IsAncestor prevOf hashSync h

/-- Below the last hardened checkpoint the index holds only blocks on the chain of a hardened
checkpoint. -/
structure Anchored (env : Env) (m : BlockMap) : Prop where
  linked : ∀ {h p q}, m h = some p → p.pprev = some q → prevOf h = some q
  below : ∀ {h p}, m h = some p → p.nHeight < getTotalBlocksEstimate env.fTestNet →
    OnHardenedChain prevOf env h

variable {prevOf}

theorem Anchored.isAncestor {m : BlockMap} (wf : m.WellFormed) (h : Anchored prevOf env m) :
    ∀ b, m.Indexed b → ∀ a ∈ m.chainOf b.hashBlock, IsAncestor prevOf b.hashBlock a.hashBlock := by
  refine wf.ranked.induct ?_ ?_
  · intro b hb hparent a ha
    rw [chainOf_eq hb, chainFrom_root wf.ranked hb hparent, mem_singleton] at ha
    rw [ha]
    exact refl
  intro b pb hb hparent ih a ha
  have hp := pprev_of_parent wf hparent
  rw [chainOf_pprev wf hb hp, mem_cons] at ha
  rcases ha with rfl | ha
  · exact refl
  · exact head (h.linked hb hp) (ih a ha)

theorem ChainState.lt_of_skipped {nHeight : Nat}
    (hdepth : env.nCheckpointDepth = 0) (h : ¬ (nHeight : Int) ≥ s.verifyFromHeight env w) :
    nHeight < getTotalBlocksEstimate env.fTestNet ∨ (nHeight : Int) < s.nSyncCheckpointHeight := by
  unfold verifyFromHeight at h
  simp only [hdepth, lt_irrefl, gt_iff_lt, if_false] at h
  split at h
  · rcases max_choice ((getTotalBlocksEstimate env.fTestNet : Nat) : Int)
        (min s.nSyncCheckpointHeight (max s.nBestHeight (getNumBlocksOfPeers env w)
          - dynamicCheckpointVerifyWindow)) with hmax | hmax
    · omega
    · rw [hmax] at h
      omega
  · omega

variable {n : Node} {c : BlockContext} {b : CBlock} {call : SyncCall} {pindexNew : CBlockIndex}

/-- **One call of SetBestChain.** If the new block descends from the checkpoint, every block that is
connected without its scripts is trusted. -/
theorem HandedOver.trusted (hdepth : env.nCheckpointDepth = 0) (hon : OnCheckpoint env n)
    (hanchor : Anchored prevOf env n.chain.mapBlockIndex) (hhor : n.chain.HorizonOk)
    (hmem : n.chain.hashSyncCheckpoint ∈ n.chain.mapBlockIndex.hashes pindexNew.hashBlock)
    (hc : HandedOver env w n.chain (n.chain.mapBlockIndex.chainOf pindexNew.hashBlock) c)
    (hskip : c.fScriptChecks = false) :
    Trusted prevOf env n.chain.hashSyncCheckpoint c.pindex.hashBlock := by
  have hidx := mem_chainOf_indexed hon.index hc.mem
  rw [hc.fScriptChecks, decide_eq_false_iff_not] at hskip
  rcases lt_of_skipped hdepth hskip with hlow | hlow
  · exact .inl (hanchor.below hidx hlow)
  -- both are on the chain of the new block, and the checkpoint is not below
  obtain ⟨pSync, hSync, hSyncMem⟩ := (mem_hashes_iff hon.index).mp hmem
  have hheight := hhor pSync hSync
  have hbelow := mem_chainOf_of_nHeight_le hon.index hc.mem hSyncMem (by omega)
  have hanc := hanchor.isAncestor hon.index pSync (hon.index.indexed hSync) _ hbelow
  rw [hon.index.keyed hSync] at hanc
  exact .inr hanc

/-! ## The three calls -/

/-- The block is the one the tree has under its hash, and below the last hardened checkpoint it is
on the chain of one. -/
def CBlock.OfTree (prevOf : Uint256 → Option Uint256) (env : Env) (n : Node) (b : CBlock) : Prop :=
  prevOf (env.scryptBlockhash b.toCBlockHeader) = some b.hashPrevBlock ∧
    ∀ pindexPrev, n.chain.mapBlockIndex b.hashPrevBlock = some pindexPrev →
      pindexPrev.nHeight + 1 < getTotalBlocksEstimate env.fTestNet →
      OnHardenedChain prevOf env (env.scryptBlockhash b.toCBlockHeader)

def SyncCall.Received (prevOf : Uint256 → Option Uint256) (env : Env) (n : Node) :
    SyncCall → Prop
  | acceptBlock w _ b => (n.chain.checkAccept env w b).isOk = true → b.OfTree prevOf env n
  | processSyncCheckpoint _ _ _ => True
  | acceptPendingSyncCheckpoint _ => True

theorem onHardenedChain_genesis : OnHardenedChain prevOf env env.hashGenesisBlock :=
  ⟨env.hashGenesisBlock, by simp [hardenedCheckpoints], refl⟩

theorem Anchored.grows {m : BlockMap} (h : Anchored prevOf env n.chain.mapBlockIndex)
    (hrec : b.OfTree prevOf env n) (hgrows : n.Grows env b m) :
    Anchored prevOf env m := by
  obtain ⟨hprevOf, hbelow⟩ := hrec
  constructor
  · intro h' p q hp hq
    rcases hgrows h' p hp with hold | ⟨nFile, nBlockPos, hashProofOfStake, hnew, rfl⟩
    · exact h.linked hold hq
    obtain ⟨hhash, -, hpprev, -⟩ := newBlockIndex_ok hnew
    rw [hpprev] at hq
    obtain ⟨pb, -, rfl⟩ := Option.map_eq_some_iff.mp hq
    rw [← hhash]
    exact hprevOf
  · intro h' p hp hlow
    rcases hgrows h' p hp with hold | ⟨nFile, nBlockPos, hashProofOfStake, hnew, rfl⟩
    · exact h.below hold hlow
    obtain ⟨hhash, -, -, hheight, hroot⟩ := newBlockIndex_ok hnew
    rcases hprev : n.chain.mapBlockIndex b.hashPrevBlock with _ | pb
    · rw [hprev] at hroot
      rw [hroot.resolve_left (by simp)]
      exact onHardenedChain_genesis
    rw [hprev] at hheight
    rw [← hhash]
    refine hbelow pb hprev ?_
    rw [hheight] at hlow
    exact hlow

structure TrustedNode (prevOf : Uint256 → Option Uint256) (env : Env) (n : Node) : Prop
    extends OnCheckpoint env n where
  anchored : Anchored prevOf env n.chain.mapBlockIndex
  horizon : n.chain.HorizonOk

theorem TrustedNode.run (hstrict : env.checkpointsMode = .strict)
    (h : TrustedNode prevOf env n) (hok : call.Ok env n) (hrec : call.Received prevOf env n) :
    TrustedNode prevOf env (call.run env n) := by
  have hforward := call.forward hstrict h.toOnCheckpoint hok
  refine ⟨hforward.on, ?_, hforward.horizon h.horizon⟩
  rcases call with ⟨w, _, b⟩ | ⟨w, _, -⟩ | w
  · cases hcheck : n.chain.checkAccept env w b with
    | error e =>
      rw [run, Node.acceptBlock, hcheck]
      exact h.anchored
    | ok _ => exact h.anchored.grows (hrec (by rw [hcheck]; rfl)) (acceptBlock_grows rfl)
  · rw [run, mapBlockIndex_processSyncCheckpoint]
    exact h.anchored
  · rw [run, mapBlockIndex_acceptPendingSyncCheckpoint]
    exact h.anchored

/-- Of these blocks, those whose scripts are not run are trusted. -/
def SkipsTrusted (prevOf : Uint256 → Option Uint256) (env : Env) (n : Node)
    (contexts : List BlockContext) : Prop :=
  ∀ c ∈ contexts, c.fScriptChecks = false →
    Trusted prevOf env n.chain.hashSyncCheckpoint c.pindex.hashBlock

section

variable (hdepth : env.nCheckpointDepth = 0) (h : TrustedNode prevOf env n)
include hdepth h

theorem TrustedNode.setBestChain (hnew : n.chain.mapBlockIndex.Indexed pindexNew)
    (hmem : n.chain.hashSyncCheckpoint ∈ n.chain.mapBlockIndex.hashes pindexNew.hashBlock) :
    SkipsTrusted prevOf env n (n.setBestChainContexts env w b pindexNew) := by
  intro c hc hskip
  obtain ⟨_, htip, -⟩ := h.tip
  exact (handedOver_setBestChain h.toSettled htip hnew hc).trusted hdepth h.toOnCheckpoint
    h.anchored h.horizon hmem hskip

theorem TrustedNode.switch (hash : Uint256) :
    SkipsTrusted prevOf env n (n.checkpointContexts env w hash) := by
  fun_cases checkpointContexts with
  | case3 pindex s1 hvalid hidx =>
    obtain ⟨rfl, -, -, -, -, -, hmem⟩ := validateSyncCheckpoint_eq_true h.index hvalid
    rw [← h.index.keyed hidx] at hmem
    exact h.setBestChain hdepth (h.index.indexed hidx) hmem
  | _ => nofun

theorem TrustedNode.pending : SkipsTrusted prevOf env n (n.pendingContexts env w) := by
  unfold pendingContexts
  split
  · nofun
  · exact h.switch hdepth _

theorem TrustedNode.addToBlockIndex {nFile nBlockPos : Nat} {hashProofOfStake : Uint256}
    (hrec : b.OfTree prevOf env n)
    (hmem : n.chain.hashSyncCheckpoint ∈ n.chain.mapBlockIndex.hashes b.hashPrevBlock) :
    SkipsTrusted prevOf env n
      (n.addToBlockIndexContexts env w b nFile nBlockPos hashProofOfStake) := by
  fun_cases addToBlockIndexContexts with
  | case3 pindexNew hnew s1 hs1 =>
    obtain ⟨hindex, hfor, hdesc⟩ := Forward.indexBlock h.toOnCheckpoint hnew hmem w
    have hnode : TrustedNode prevOf env (n.entered w pindexNew) :=
      ⟨hindex.on, h.anchored.grows hrec (indexBlock_grows hnew w), hindex.horizon h.horizon⟩
    have hsync := (n.chain.indexBlock_checkpoint w pindexNew).1
    simp only [Node.entered, hs1] at hnode hfor hdesc hsync
    have hskips := hnode.setBestChain hdepth hfor.indexed hdesc (w := w) (b := b)
    rwa [SkipsTrusted, hsync] at hskips
  | _ => nofun

variable (hstrict : env.checkpointsMode = .strict)
include hstrict

theorem TrustedNode.acceptBlock (hok : n.AcceptOk env w wPending b)
    (hrec : (acceptBlock w wPending b).Received prevOf env n) :
    SkipsTrusted prevOf env n (n.acceptBlockContexts env w wPending b) := by
  fun_cases acceptBlockContexts with
  | case2 hashProofOfStake _ _ _ hcheck =>
    have hrec := hrec (by rw [hcheck]; rfl)
    intro c hc
    rcases mem_append.mp hc with hc | hc
    · exact h.addToBlockIndex hdepth hrec
        (h.toOnCheckpoint.descends_of_checkAccept hstrict hcheck) c hc
    -- the pending checkpoint, after the block has been stored
    split at hc
    next n1 hn1 =>
      have hstore := Forward.storeBlock hstrict h.toOnCheckpoint hok hcheck
      have hgrows := storeBlock_grows env w n b hashProofOfStake
      have hsync := n.hashSyncCheckpoint_storeBlock env w b hashProofOfStake
      rw [hn1] at hstore hgrows hsync
      have hnode : TrustedNode prevOf env n1 :=
        ⟨hstore.on, h.anchored.grows hrec hgrows, hstore.horizon h.horizon⟩
      exact hsync ▸ hnode.pending hdepth c hc
    · cases hc
  | _ => nofun

theorem TrustedNode.contexts (hok : call.Ok env n) (hrec : call.Received prevOf env n) :
    SkipsTrusted prevOf env n (call.contexts env n) := by
  rcases call with ⟨w, _, b⟩ | ⟨w, _, _⟩ | w
  · exact h.acceptBlock hdepth hstrict hok hrec
  · rw [contexts]
    split
    · exact h.switch hdepth _
    · nofun
  · exact h.pending hdepth

end

abbrev TrustedRun (prevOf : Uint256 → Option Uint256) (env : Env) : Node → Node → Prop :=
  Relation.ReflTransGen (fun n n' => ∃ call : SyncCall,
    call.Ok env n ∧ call.Received prevOf env n ∧ n' = call.run env n)

theorem TrustedRun.trustedNode {n0 : Node} (hstrict : env.checkpointsMode = .strict)
    (h0 : TrustedNode prevOf env n0) (hrun : TrustedRun prevOf env n0 n) :
    TrustedNode prevOf env n := by
  induction hrun with
  | refl => exact h0
  | tail _ hstep ih =>
    obtain ⟨_, hok, hrec, rfl⟩ := hstep
    exact ih.run hstrict hok hrec

/-- **Scripts are skipped only on a trusted chain.** In strict mode and without `-checkpointdepth`:
if no call accepts a block below the last hardened checkpoint that is not on the chain of one,
every block connected without script checks is on the chain of a hardened checkpoint or of the
synchronized one. -/
theorem skipped_scripts_trusted {n₀ n : Node} {call : SyncCall} {c : BlockContext}
    (hstrict : env.checkpointsMode = .strict) (hdepth : env.nCheckpointDepth = 0)
    (h₀ : InSync env n₀) (hmain : n₀.chain.isInMainChain n₀.chain.hashSyncCheckpoint = true)
    (hanchored : Anchored prevOf env n₀.chain.mapBlockIndex) (hhorizon : n₀.chain.HorizonOk)
    (hrun : TrustedRun prevOf env n₀ n) (hok : call.Ok env n) (hrec : call.Received prevOf env n)
    (hc : c ∈ call.contexts env n) (hskip : c.fScriptChecks = false) :
    Trusted prevOf env n.chain.hashSyncCheckpoint c.pindex.hashBlock := by
  have hnode := TrustedRun.trustedNode hstrict
    ⟨.of_isInMainChain h₀ hmain, hanchored, hhorizon⟩ hrun
  exact hnode.contexts hdepth hstrict hok hrec c hc hskip

end Trusted

/-! ## Two blocks of one height -/

def sampleTreeOf (h : Uint256) : Option Uint256 :=
  if h = firstCheckpoint then some 2 else if h = 2 then some 1 else if h = 1 then some 0 else none

def secondBlock : SyncCall := .acceptBlock (minedWorld 2) (minedWorld 2) (minedBlock 2 1 1)

theorem received_secondBlock : secondBlock.Received sampleTreeOf sampleEnv genesisNode := by
  refine fun _ => ⟨by decide +kernel, fun _ _ _ => ?_⟩
  have hlisted : firstCheckpoint ∈ (hardenedCheckpoints sampleEnv).map Prod.snd := by
    decide +kernel
  exact ⟨firstCheckpoint, hlisted, single (by decide +kernel)⟩

theorem anchored_genesisNode : Anchored sampleTreeOf sampleEnv genesisNode.chain.mapBlockIndex := by
  have hempty : Anchored sampleTreeOf sampleEnv (emptyNode sampleEnv).chain.mapBlockIndex := by
    constructor
    · intro h p q hp
      cases hp
    · intro h p hp
      cases hp
  have hrec : (minedBlock 1 0 0).OfTree sampleTreeOf sampleEnv (emptyNode sampleEnv) := by
    refine ⟨by decide +kernel, ?_⟩
    intro p hp
    cases hp
  exact hempty.grows hrec (addToBlockIndex_grows sampleEnv (minedWorld 1)
    (emptyNode sampleEnv) (minedBlock 1 0 0) 1 1000 0)

theorem horizonOk_genesisNode : genesisNode.chain.HorizonOk := by
  intro p _
  exact Int.natCast_nonneg p.nHeight

theorem skipped_scripts_trusted_second :
    ∃ c ∈ secondBlock.contexts sampleEnv genesisNode, c.fScriptChecks = false ∧
      c.pindex.hashBlock = 2 ∧
      Trusted sampleTreeOf sampleEnv genesisNode.chain.hashSyncCheckpoint c.pindex.hashBlock := by
  have hlist : (secondBlock.contexts sampleEnv genesisNode).map
      (fun c => (c.pindex.hashBlock, c.fScriptChecks)) = [(2, false)] := by decide +kernel
  obtain ⟨c, _, hcons, hpair, -⟩ := map_eq_cons_iff.mp hlist
  obtain ⟨hhash, hskip⟩ := Prod.mk.inj hpair
  have hc : c ∈ secondBlock.contexts sampleEnv genesisNode := by
    rw [hcons]
    exact mem_cons_self
  have hok : secondBlock.Ok sampleEnv genesisNode := acceptOk_grownNode
  exact ⟨c, hc, hskip, hhash, skipped_scripts_trusted rfl rfl inSync_genesisNode
    (by decide +kernel) anchored_genesisNode horizonOk_genesisNode .refl
    hok received_secondBlock hc hskip⟩

def rivalNode : Node :=
  [acceptBlock (forkWorld 2) (forkWorld 2) (minedBlock 2 1 1),
    acceptBlock (forkWorld 3) (forkWorld 3) (minedBlock 3 1 1)].foldl
    (run sampleEnv) genesisNode

def rivalBlock : SyncCall := .acceptBlock (forkWorld 4) (forkWorld 4) (minedBlock 4 3 2)

variable {prevOf : Uint256 → Option Uint256}

theorem eq_of_isAncestor {a h : Uint256}
    (ha : prevOf a = some 1) (hroot : prevOf 1 = none) (h1 : h ≠ 1)
    (hanc : IsAncestor prevOf a h) : h = a := by
  rcases cases_head hanc with rfl | ⟨x, hx, hrest⟩
  · rfl
  obtain rfl : x = 1 := Option.some.inj (hx.symm.trans ha)
  rcases cases_head hrest with rfl | ⟨y, hy, -⟩
  · exact absurd rfl h1
  · rw [hroot] at hy
    cases hy

/-- Of two blocks on top of the genesis block only one can be on the chain of the hardened
checkpoints. -/
theorem not_both_trusted {last : Uint256}
    (h2 : prevOf 2 = some 1) (h3 : prevOf 3 = some 1) (hroot : prevOf 1 = none)
    (hchain : ∀ cp ∈ (hardenedCheckpoints sampleEnv).map Prod.snd, IsAncestor prevOf last cp) :
    ¬ (Trusted prevOf sampleEnv 1 2 ∧ Trusted prevOf sampleEnv 1 3) := by
  have hlast : ∀ h, h ≠ 1 → Trusted prevOf sampleEnv 1 h → IsAncestor prevOf last h := by
    intro h hne htrust
    rcases htrust with ⟨cp, hcp, hanc⟩ | hanc
    · exact (hchain cp hcp).trans hanc
    rcases cases_head hanc with rfl | ⟨x, hx, -⟩
    · exact absurd rfl hne
    · rw [hroot] at hx
      cases hx
  rintro ⟨htrust2, htrust3⟩
  have hunique : Relator.RightUnique (fun x y => prevOf x = some y) := by
    intro x y z hy hz
    exact Option.some.inj (hy.symm.trans hz)
  rcases total_of_right_unique hunique (hlast 2 (by decide) htrust2)
      (hlast 3 (by decide) htrust3) with hanc | hanc
  · exact absurd (eq_of_isAncestor h2 hroot (by decide) hanc) (by decide)
  · exact absurd (eq_of_isAncestor h3 hroot (by decide) hanc) (by decide)

/-- Block 2 and then, in a reorganisation, its rival 3 are connected without their scripts. As long
as the hardened checkpoints lie on one chain, one of the two is not on it. -/
theorem forged_branch_skips_scripts :
    (secondBlock.contexts sampleEnv genesisNode).map
        (fun c => (c.pindex.hashBlock, c.fScriptChecks)) = [(2, false)] ∧
      (rivalBlock.contexts sampleEnv rivalNode).map
        (fun c => (c.pindex.hashBlock, c.fScriptChecks)) = [(3, false), (4, false)] ∧
      genesisNode.chain.hashSyncCheckpoint = 1 ∧ rivalNode.chain.hashSyncCheckpoint = 1 ∧
      sampleEnv.checkpointsMode = .strict ∧ sampleEnv.nCheckpointDepth = 0 ∧
      ∀ (prevOf : Uint256 → Option Uint256) (last : Uint256),
        prevOf 2 = some 1 → prevOf 3 = some 1 → prevOf 1 = none →
        (∀ cp ∈ (hardenedCheckpoints sampleEnv).map Prod.snd, IsAncestor prevOf last cp) →
        ¬ (Trusted prevOf sampleEnv 1 2 ∧ Trusted prevOf sampleEnv 1 3) :=
  ⟨by decide +kernel, by decide +kernel, by decide +kernel, by decide +kernel, rfl, rfl,
    fun _ _ h₂ h₃ hroot hchain => not_both_trusted h₂ h₃ hroot hchain⟩

end HoboNickels

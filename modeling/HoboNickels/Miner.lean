import HoboNickels.Accept

/-!
# Block templates

`CreateNewBlock`. The transactions of the memory pool wait in a priority queue, or, while some of
their inputs come from the pool, in the list of orphans; the loop appends the front of the queue to
the block unless one of its limits is exceeded. Priorities and fees are doubles: which entry is at
the front, and how a double compares with its bound, is up to `MinerInput`.

When an input is neither on disk nor in the pool, the source drops the orphan entry with
`mapDependers` still pointing to it.
-/

namespace HoboNickels

open Fallible List

/-- What `CreateNewBlock` reads besides the node, with the outcomes of comparing doubles. -/
structure MinerInput where
  nArgBlockMaxSize : Nat
  nArgBlockPrioritySize : Nat
  nArgBlockMinSize : Nat
  reservedScript : Option CScript
  poolKeys : List Uint256
  nCoinbaseTime : Int
  nAdjustedTime : Nat → Int
  prevReadOk : Uint256 → Nat → Bool
  /-- The front of the heap, sorted by fee or by priority. -/
  front : Bool → List CTransaction → Nat
  /-- `dFeePerKb < nMinTxFee`. -/
  feeBelowMin : CTransaction → Bool
  /-- `dPriority < COIN * 144 / 250`. -/
  lowPriority : CTransaction → Bool

namespace MinerInput

def nBlockMaxSize (m : MinerInput) : Nat := max 1000 (min (maxBlockSize - 1000) m.nArgBlockMaxSize)

def nBlockPrioritySize (m : MinerInput) : Nat := min m.nBlockMaxSize m.nArgBlockPrioritySize

def nBlockMinSize (m : MinerInput) : Nat := min m.nBlockMaxSize m.nArgBlockMinSize

/-- The coinbase, without the script that `IncrementExtraNonce` adds; its output is empty in a
proof-of-stake template. -/
def coinbase (m : MinerInput) (out : CTxOut) : CTransaction where
  nVersion := 1
  nTime := uint32 m.nCoinbaseTime
  vin := [⟨COutPoint.null, [], uint32Max⟩]
  vout := [out]
  nLockTime := 0

end MinerInput

/-- A transaction that waits for others of the pool: `COrphan`. -/
structure COrphan where
  ptx : CTransaction
  setDependsOn : List Uint256

structure TemplateState where
  vecPriority : List CTransaction
  vOrphan : List COrphan
  vtx : List CTransaction
  mapTestPool : QueuedChanges
  nBlockSize : Nat
  nBlockSigOps : Nat
  fSortedByFee : Bool

/-! ## The queue -/

inductive InputSource where
  | onDisk
  | inPool
  | missing

/-- `txPrev.ReadFromDisk(txdb, txin.prevout, txindex)`, or else the pool. -/
def Node.inputSource (n : Node) (w : World) (m : MinerInput) (hash : Uint256) (i : Nat)
    (txin : CTxIn) : InputSource :=
  let read := (n.chain.db.readOnly.readTxIndex txin.prevout.hash).bind fun txindex =>
    if openBlockFile txindex.pos.nFile && m.prevReadOk hash i then
      w.disk.tx txindex.pos.nFile txindex.pos.nTxPos
    else none
  match read with
  | some txPrev =>
    if txin.prevout.n < txPrev.vout.length then .onDisk
    else if (n.mempool.mapTx txin.prevout.hash).isSome then .inPool else .missing
  | none => if (n.mempool.mapTx txin.prevout.hash).isSome then .inPool else .missing

/-- The pool transactions that the inputs from the `i`-th on wait for, `none` when one is
missing. -/
def Node.dependsOn (n : Node) (w : World) (m : MinerInput) (hash : Uint256) :
    Nat → List CTxIn → Option (List Uint256)
  | _, [] => some []
  | i, txin :: rest =>
    match n.inputSource w m hash i txin with
    | .onDisk => n.dependsOn w m hash (i + 1) rest
    | .inPool => (n.dependsOn w m hash (i + 1) rest).map (List.insert txin.prevout.hash)
    | .missing => none

variable (n : Node) (env : Env) (w : World) (m : MinerInput)

/-- One round of the loop over the pool. The fee per kilobyte needs `GetValueOut`. -/
def Node.enqueue (nHeight : Nat)
    (st : TemplateState) (tx : CTransaction) : Except Fail TemplateState :=
  if tx.isCoinBase || tx.isCoinStake
      || !tx.isFinalTx n.chain.nBestHeight w.nAdjustedTime nHeight 0 then .ok st
  else
    match n.dependsOn w m (env.txHash tx) 0 tx.vin with
    | none => .ok st
    | some [] => do
      let _ ← CBlock.valueOutOrThrow tx
      return { st with vecPriority := st.vecPriority ++ [tx] }
    | some deps => do
      let _ ← CBlock.valueOutOrThrow tx
      return { st with vOrphan := st.vOrphan ++ [⟨tx, deps⟩] }

/-- The waiting transactions after `hash` has been added: those that wait no longer, and the
others. -/
def releaseOrphans (hash : Uint256) : List COrphan → List CTransaction × List COrphan
  | [] => ([], [])
  | o :: rest =>
    let r := releaseOrphans hash rest
    if hash ∈ o.setDependsOn then
      match o.setDependsOn.erase hash with
      | [] => (o.ptx :: r.1, r.2)
      | deps => (r.1, { o with setDependsOn := deps } :: r.2)
    else (r.1, o :: r.2)

/-! ## Collecting transactions -/

variable (m : MinerInput)

section

variable (n : Node) (env : Env) (w : World) (pindexPrev : CBlockIndex) (st : TemplateState)
  (tx : CTransaction)

def MinerInput.withinLimits (fProofOfStake : Bool) (nAdjusted : Int) (st : TemplateState)
    (tx : CTransaction) : Bool :=
  !decide (st.nBlockSize + tx.serializeSize ≥ m.nBlockMaxSize)
    && !decide (st.nBlockSigOps + tx.getLegacySigOpCount env ≥ maxBlockSigops)
    && !(decide ((tx.nTime : Int) > nAdjusted)
      || (fProofOfStake && decide (tx.nTime > uint32 m.nCoinbaseTime)))

def MinerInput.skipFree : Bool :=
  st.fSortedByFee && m.feeBelowMin tx
    && decide (st.nBlockSize + tx.serializeSize ≥ m.nBlockMinSize)

def MinerInput.sortByFee : Bool :=
  st.fSortedByFee || decide (st.nBlockSize + tx.serializeSize ≥ m.nBlockPrioritySize)
    || m.lowPriority tx

def Node.minerFetchContext (mapTestPool : QueuedChanges) : FetchContext where
  db := n.chain.db.readOnly
  mapTestPool := mapTestPool
  fBlock := false
  fMiner := true
  mempool := n.mempool.mapTx

def Node.minerConnectContext : ConnectContext where
  posThisTx := CDiskTxPos.memoryPool
  pindexBlock := pindexPrev
  ancestors := n.chain.ancestorsOf pindexPrev
  fBlock := false
  fMiner := true
  fScriptChecks := true
  flags := scriptVerifyP2SH
  fQueueChecks := false

/-- The proposed changes and the signature operations with the transaction, or `none` when it is
skipped. -/
def Node.tryConnect : Except Fail (Option (QueuedChanges × Nat)) :=
  match fetchInputs env w (n.minerFetchContext st.mapTestPool) tx with
  | .error (.reject _ _) => .ok none
  | .error e => .error e
  | .ok inputs => do
    let nValueOut ← CBlock.valueOutOrThrow tx
    if getValueIn inputs tx - nValueOut < tx.getMinFee st.nBlockSize 0 then return none
    let nTxSigOps := tx.getLegacySigOpCount env + getP2SHSigOpCount env inputs tx
    if st.nBlockSigOps + nTxSigOps ≥ maxBlockSigops then return none
    match connectInputs env w n.chain.db.readOnly n.chain.nBestHeight
        (n.minerConnectContext pindexPrev) inputs st.mapTestPool tx with
    | .error (.reject _ _) => return none
    | .error e => .error e
    | .ok (changes, _) => return some (changes, nTxSigOps)

end

/-- One round of the collecting loop, for the transaction taken off the queue. -/
def Node.collectTx (fProofOfStake : Bool)
    (pindexPrev : CBlockIndex) (nAdjusted : Int) (st : TemplateState) (tx : CTransaction) :
    Except Fail TemplateState :=
  if !m.withinLimits env fProofOfStake nAdjusted st tx || m.skipFree st tx then .ok st
  else do
    let st := { st with fSortedByFee := m.sortByFee st tx }
    match ← n.tryConnect env w pindexPrev st tx with
    | none => return st
    | some (changes, nTxSigOps) =>
      let released := releaseOrphans (env.txHash tx) st.vOrphan
      return { st with
        vtx := st.vtx ++ [tx]
        mapTestPool :=
          changes.insert (env.txHash tx) (CTxIndex.new CDiskTxPos.memoryPool tx.vout.length)
        nBlockSize := st.nBlockSize + tx.serializeSize
        nBlockSigOps := st.nBlockSigOps + nTxSigOps
        vecPriority := st.vecPriority ++ released.1
        vOrphan := released.2 }

def MinerInput.pop (st : TemplateState) (first : CTransaction)
    (rest : List CTransaction) : CTransaction × List CTransaction :=
  let i := m.front st.fSortedByFee (first :: rest) % (rest.length + 1)
  ((first :: rest).getD i first, (first :: rest).eraseIdx i)

/-- The collecting loop. Each round takes one transaction off the queue and the orphans. -/
def Node.collect (n : Node) (env : Env) (w : World) (m : MinerInput) (fProofOfStake : Bool)
    (pindexPrev : CBlockIndex) : Nat → TemplateState → Except Fail TemplateState
  | 0, st => .ok st
  | rounds + 1, st =>
    match st.vecPriority with
    | [] => .ok st
    | first :: rest => do
      let popped := m.pop st first rest
      let st ← n.collectTx env w m fProofOfStake pindexPrev (m.nAdjustedTime rounds)
        { st with vecPriority := popped.2 } popped.1
      n.collect env w m fProofOfStake pindexPrev rounds st

/-! ## The template -/

def MinerInput.initialState : TemplateState where
  vecPriority := []
  vOrphan := []
  vtx := []
  mapTestPool := ∅
  nBlockSize := 1000
  nBlockSigOps := 100
  fSortedByFee := decide (m.nBlockPrioritySize = 0)

/-- The time of the header: after the median of the past and every transaction, and not earlier
than the drift allows. -/
def templateTime (chain : List CBlockIndex) (pindexPrev : CBlockIndex) (b : CBlock) : Nat :=
  let nTime := uint32 (max (getMedianTimePast chain + 1) b.getMaxTransactionTime)
  uint32 (max (nTime : Int) (pastDrift pindexPrev.getBlockTime))

def MinerInput.coinbaseOut (fProofOfStake : Bool) : Option CTxOut :=
  if fProofOfStake then some ⟨0, []⟩
  else m.reservedScript.map (fun script => ⟨getProofOfWorkReward, script⟩)

def Node.queuePool (nHeight : Nat) : Except Fail TemplateState :=
  (m.poolKeys.filterMap n.mempool.mapTx).foldlM (n.enqueue env w m nHeight) m.initialState

/-- `CreateNewBlock`; the result is `none` where the source returns NULL. -/
def Node.createNewBlock (fProofOfStake : Bool) : Except Fail (Option CBlock) :=
  match m.coinbaseOut fProofOfStake with
  | none => .ok none
  | some out => do
    let hashPrev ← demand n.chain.pindexBest (.throw "pindexBest is null")
    let pindexPrev ← demand (n.chain.mapBlockIndex hashPrev) (.throw "pindexBest is null")
    let queued ← n.queuePool env w m (pindexPrev.nHeight + 1)
    let st ← n.collect env w m fProofOfStake pindexPrev
      (queued.vecPriority.length + queued.vOrphan.length) queued
    let template : CBlock :=
      { nVersion := 4
        hashPrevBlock := pindexPrev.hashBlock
        hashMerkleRoot := 0
        nTime := 0
        nBits := n.chain.getNextTargetRequired env.fTestNet hashPrev fProofOfStake
        nNonce := 0
        vtx := m.coinbase out :: st.vtx
        vchBlockSig := [] }
    let nTime := templateTime (n.chain.mapBlockIndex.chainOf hashPrev) pindexPrev template
    return some { template with
      nTime := if fProofOfStake then nTime
        else uint32 (max (nTime : Int) w.nAdjustedTime) }

/-! ## What a template contains -/

theorem releaseOrphans_perm (hash : Uint256) (orphans : List COrphan) :
    ((releaseOrphans hash orphans).1 ++ (releaseOrphans hash orphans).2.map COrphan.ptx).Perm
      (orphans.map COrphan.ptx) := by
  induction orphans with
  | nil => exact List.Perm.nil
  | cons o rest ih =>
    have hkept : ((releaseOrphans hash rest).1
        ++ o.ptx :: (releaseOrphans hash rest).2.map COrphan.ptx).Perm
          (o.ptx :: rest.map COrphan.ptx) :=
      perm_middle.trans (ih.cons o.ptx)
    rw [releaseOrphans]
    split
    · split
      · exact ih.cons o.ptx
      · exact hkept
    · exact hkept

theorem releaseOrphans_forall {P : CTransaction → Prop} (hash : Uint256)
    (orphans : List COrphan) (hall : ∀ o ∈ orphans, P o.ptx) :
    (∀ tx ∈ (releaseOrphans hash orphans).1, P tx) ∧
      ∀ o ∈ (releaseOrphans hash orphans).2, P o.ptx := by
  have hkept : ∀ tx ∈ (releaseOrphans hash orphans).1
      ++ (releaseOrphans hash orphans).2.map COrphan.ptx, P tx := by
    intro tx htx
    obtain ⟨o, ho, rfl⟩ := mem_map.mp ((releaseOrphans_perm hash orphans).mem_iff.mp htx)
    exact hall o ho
  constructor
  · intro tx htx
    exact hkept tx (mem_append_left _ htx)
  · intro o ho
    exact hkept o.ptx (mem_append_right _ (mem_map_of_mem ho))

variable {n : Node} {env : Env} {w : World} {m : MinerInput} {st st' : TemplateState}
  {tx : CTransaction} {f : Bool} {pindexPrev : CBlockIndex}

theorem Node.enqueue_cases {nHeight : Nat} (h : n.enqueue env w m nHeight st tx = .ok st') :
    st' = st ∨ tx.isCoinBase = false ∧ tx.isCoinStake = false ∧
      (st' = { st with vecPriority := st.vecPriority ++ [tx] } ∨
        ∃ deps, st' = { st with vOrphan := st.vOrphan ++ [⟨tx, deps⟩] }) := by
  unfold enqueue at h
  split at h
  · cases h
    exact .inl rfl
  rename_i hkind
  simp only [Bool.or_eq_true, not_or, Bool.not_eq_true] at hkind
  split at h
  · cases h
    exact .inl rfl
  · obtain ⟨_, -, h⟩ := bind_eq_ok.mp h
    cases h
    exact .inr ⟨hkind.1.1, hkind.1.2, .inl rfl⟩
  · obtain ⟨_, -, h⟩ := bind_eq_ok.mp h
    cases h
    exact .inr ⟨hkind.1.1, hkind.1.2, .inr ⟨_, rfl⟩⟩

theorem Node.collectTx_cases {nAdjusted : Int}
    (h : n.collectTx env w m f pindexPrev nAdjusted st tx = .ok st') :
    (∃ fSorted, st' = { st with fSortedByFee := fSorted }) ∨
      ∃ fSorted changes nTxSigOps, m.withinLimits env f nAdjusted st tx = true ∧
        n.tryConnect env w pindexPrev { st with fSortedByFee := fSorted } tx
          = .ok (some (changes, nTxSigOps)) ∧
        st' =
          { vecPriority := st.vecPriority ++ (releaseOrphans (env.txHash tx) st.vOrphan).1
            vOrphan := (releaseOrphans (env.txHash tx) st.vOrphan).2
            vtx := st.vtx ++ [tx]
            mapTestPool :=
              changes.insert (env.txHash tx) (CTxIndex.new CDiskTxPos.memoryPool tx.vout.length)
            nBlockSize := st.nBlockSize + tx.serializeSize
            nBlockSigOps := st.nBlockSigOps + nTxSigOps
            fSortedByFee := fSorted } := by
  unfold collectTx at h
  split at h
  · cases h
    exact .inl ⟨st.fSortedByFee, rfl⟩
  rename_i hlimits
  obtain ⟨connected, hconnect, h⟩ := bind_eq_ok.mp h
  cases connected with
  | none =>
    cases h
    exact .inl ⟨_, rfl⟩
  | some p =>
    cases h
    refine .inr ⟨_, p.1, p.2, ?_, hconnect, rfl⟩
    by_contra hout
    simp [hout] at hlimits

theorem MinerInput.pop_perm (st : TemplateState) (first : CTransaction) (rest : List CTransaction) :
    ((m.pop st first rest).1 :: (m.pop st first rest).2).Perm (first :: rest) := by
  have hlt : m.front st.fSortedByFee (first :: rest) % (rest.length + 1)
      < (first :: rest).length := Nat.mod_lt _ (Nat.succ_pos _)
  have hfront : (m.pop st first rest).1
      = (first :: rest).get ⟨m.front st.fSortedByFee (first :: rest) % (rest.length + 1), hlt⟩ :=
    getD_eq_getElem _ _ hlt
  rw [hfront]
  exact getElem_cons_eraseIdx_perm hlt

theorem Node.collect_induct (P : TemplateState → Prop)
    (hround : ∀ nAdjusted st first rest st', st.vecPriority = first :: rest → P st →
      n.collectTx env w m f pindexPrev nAdjusted
        { st with vecPriority := (m.pop st first rest).2 } (m.pop st first rest).1 = .ok st' →
      P st')
    (rounds : Nat) (st st' : TemplateState) (hst : P st)
    (h : n.collect env w m f pindexPrev rounds st = .ok st') : P st' := by
  induction rounds generalizing st st' with
  | zero =>
    cases h
    exact hst
  | succ rounds ih =>
    rw [collect] at h
    split at h
    · cases h
      exact hst
    next first rest hqueue =>
      obtain ⟨st1, hfirst, hrest⟩ := bind_eq_ok.mp h
      exact ih st1 st' (hround _ st first rest st1 hqueue hst hfirst) hrest

def CTransaction.Ordinary (tx : CTransaction) : Prop :=
  tx.isCoinBase = false ∧ tx.isCoinStake = false

structure TemplateState.Sound (m : MinerInput) (st : TemplateState) : Prop where
  queue : ∀ tx ∈ st.vecPriority, tx.Ordinary
  orphans : ∀ o ∈ st.vOrphan, o.ptx.Ordinary
  collected : ∀ tx ∈ st.vtx, tx.Ordinary ∧ tx.nTime ≤ uint32 m.nCoinbaseTime

theorem TemplateState.Sound.enqueue {nHeight : Nat} (hst : st.Sound m)
    (h : n.enqueue env w m nHeight st tx = .ok st') : st'.Sound m := by
  obtain rfl | ⟨hcb, hcs, rfl | ⟨_, rfl⟩⟩ := Node.enqueue_cases h
  · exact hst
  · refine ⟨?_, hst.orphans, hst.collected⟩
    exact forall_mem_append.mpr ⟨hst.queue, forall_mem_singleton.mpr ⟨hcb, hcs⟩⟩
  · refine ⟨hst.queue, ?_, hst.collected⟩
    exact forall_mem_append.mpr ⟨hst.orphans, forall_mem_singleton.mpr ⟨hcb, hcs⟩⟩

theorem TemplateState.Sound.collectTx {nAdjusted : Int} (hst : st.Sound m) (htx : tx.Ordinary)
    (h : n.collectTx env w m true pindexPrev nAdjusted st tx = .ok st') : st'.Sound m := by
  rcases Node.collectTx_cases h with ⟨fSorted, rfl⟩ | ⟨fSorted, _, _, hlimits, -, rfl⟩
  · exact { hst with }
  obtain ⟨hready, hwaiting⟩ := releaseOrphans_forall (env.txHash tx) st.vOrphan hst.orphans
  have htime : tx.nTime ≤ uint32 m.nCoinbaseTime := by
    by_contra hlate
    simp [MinerInput.withinLimits, not_le.mp hlate] at hlimits
  refine ⟨forall_mem_append.mpr ⟨hst.queue, hready⟩, hwaiting, ?_⟩
  exact forall_mem_append.mpr ⟨hst.collected, forall_mem_singleton.mpr ⟨htx, htime⟩⟩

theorem TemplateState.Sound.collect {rounds : Nat} (hst : st.Sound m)
    (h : n.collect env w m true pindexPrev rounds st = .ok st') : st'.Sound m := by
  refine Node.collect_induct (TemplateState.Sound m) ?_ rounds st st' hst h
  intro nAdjusted st first rest st' hqueue hst hround
  have hqueued : ∀ tx ∈ (m.pop st first rest).1 :: (m.pop st first rest).2, tx.Ordinary := by
    intro tx htx
    apply hst.queue
    rw [hqueue]
    exact (m.pop_perm st first rest).mem_iff.mp htx
  refine TemplateState.Sound.collectTx ?_ (hqueued _ mem_cons_self) hround
  exact ⟨fun tx htx => hqueued tx (mem_cons_of_mem _ htx), hst.orphans, hst.collected⟩

theorem Node.createNewBlock_cases
    {template : CBlock} (h : n.createNewBlock env w m f = .ok (some template)) :
    ∃ out hashPrev pindexPrev queued st, m.coinbaseOut f = some out ∧
      n.chain.pindexBest = some hashPrev ∧ n.chain.mapBlockIndex hashPrev = some pindexPrev ∧
      n.queuePool env w m (pindexPrev.nHeight + 1) = .ok queued ∧
      n.collect env w m f pindexPrev (queued.vecPriority.length + queued.vOrphan.length) queued
        = .ok st ∧
      template.vtx = m.coinbase out :: st.vtx ∧
      template.nTime =
        let nTime := templateTime (n.chain.mapBlockIndex.chainOf hashPrev) pindexPrev template
        if f then nTime else uint32 (max (nTime : Int) w.nAdjustedTime) := by
  unfold createNewBlock at h
  split at h
  · cases h
  rename_i out hout
  simp only [bind_eq_ok, demand_eq_ok] at h
  obtain ⟨hashPrev, hbest, pindexPrev, hprev, queued, hqueued, st, hcollect, h⟩ := h
  cases h
  exact ⟨out, hashPrev, pindexPrev, queued, st, hout, hbest, hprev, hqueued, hcollect, rfl, rfl⟩

theorem Node.createNewBlock_stake
    {template : CBlock} (h : n.createNewBlock env w m true = .ok (some template)) :
    ∃ rest, template.vtx = m.coinbase ⟨0, []⟩ :: rest ∧
      ∀ tx ∈ rest, tx.Ordinary ∧ tx.nTime ≤ uint32 m.nCoinbaseTime := by
  obtain ⟨_, _, _, queued, st, hout, -, -, hqueued, hcollect, hvtx, -⟩ := createNewBlock_cases h
  cases hout
  have hinitial : m.initialState.Sound m :=
    ⟨fun _ h => absurd h not_mem_nil, fun _ h => absurd h not_mem_nil,
      fun _ h => absurd h not_mem_nil⟩
  have hsound : queued.Sound m :=
    foldlM_ok_induct (fun _ st => TemplateState.Sound m st)
      (fun _ _ _ _ hst hstep => hst.enqueue hstep) _ [] _ _ hinitial hqueued
  exact ⟨st.vtx, hvtx, (hsound.collect hcollect).collected⟩

end HoboNickels

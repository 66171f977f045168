import HoboNickels.ProcessBlock
import HoboNickels.MoneySupply

/-!
# Downloading blocks from several peers

The headers-first scheduler. A `headers` message queues the blocks it announces; every pass of
`SendMessages` over a peer requeues requests that are overdue, assigns queued blocks up to the
peer's window, and may ask for the block that holds up the tip although another peer has been asked;
a `block` message settles a request, or requeues it.

In every run a wanted block is queued or in flight, and no peer is asked for too many
(`download_tracked`). The assignment stops at a block that is too far ahead of the tip, on the
assumption that the queue is in chain order, which it is not (`near_block_starved`).
-/

namespace HoboNickels

open List Std.TreeMap Sublist

def maxBlocksInFlightPerPeer : Nat := 128
def blockDownloadWindow : Nat := 1024
def blockDownloadTimeout : Int := 30
def blockStallTimeout : Int := 10
def peerBlocktimeMaxAge : Int := 1800

structure Scheduler where
  vBlocksToDownload : List Uint256
  setBlocksQueuedOrInFlight : Finset Uint256
  mapBlocksInFlight : Std.TreeMap Uint256 (Nat × Int)
  mapBlockHeight : Std.TreeMap Uint256 Nat
  mapPeerLastBlockTime : Std.TreeMap Nat Int
  nLastHeightPrune : Int

namespace Scheduler

def initial : Scheduler := ⟨[], ∅, ∅, ∅, ∅, 0⟩

variable (s : Scheduler)

def heard (peer : Nat) (nNow : Int) : Scheduler :=
  { s with mapPeerLastBlockTime := s.mapPeerLastBlockTime.insert peer nNow }

def queueBlock (hash : Uint256) (nHeight : Nat) : Scheduler :=
  { s with
    vBlocksToDownload := s.vBlocksToDownload ++ [hash]
    setBlocksQueuedOrInFlight := insert hash s.setBlocksQueuedOrInFlight
    mapBlockHeight := s.mapBlockHeight.insert hash nHeight }

/-- A request is to be requeued: it is overdue and its peer has gone quiet, or it is wildly
overdue. -/
def overdue (nNowSec : Int) (request : Nat × Int) : Bool :=
  let nReqAge := nNowSec - request.2
  let fPeerActive := match s.mapPeerLastBlockTime[request.1]? with
    | none => false
    | some nLast => decide (nNowSec - nLast ≤ blockStallTimeout)
  decide (nReqAge > 2 * blockDownloadTimeout)
    || (decide (nReqAge > blockDownloadTimeout) && !fPeerActive)

def requeueOverdue (nNowSec : Int) : Scheduler :=
  let late := s.mapBlocksInFlight.toList.filter (fun it => s.overdue nNowSec it.2)
  { s with
    vBlocksToDownload := late.foldl (fun queue it => it.1 :: queue) s.vBlocksToDownload
    mapBlocksInFlight := s.mapBlocksInFlight.filter (fun _ it => !s.overdue nNowSec it) }

def countInFlight (peer : Nat) : Nat :=
  (s.mapBlocksInFlight.toList.filter (fun it => it.2.1 == peer)).length

def request (hash : Uint256) (peer : Nat) (nNowSec : Int) : Scheduler :=
  { s with mapBlocksInFlight := s.mapBlocksInFlight.insert hash (peer, nNowSec) }

def farAhead (nTipHeight : Nat) (hash : Uint256) : Bool :=
  match s.mapBlockHeight[hash]? with
  | none => false
  | some nHeight => decide (nHeight > nTipHeight + blockDownloadWindow)

/-- The lowest block that has been outstanding on another peer for too long. -/
def wedge (peer : Nat) (nNowSec : Int) : Option (Uint256 × Nat) :=
  s.mapBlocksInFlight.toList.foldl (fun found it =>
    if it.2.1 ≠ peer ∧ nNowSec - it.2.2 > blockStallTimeout then
      let nH := s.mapBlockHeight.getD it.1 0
      match found with
      | none => some (it.1, nH)
      | some (hWedge, nLowest) => if nH < nLowest then some (it.1, nH) else some (hWedge, nLowest)
    else found) none

/-- Drop the heights that have been reached and the peers that have been quiet for long, every
thirty seconds. -/
def prune (nTipHeight : Option Nat) (nNowSec : Int) : Scheduler :=
  match nTipHeight with
  | none => s
  | some nTip =>
    if nNowSec - s.nLastHeightPrune ≥ 30 then
      { s with
        nLastHeightPrune := nNowSec
        mapBlockHeight := s.mapBlockHeight.filter (fun _ nHeight => !decide (nHeight ≤ nTip))
        mapPeerLastBlockTime := s.mapPeerLastBlockTime.filter (fun _ nLast =>
          !decide (nNowSec - nLast > peerBlocktimeMaxAge)) }
    else s

end Scheduler

/-! ## Messages and passes -/

namespace SyncNode

variable {env : Env}

variable (n : SyncNode env)

def alreadyHave (hash : Uint256) : Bool :=
  (n.chain.mapBlockIndex hash).isSome || (n.orphans.find hash).isSome

def tip : Option Nat :=
  (n.chain.pindexBest.bind n.chain.mapBlockIndex).map CBlockIndex.nHeight

def nTipHeight : Nat := n.tip.getD 0

/-- The height of a header that connects to a known block, or to a header before it in the message
(`mapBatch`). -/
def announcedHeight (mapBatch : Std.TreeMap Uint256 Nat) (header : CBlockHeader) : Option Nat :=
  match n.chain.mapBlockIndex header.hashPrevBlock with
  | some pprev => some (pprev.nHeight + 1)
  | none => mapBatch[header.hashPrevBlock]?.map (· + 1)

def wanted (s : Scheduler) (hash : Uint256) : Bool :=
  !n.alreadyHave hash && !decide (hash ∈ s.setBlocksQueuedOrInFlight)

def onHeader (r : Scheduler × Std.TreeMap Uint256 Nat) (header : CBlockHeader) :
    Scheduler × Std.TreeMap Uint256 Nat :=
  match n.announcedHeight r.2 header with
  | none => r
  | some nHeight =>
    let hash := env.scryptBlockhash header
    let mapBatch := r.2.insert hash nHeight
    if n.wanted r.1 hash then (r.1.queueBlock hash nHeight, mapBatch) else (r.1, mapBatch)

def onHeaders (vHeaders : List CBlockHeader) (s : Scheduler) : Scheduler :=
  if vHeaders.length > 2000 then s else (vHeaders.foldl n.onHeader (s, ∅)).1

def onProcessed (hashBlock : Uint256) (fAccepted : Bool) (s : Scheduler) : Scheduler :=
  let s := { s with mapBlocksInFlight := s.mapBlocksInFlight.erase hashBlock }
  if fAccepted then
    { s with setBlocksQueuedOrInFlight := s.setBlocksQueuedOrInFlight.erase hashBlock }
  else if hashBlock ∈ s.setBlocksQueuedOrInFlight then
    { s with vBlocksToDownload := hashBlock :: s.vBlocksToDownload }
  else s

/-- The assignment loop: the queue, the number of blocks the peer has been asked for, and the
blocks to ask for now. -/
def assign (n : SyncNode env) (peer : Nat) (nNowSec : Int) :
    List Uint256 → Nat → List Uint256 → Scheduler → Scheduler × Nat × List Uint256
  | [], nInFlight, vGetBlocks, s => ({ s with vBlocksToDownload := [] }, nInFlight, vGetBlocks)
  | h :: queue, nInFlight, vGetBlocks, s =>
    if nInFlight < maxBlocksInFlightPerPeer then
      if s.farAhead n.nTipHeight h then
        ({ s with vBlocksToDownload := h :: queue }, nInFlight, vGetBlocks)
      else if n.alreadyHave h then
        assign n peer nNowSec queue nInFlight vGetBlocks
          { s with
            setBlocksQueuedOrInFlight := s.setBlocksQueuedOrInFlight.erase h
            mapBlockHeight := s.mapBlockHeight.erase h }
      else if h ∈ s.mapBlocksInFlight then assign n peer nNowSec queue nInFlight vGetBlocks s
      else
        assign n peer nNowSec queue (nInFlight + 1) (vGetBlocks ++ [h]) (s.request h peer nNowSec)
    else ({ s with vBlocksToDownload := h :: queue }, nInFlight, vGetBlocks)

variable (peer : Nat) (nNowSec : Int) (s : Scheduler)

/-- A pass of `SendMessages` up to the end of the assignment loop. -/
def assignPass : Scheduler × Nat × List Uint256 :=
  let s := s.requeueOverdue nNowSec
  n.assign peer nNowSec s.vBlocksToDownload (s.countInFlight peer) [] s

def breakStall (r : Scheduler × Nat × List Uint256) : Scheduler × List Uint256 :=
  if r.2.1 < maxBlocksInFlightPerPeer then
    match r.1.wedge peer nNowSec with
    | none => (r.1, r.2.2)
    | some (hWedge, nLowest) =>
      if nLowest ≤ n.nTipHeight + maxBlocksInFlightPerPeer ∧ n.alreadyHave hWedge = false then
        (r.1.request hWedge peer nNowSec, r.2.2 ++ [hWedge])
      else (r.1, r.2.2)
  else (r.1, r.2.2)

/-- A pass of `SendMessages` over a peer: the scheduler afterwards, and the blocks it asks the
peer for. -/
def sendPass : Scheduler × List Uint256 :=
  let r := n.breakStall peer nNowSec (n.assignPass peer nNowSec s)
  (r.1.prune n.tip nNowSec, r.2)

end SyncNode

structure DownloadNode (env : Env) where
  node : SyncNode env
  sched : Scheduler

inductive DownloadEvent (env : Env) where
  | headers (vHeaders : List CBlockHeader)
  | block (peer : Nat) (nNow : Int) (b : CBlock) (w wPending : World) (rand : Nat → Uint256)
      (calls : Nat → BufferCall)
  | send (peer : Nat) (nNowSec : Int)
  | chain (node : SyncNode env)

namespace DownloadNode

variable {env : Env}

def onBlock (d : DownloadNode env) (peer : Nat) (nNow : Int) (b : CBlock) (w wPending : World)
    (rand : Nat → Uint256) (calls : Nat → BufferCall) : DownloadNode env :=
  let sched := d.sched.heard peer nNow
  let hashBlock := env.scryptBlockhash b.toCBlockHeader
  match d.node.processBlock w wPending rand calls b with
  -- An exception skips the rest of the message.
  | (n, .error (.throw _)) => ⟨n, sched⟩
  | (n, .error (.reject _ _)) => ⟨n, SyncNode.onProcessed hashBlock false sched⟩
  | (n, .ok ()) => ⟨n, SyncNode.onProcessed hashBlock true sched⟩

def step (d : DownloadNode env) : DownloadEvent env → DownloadNode env
  | .headers vHeaders => { d with sched := d.node.onHeaders vHeaders d.sched }
  | .block peer nNow b w wPending rand calls => d.onBlock peer nNow b w wPending rand calls
  | .send peer nNowSec => { d with sched := (d.node.sendPass peer nNowSec d.sched).1 }
  | .chain node => { d with node := node }

def run (d : DownloadNode env) (events : List (DownloadEvent env)) : DownloadNode env :=
  events.foldl step d

end DownloadNode

/-! ## No wanted block is lost, no peer is overfilled -/

variable {s : Scheduler}

namespace Scheduler

theorem getElem?_of_erase {α : Type} {m : Std.TreeMap Uint256 α} {h hash : Uint256} {v : α}
    (hv : (m.erase h)[hash]? = some v) : m[hash]? = some v := by
  rw [getElem?_erase] at hv
  split at hv
  · cases hv
  · exact hv

/-- Every wanted block is queued or in flight, and every peer has at most its window of blocks in
flight. -/
structure TrackedBy (queue : List Uint256) (s : Scheduler) : Prop where
  wanted : ∀ hash ∈ s.setBlocksQueuedOrInFlight, hash ∈ queue ∨ hash ∈ s.mapBlocksInFlight
  bounded : ∀ peer, s.countInFlight peer ≤ maxBlocksInFlightPerPeer

def Tracked (s : Scheduler) : Prop := s.TrackedBy s.vBlocksToDownload

theorem countInFlight_le {s' : Scheduler}
    (h : ∀ (hash : Uint256) r, s'.mapBlocksInFlight[hash]? = some r →
      s.mapBlocksInFlight[hash]? = some r)
    (peer : Nat) : s'.countInFlight peer ≤ s.countInFlight peer := by
  have hnodup : s'.mapBlocksInFlight.toList.Nodup := by
    refine distinct_keys_toList.imp ?_
    rintro a b hab rfl
    simp at hab
  have hsub : s'.mapBlocksInFlight.toList ⊆ s.mapBlocksInFlight.toList := by
    rintro ⟨hash, r⟩ hmem
    rw [mem_toList_iff_getElem?_eq_some] at hmem ⊢
    exact h hash r hmem
  exact ((subperm_of_subset hnodup hsub).filter _).length_le

theorem countInFlight_request_le (s : Scheduler) (hash : Uint256) (peer : Nat) (nNowSec : Int)
    (q : Nat) :
    (s.request hash peer nNowSec).countInFlight q
      ≤ s.countInFlight q + if q = peer then 1 else 0 := by
  unfold countInFlight request
  have hperm := (toList_insert_perm (t := s.mapBlocksInFlight) (k := hash)
    (v := (peer, nNowSec))).filter (fun it => it.2.1 == q)
  rw [hperm.length_eq, filter_cons]
  have hle : ((s.mapBlocksInFlight.toList.filter (fun it => decide ¬(hash == it.1) = true)).filter
      (fun it => it.2.1 == q)).length
      ≤ (s.mapBlocksInFlight.toList.filter (fun it => it.2.1 == q)).length :=
    (filter_sublist.filter _).length_le
  by_cases hq : q = peer
  · subst hq
    simp only [beq_self_eq_true, if_true, length_cons]
    omega
  · have hq' : (peer == q) = false := by simpa using fun h => hq h.symm
    simp only [hq', hq, if_false]
    simpa using hle

theorem mem_foldl_push {x : Uint256} (late : List (Uint256 × (Nat × Int))) (queue : List Uint256) :
    x ∈ late.foldl (fun queue it => it.1 :: queue) queue ↔ x ∈ queue ∨ ∃ it ∈ late, it.1 = x := by
  rw [foldl_flip_cons_eq_append]
  simp [or_comm]

theorem mem_requeueOverdue {nNowSec : Int} {hash : Uint256} :
    hash ∈ (s.requeueOverdue nNowSec).vBlocksToDownload ↔
      hash ∈ s.vBlocksToDownload ∨
        ∃ r, s.mapBlocksInFlight[hash]? = some r ∧ s.overdue nNowSec r = true := by
  unfold requeueOverdue
  rw [mem_foldl_push]
  refine or_congr_right ?_
  constructor
  · rintro ⟨⟨k, r⟩, hmem, rfl⟩
    obtain ⟨hmem, hlate⟩ := mem_filter.mp hmem
    exact ⟨r, mem_toList_iff_getElem?_eq_some.mp hmem, hlate⟩
  · rintro ⟨r, hr, hlate⟩
    exact ⟨(hash, r), mem_filter.mpr
      ⟨mem_toList_iff_getElem?_eq_some.mpr hr, hlate⟩, rfl⟩

theorem getElem?_requeueOverdue (s : Scheduler) (nNowSec : Int) (hash : Uint256) :
    (s.requeueOverdue nNowSec).mapBlocksInFlight[hash]? =
      s.mapBlocksInFlight[hash]?.filter (fun r => !s.overdue nNowSec r) :=
  getElem?_filter'

theorem Tracked.requeueOverdue (h : s.Tracked) (nNowSec : Int) :
    (s.requeueOverdue nNowSec).Tracked := by
  refine ⟨?_, ?_⟩
  · intro hash hmem
    rcases h.wanted hash hmem with hq | hf
    · exact .inl (mem_requeueOverdue.mpr (.inl hq))
    obtain ⟨r, hr⟩ := Option.isSome_iff_exists.mp (mem_iff_isSome_getElem?.mp hf)
    cases hlate : s.overdue nNowSec r with
    | true => exact .inl (mem_requeueOverdue.mpr (.inr ⟨r, hr, hlate⟩))
    | false =>
      refine .inr (mem_iff_isSome_getElem?.mpr ?_)
      rw [getElem?_requeueOverdue, hr]
      simp [hlate]
  · intro peer
    refine le_trans (countInFlight_le ?_ peer) (h.bounded peer)
    intro hash r hr
    rw [getElem?_requeueOverdue, Option.filter_eq_some_iff] at hr
    exact hr.1

theorem TrackedBy.request {queue : List Uint256} (h : s.TrackedBy queue)
    {peer : Nat} (hroom : s.countInFlight peer < maxBlocksInFlightPerPeer) (hash : Uint256)
    (nNowSec : Int) : (s.request hash peer nNowSec).TrackedBy queue := by
  refine ⟨?_, ?_⟩
  · exact fun x hx => (h.wanted x hx).imp_right fun hf => mem_insert.mpr (.inr hf)
  intro q
  have hle := s.countInFlight_request_le hash peer nNowSec q
  have hq := h.bounded q
  by_cases hqp : q = peer
  · subst hqp
    simp only [if_true] at hle
    omega
  · simp only [hqp, if_false] at hle
    omega

/-- A block in flight need not be queued. -/
theorem TrackedBy.skip {hash : Uint256} {queue : List Uint256} (h : s.TrackedBy (hash :: queue))
    (hflight : hash ∈ s.mapBlocksInFlight) : s.TrackedBy queue := by
  refine ⟨?_, h.bounded⟩
  intro x hx
  rcases h.wanted x hx with hq | hf
  · rcases mem_cons.mp hq with rfl | hq
    · exact .inr hflight
    · exact .inl hq
  · exact .inr hf

theorem Tracked.prune (h : s.Tracked) (nTipHeight : Option Nat) (nNowSec : Int) :
    (s.prune nTipHeight nNowSec).Tracked := by
  unfold Scheduler.prune
  split
  · exact h
  · split
    · exact { h with }
    · exact h

theorem Tracked.queueBlock (h : s.Tracked) (hash : Uint256) (nHeight : Nat) :
    (s.queueBlock hash nHeight).Tracked := by
  refine ⟨?_, h.bounded⟩
  intro x hx
  rcases Finset.mem_insert.mp hx with rfl | hx
  · exact .inl (by simp [Scheduler.queueBlock])
  · rcases h.wanted x hx with hq | hf
    · exact .inl (mem_append_left _ hq)
    · exact .inr hf

end Scheduler

namespace SyncNode

variable {env : Env} (n : SyncNode env) (peer : Nat) (nNowSec : Int)

theorem assign_tracked (queue : List Uint256) (nInFlight : Nat) (vGetBlocks : List Uint256)
    (s : Scheduler) (h : s.TrackedBy queue) (hcount : s.countInFlight peer ≤ nInFlight) :
    (n.assign peer nNowSec queue nInFlight vGetBlocks s).1.Tracked ∧
      (n.assign peer nNowSec queue nInFlight vGetBlocks s).1.countInFlight peer
        ≤ (n.assign peer nNowSec queue nInFlight vGetBlocks s).2.1 := by
  fun_induction assign n peer nNowSec queue nInFlight vGetBlocks s with
  | case1 | case2 | case6 => exact ⟨{ h with }, hcount⟩
  | case3 hash queue _ _ s _ _ _ ih =>
    -- The block is there: it is no longer wanted.
    refine ih ⟨?_, h.bounded⟩ hcount
    intro x hx
    rw [Finset.mem_erase] at hx
    exact (h.wanted x hx.2).imp_left fun hq => (mem_cons.mp hq).resolve_left hx.1
  | case4 hash queue _ _ s _ _ _ hflight ih => exact ih (h.skip hflight) hcount
  | case5 hash queue nInFlight _ s hroom _ _ _ ih =>
    have hreq := h.request (Nat.lt_of_le_of_lt hcount hroom) hash nNowSec
    refine ih (hreq.skip (by simp [Scheduler.request])) ?_
    have hle := s.countInFlight_request_le hash peer nNowSec peer
    simp only [if_true] at hle
    omega

theorem sendPass_tracked (h : s.Tracked) : (n.sendPass peer nNowSec s).1.Tracked := by
  obtain ⟨htracked, hcount⟩ := n.assign_tracked peer nNowSec
    (s.requeueOverdue nNowSec).vBlocksToDownload ((s.requeueOverdue nNowSec).countInFlight peer) []
    (s.requeueOverdue nNowSec) (h.requeueOverdue nNowSec) le_rfl
  refine Scheduler.Tracked.prune ?_ _ _
  unfold breakStall
  split
  next hroom =>
    split
    · exact htracked
    · split
      · exact htracked.request (Nat.lt_of_le_of_lt hcount hroom) _ nNowSec
      · exact htracked
  · exact htracked

theorem onHeader_tracked {r : Scheduler × Std.TreeMap Uint256 Nat}
    (h : r.1.Tracked) (header : CBlockHeader) : (n.onHeader r header).1.Tracked := by
  unfold onHeader
  split
  · exact h
  dsimp only
  split
  · exact h.queueBlock _ _
  · exact h

theorem onHeaders_tracked (vHeaders : List CBlockHeader)
    (h : s.Tracked) : (n.onHeaders vHeaders s).Tracked := by
  unfold onHeaders
  split
  · exact h
  exact foldlRecOn vHeaders _ (motive := fun r : Scheduler × _ => r.1.Tracked) h
    fun _ hr header _ => n.onHeader_tracked hr header

theorem onProcessed_tracked (hashBlock : Uint256) (fAccepted : Bool)
    (h : s.Tracked) : (onProcessed hashBlock fAccepted s).Tracked := by
  -- Only the settled block can leave the requests.
  have hflight : ∀ x, x ≠ hashBlock → x ∈ s.mapBlocksInFlight →
      x ∈ s.mapBlocksInFlight.erase hashBlock := by
    intro x hne hx
    rw [mem_erase]
    exact ⟨by simpa using fun heq => hne heq.symm, hx⟩
  have hbounded : ∀ peer, Scheduler.countInFlight
      { s with mapBlocksInFlight := s.mapBlocksInFlight.erase hashBlock } peer
        ≤ maxBlocksInFlightPerPeer := by
    intro peer
    refine le_trans (Scheduler.countInFlight_le ?_ peer) (h.bounded peer)
    exact fun hash r hr => Scheduler.getElem?_of_erase hr
  unfold onProcessed
  dsimp only
  split
  · refine ⟨?_, hbounded⟩
    intro x hx
    obtain ⟨hne, hx⟩ := Finset.mem_erase.mp hx
    exact (h.wanted x hx).imp_right (hflight x hne)
  split
  · refine ⟨?_, hbounded⟩
    intro x hx
    by_cases hne : x = hashBlock
    · exact .inl (by simp [hne])
    · exact (h.wanted x hx).imp (mem_cons_of_mem _) (hflight x hne)
  next hnot =>
    refine ⟨?_, hbounded⟩
    intro x hx
    have hne : x ≠ hashBlock := fun heq => hnot (heq ▸ hx)
    exact (h.wanted x hx).imp_right (hflight x hne)

end SyncNode

namespace DownloadNode

variable {env : Env}

theorem onBlock_cases (d : DownloadNode env) (peer : Nat) (nNow : Int) (b : CBlock)
    (w wPending : World) (rand : Nat → Uint256) (calls : Nat → BufferCall) :
    d.onBlock peer nNow b w wPending rand calls =
        ⟨(d.node.processBlock w wPending rand calls b).1, d.sched.heard peer nNow⟩ ∨
      ∃ fAccepted,
        (fAccepted = false → ∃ nDoS message,
          (d.node.processBlock w wPending rand calls b).2 = .error (.reject nDoS message)) ∧
        d.onBlock peer nNow b w wPending rand calls =
          ⟨(d.node.processBlock w wPending rand calls b).1,
            SyncNode.onProcessed (env.scryptBlockhash b.toCBlockHeader) fAccepted
              (d.sched.heard peer nNow)⟩ := by
  unfold onBlock
  rcases d.node.processBlock w wPending rand calls b with ⟨n, (⟨nDoS, message⟩ | message) | ⟨⟩⟩
  · exact .inr ⟨false, fun _ => ⟨nDoS, message, rfl⟩, rfl⟩
  · exact .inl rfl
  · exact .inr ⟨true, (fun hf => by cases hf), rfl⟩

theorem step_tracked {d : DownloadNode env} (h : d.sched.Tracked) (e : DownloadEvent env) :
    (d.step e).sched.Tracked := by
  cases e with
  | headers vHeaders => exact d.node.onHeaders_tracked vHeaders h
  | send peer nNowSec => exact d.node.sendPass_tracked peer nNowSec h
  | chain node => exact h
  | block peer nNow b w wPending rand calls =>
    have hsched : (d.sched.heard peer nNow).Tracked := { h with }
    rcases d.onBlock_cases peer nNow b w wPending rand calls with heq | ⟨fAccepted, -, heq⟩
    all_goals
      rw [step, heq]
    · exact hsched
    · exact SyncNode.onProcessed_tracked _ fAccepted hsched

theorem initial_tracked : Scheduler.initial.Tracked where
  wanted hash h := by simp [Scheduler.initial] at h
  bounded peer := by
    have hempty : Scheduler.initial.countInFlight peer = 0 := rfl
    omega

/-- Over any interleaving, from any chain, a block in the dedup set is queued or in flight, and a
peer has at most its window of blocks in flight. -/
theorem download_tracked (node : SyncNode env) (events : List (DownloadEvent env)) :
    let s := (run ⟨node, Scheduler.initial⟩ events).sched
    (∀ hash ∈ s.setBlocksQueuedOrInFlight,
      hash ∈ s.vBlocksToDownload ∨ hash ∈ s.mapBlocksInFlight) ∧
    ∀ peer, s.countInFlight peer ≤ maxBlocksInFlightPerPeer := by
  have key : ∀ (events : List (DownloadEvent env)) (d : DownloadNode env), d.sched.Tracked →
      (run d events).sched.Tracked := by
    intro events
    induction events with
    | nil => exact fun d hd => hd
    | cons e events ih => exact fun d hd => ih (d.step e) (step_tracked hd e)
  have htracked := key events ⟨node, Scheduler.initial⟩ initial_tracked
  exact ⟨htracked.wanted, htracked.bounded⟩

end DownloadNode

/-! ## The height window -/

namespace Scheduler

/-- Beyond the window, the queue is in the order of the recorded heights, and nothing is in flight.
-/
structure InOrder (nTipHeight : Nat) (s : Scheduler) : Prop where
  queue : s.vBlocksToDownload.Pairwise (fun a b => ∀ x y, s.mapBlockHeight[a]? = some x →
    s.mapBlockHeight[b]? = some y → nTipHeight + blockDownloadWindow < x → x ≤ y)
  inFlight : ∀ hash ∈ s.mapBlocksInFlight, s.farAhead nTipHeight hash = false

variable {s : Scheduler} {hash : Uint256} {nTip : Nat} {nTipHeight : Nat}

theorem farAhead_eq_true : s.farAhead nTipHeight hash = true ↔
      ∃ k, s.mapBlockHeight[hash]? = some k ∧ nTipHeight + blockDownloadWindow < k := by
  unfold farAhead
  cases s.mapBlockHeight[hash]? <;> simp

theorem farAhead_eq_false : s.farAhead nTipHeight hash = false ↔
      ∀ k, s.mapBlockHeight[hash]? = some k → k ≤ nTipHeight + blockDownloadWindow := by
  unfold farAhead
  cases s.mapBlockHeight[hash]? <;> simp

theorem InOrder.mono {s' : Scheduler} {nTip' : Nat} (h : s.InOrder nTip)
    (htip : nTip ≤ nTip') (hqueue : s'.vBlocksToDownload.Sublist s.vBlocksToDownload)
    (hheight : ∀ (hash : Uint256) k, s'.mapBlockHeight[hash]? = some k →
      s.mapBlockHeight[hash]? = some k) (hflight : ∀ hash ∈ s'.mapBlocksInFlight,
      hash ∈ s.mapBlocksInFlight ∨ s.farAhead nTip hash = false) : s'.InOrder nTip' := by
  refine ⟨?_, ?_⟩
  · refine (h.queue.sublist hqueue).imp ?_
    intro a b hab x y hx hy hfar
    exact hab x y (hheight a x hx) (hheight b y hy) (by omega)
  intro hash hmem
  have hnear : s.farAhead nTip hash = false := (hflight hash hmem).elim (h.inFlight hash) id
  rw [farAhead_eq_false] at hnear ⊢
  intro k hk
  have := hnear k (hheight hash k hk)
  omega

theorem InOrder.push (h : s.InOrder nTip) (hnear : s.farAhead nTip hash = false) :
    InOrder nTip { s with vBlocksToDownload := hash :: s.vBlocksToDownload } := by
  refine ⟨pairwise_cons.mpr ⟨?_, h.queue⟩, h.inFlight⟩
  intro b _ x y hx _ hfar
  have := farAhead_eq_false.mp hnear x hx
  omega

theorem InOrder.requeueOverdue (h : s.InOrder nTip) (nNowSec : Int) :
    (s.requeueOverdue nNowSec).InOrder nTip := by
  have hpushed : ∀ late ⊆ s.mapBlocksInFlight.toList, InOrder nTip { s with
      vBlocksToDownload := late.foldl (fun queue it => it.1 :: queue) s.vBlocksToDownload } := by
    intro late hlate
    refine foldlRecOn late _ (motive := fun queue => InOrder nTip { s with
      vBlocksToDownload := queue }) h ?_
    rintro queue hqueue ⟨hash, r⟩ hmem
    have hr := mem_toList_iff_getElem?_eq_some.mp (hlate hmem)
    exact hqueue.push (h.inFlight hash (mem_iff_isSome_getElem?.mpr (by simp [hr])))
  refine ⟨(hpushed _ (filter_subset_self _)).queue, ?_⟩
  intro hash hmem
  refine h.inFlight hash ?_
  rw [mem_iff_isSome_getElem?] at hmem ⊢
  rw [getElem?_requeueOverdue] at hmem
  exact Option.isSome_of_isSome_filter _ _ hmem

/-- The block is not left over in the queue or in flight, and no block beyond the window is queued
with a greater height. -/
structure FitsAtEnd (s : Scheduler) (nTipHeight : Nat) (hash : Uint256) (nHeight : Nat) : Prop where
  notQueued : hash ∉ s.vBlocksToDownload
  notInFlight : hash ∉ s.mapBlocksInFlight
  height : ∀ x ∈ s.vBlocksToDownload, ∀ k, s.mapBlockHeight[x]? = some k →
    nTipHeight + blockDownloadWindow < k → k ≤ nHeight

theorem InOrder.queueBlock (h : s.InOrder nTip)
    {nHeight : Nat} (hfits : s.FitsAtEnd nTip hash nHeight) :
    (s.queueBlock hash nHeight).InOrder nTip := by
  have hother : ∀ x, x ≠ hash →
      (s.queueBlock hash nHeight).mapBlockHeight[x]? = s.mapBlockHeight[x]? := by
    intro x hne
    simp [Scheduler.queueBlock, Std.TreeMap.getElem?_insert, Ne.symm hne]
  have hself : (s.queueBlock hash nHeight).mapBlockHeight[hash]? = some nHeight := by
    simp [Scheduler.queueBlock]
  refine ⟨?_, ?_⟩
  · refine pairwise_append.mpr ⟨?_, pairwise_singleton _ _, ?_⟩
    · refine h.queue.imp_of_mem ?_
      intro a b ha hb hab x y hx hy
      rw [hother a (fun heq => hfits.notQueued (heq ▸ ha))] at hx
      rw [hother b (fun heq => hfits.notQueued (heq ▸ hb))] at hy
      exact hab x y hx hy
    · intro a ha b hb x y hx hy hfar
      rw [mem_singleton] at hb
      subst hb
      rw [hother a (fun heq => hfits.notQueued (heq ▸ ha))] at hx
      rw [hself] at hy
      cases hy
      exact hfits.height a ha x hx hfar
  · intro x hx
    have hne : x ≠ hash := fun heq => hfits.notInFlight (heq ▸ hx)
    have hnear := h.inFlight x hx
    rw [farAhead_eq_false] at hnear ⊢
    rw [hother x hne]
    exact hnear

end Scheduler

namespace SyncNode

variable {env : Env} (n : SyncNode env) (peer : Nat) (nNowSec : Int)

theorem assign_frame (queue : List Uint256) (nInFlight : Nat) (vGetBlocks : List Uint256)
    (s : Scheduler) :
    let r := (n.assign peer nNowSec queue nInFlight vGetBlocks s).1
    r.vBlocksToDownload.Sublist queue ∧
    (∀ (hash : Uint256) k, r.mapBlockHeight[hash]? = some k → s.mapBlockHeight[hash]? = some k) ∧
    ∀ hash ∈ r.mapBlocksInFlight,
      hash ∈ s.mapBlocksInFlight ∨ s.farAhead n.nTipHeight hash = false := by
  dsimp only
  fun_induction assign n peer nNowSec queue nInFlight vGetBlocks s with
  | case1 | case2 | case6 => exact ⟨refl _, fun _ _ hk => hk, fun _ hmem => .inl hmem⟩
  | case3 h queue _ _ s _ hnear _ ih =>
    -- The recorded height of `h` is forgotten.
    obtain ⟨hq, hk, hf⟩ := ih
    refine ⟨hq.cons _, fun hash k h' => Scheduler.getElem?_of_erase (hk hash k h'), ?_⟩
    intro hash hmem
    refine (hf hash hmem).imp_right ?_
    intro hfar
    by_cases heq : hash = h
    · rw [heq]
      simpa using hnear
    rw [Scheduler.farAhead_eq_false] at hfar ⊢
    intro k hk
    refine hfar k ?_
    simpa [getElem?_erase, Ne.symm heq] using hk
  | case4 _ _ _ _ _ _ _ _ _ ih => exact ⟨ih.1.cons _, ih.2⟩
  | case5 h queue _ _ s _ hnear _ _ ih =>
    obtain ⟨hq, hk, hf⟩ := ih
    refine ⟨hq.cons _, hk, ?_⟩
    intro hash hmem
    rcases hf hash hmem with hflight | hfar
    · rcases mem_insert.mp hflight with heq | hflight
      · have heq : h = hash := by simpa using heq
        subst heq
        exact .inr (by simpa using hnear)
      · exact .inl hflight
    · exact .inr hfar

theorem assignPass_inOrder (h : s.InOrder n.nTipHeight) :
    (n.assignPass peer nNowSec s).1.InOrder n.nTipHeight := by
  obtain ⟨hq, hk, hf⟩ := n.assign_frame peer nNowSec (s.requeueOverdue nNowSec).vBlocksToDownload
    ((s.requeueOverdue nNowSec).countInFlight peer) [] (s.requeueOverdue nNowSec)
  exact (h.requeueOverdue nNowSec).mono le_rfl hq hk hf

theorem wedge_mem {peer : Nat} {nNowSec : Int} {hWedge : Uint256} {nLowest : Nat}
    (h : s.wedge peer nNowSec = some (hWedge, nLowest)) : hWedge ∈ s.mapBlocksInFlight := by
  refine foldlRecOn s.mapBlocksInFlight.toList _ (motive := fun found : Option (Uint256 × Nat) =>
    ∀ x ∈ found, x.1 ∈ s.mapBlocksInFlight) (by rintro _ ⟨⟩) ?_ (hWedge, nLowest) h
  rintro found hfound ⟨hash, r⟩ hmem x hx
  have hr := mem_toList_iff_getElem?_eq_some.mp hmem
  have hit : hash ∈ s.mapBlocksInFlight := mem_iff_isSome_getElem?.mpr (by simp [hr])
  dsimp only at hx
  split at hx
  · split at hx
    · cases hx
      exact hit
    next hW nL =>
      split at hx
      · cases hx
        exact hit
      · cases hx
        exact hfound _ rfl
  · exact hfound x hx

theorem sendPass_inOrder (h : s.InOrder n.nTipHeight) :
    (n.sendPass peer nNowSec s).1.InOrder n.nTipHeight := by
  have hassign := n.assignPass_inOrder peer nNowSec h
  have hbreak : (n.breakStall peer nNowSec (n.assignPass peer nNowSec s)).1.InOrder
      n.nTipHeight := by
    unfold breakStall
    split
    · split
      · exact hassign
      next hwedge =>
        split
        · refine hassign.mono le_rfl (refl _) (fun _ _ hk => hk) ?_
          intro hash hmem
          rcases mem_insert.mp hmem with heq | hmem
          · have heq := Nat.compare_eq_eq.mp heq
            exact .inl (heq ▸ wedge_mem hwedge)
          · exact .inl hmem
        · exact hassign
    · exact hassign
  unfold sendPass Scheduler.prune
  dsimp only
  split
  · exact hbreak
  split
  · refine hbreak.mono le_rfl (refl _) ?_ (fun _ hmem => .inl hmem)
    intro hash k hk
    rw [getElem?_filter', Option.filter_eq_some_iff] at hk
    exact hk.1
  · exact hbreak

def HeadersOk (n : SyncNode env) : List CBlockHeader → Scheduler × Std.TreeMap Uint256 Nat → Prop
  | [], _ => True
  | header :: vHeaders, r =>
    (∀ nHeight, n.announcedHeight r.2 header = some nHeight →
      n.wanted r.1 (env.scryptBlockhash header) = true →
      r.1.FitsAtEnd n.nTipHeight (env.scryptBlockhash header) nHeight) ∧
    HeadersOk n vHeaders (n.onHeader r header)

theorem onHeaders_inOrder {vHeaders : List CBlockHeader}
    (h : s.InOrder n.nTipHeight) (hok : vHeaders.length ≤ 2000 → n.HeadersOk vHeaders (s, ∅)) :
    (n.onHeaders vHeaders s).InOrder n.nTipHeight := by
  have key : ∀ (vHeaders : List CBlockHeader) (r : Scheduler × Std.TreeMap Uint256 Nat),
      r.1.InOrder n.nTipHeight → n.HeadersOk vHeaders r →
      (vHeaders.foldl n.onHeader r).1.InOrder n.nTipHeight := by
    intro vHeaders
    induction vHeaders with
    | nil => exact fun r hr _ => hr
    | cons header vHeaders ih =>
      rintro r hr ⟨hhead, htail⟩
      refine ih _ ?_ htail
      unfold onHeader
      split
      · exact hr
      rename_i nHeight hheight
      dsimp only
      split
      next hwanted => exact hr.queueBlock (hhead nHeight hheight hwanted)
      · exact hr
  unfold onHeaders
  split
  · exact h
  next hlen => exact key vHeaders (s, ∅) h (hok (by omega))

theorem onProcessed_inOrder {nTip : Nat} {hashBlock : Uint256} {fAccepted : Bool}
    (h : s.InOrder nTip) (hnear : fAccepted = false → hashBlock ∈ s.setBlocksQueuedOrInFlight →
      s.farAhead nTip hashBlock = false) : (onProcessed hashBlock fAccepted s).InOrder nTip := by
  have herase : Scheduler.InOrder nTip
      { s with mapBlocksInFlight := s.mapBlocksInFlight.erase hashBlock } :=
    h.mono le_rfl (refl _) (fun _ _ hk => hk)
      (fun _ hmem => .inl (mem_of_mem_erase hmem))
  unfold onProcessed
  dsimp only
  split
  · exact { herase with }
  rename_i hrejected
  split
  next hmem => exact herase.push (hnear (by simpa using hrejected) hmem)
  · exact herase

end SyncNode

namespace DownloadNode

variable {env : Env}

/-- What keeps the queue in order: the tip does not fall, a `headers` message queues behind all that
is queued beyond the window, and a wanted block that is rejected is within the window. -/
def StepOk (d : DownloadNode env) : DownloadEvent env → Prop
  | .headers vHeaders => vHeaders.length ≤ 2000 → d.node.HeadersOk vHeaders (d.sched, ∅)
  | .block _ _ b w wPending rand calls =>
    let r := d.node.processBlock w wPending rand calls b
    let hashBlock := env.scryptBlockhash b.toCBlockHeader
    d.node.nTipHeight ≤ r.1.nTipHeight ∧
      ∀ nDoS message, r.2 = .error (.reject nDoS message) →
        hashBlock ∈ d.sched.setBlocksQueuedOrInFlight →
        d.sched.farAhead r.1.nTipHeight hashBlock = false
  | .send _ _ => True
  | .chain node => d.node.nTipHeight ≤ node.nTipHeight

def RunOk (d : DownloadNode env) : List (DownloadEvent env) → Prop
  | [] => True
  | e :: events => d.StepOk e ∧ RunOk (d.step e) events

theorem step_inOrder {d : DownloadNode env} (h : d.sched.InOrder d.node.nTipHeight)
    {e : DownloadEvent env} (hok : d.StepOk e) :
    (d.step e).sched.InOrder (d.step e).node.nTipHeight := by
  cases e with
  | headers vHeaders => exact d.node.onHeaders_inOrder h hok
  | send peer nNowSec => exact d.node.sendPass_inOrder peer nNowSec h
  | chain node => exact h.mono hok (refl _) (fun _ _ hk => hk) (fun _ hm => .inl hm)
  | block peer nNow b w wPending rand calls =>
    obtain ⟨htip, hreject⟩ := hok
    have hsched : (d.sched.heard peer nNow).InOrder
        (d.node.processBlock w wPending rand calls b).1.nTipHeight :=
      h.mono htip (refl _) (fun _ _ hk => hk) (fun _ hm => .inl hm)
    rcases d.onBlock_cases peer nNow b w wPending rand calls with heq | ⟨_, hrejected, heq⟩
    all_goals
      rw [step, heq]
    · exact hsched
    refine SyncNode.onProcessed_inOrder hsched ?_
    intro hf hmem
    obtain ⟨nDoS, message, hres⟩ := hrejected hf
    exact hreject nDoS message hres hmem

/-- If the assignment loop of a pass stops at a block that is beyond the window, no queued block is
recorded within it. -/
def WindowOk (d : DownloadNode env) (peer : Nat) (nNowSec : Int) : Prop :=
  let r := d.node.assignPass peer nNowSec d.sched
  ∀ h queue, r.1.vBlocksToDownload = h :: queue → r.2.1 < maxBlocksInFlightPerPeer →
    r.1.farAhead d.node.nTipHeight h = true →
    ∀ x ∈ r.1.vBlocksToDownload, ∀ k, r.1.mapBlockHeight[x]? = some k →
      d.node.nTipHeight + blockDownloadWindow < k

theorem windowOk_of_inOrder {d : DownloadNode env} (h : d.sched.InOrder d.node.nTipHeight)
    (peer : Nat) (nNowSec : Int) : d.WindowOk peer nNowSec := by
  intro hash queue hqueue _ hfar x hx k hk
  have horder := d.node.assignPass_inOrder peer nNowSec h
  obtain ⟨kFront, hkFront, hbeyond⟩ := Scheduler.farAhead_eq_true.mp hfar
  rw [hqueue] at hx
  rcases mem_cons.mp hx with rfl | hx
  · rw [hkFront] at hk
    cases hk
    exact hbeyond
  have hpair := horder.queue
  rw [hqueue] at hpair
  have := (pairwise_cons.mp hpair).1 x hx kFront k hkFront hk hbeyond
  omega

/-- In every run whose events keep the queue in order, no pass ever stops before a block within the
window. -/
theorem download_window (node : SyncNode env) (events : List (DownloadEvent env))
    (hok : RunOk ⟨node, Scheduler.initial⟩ events) (peer : Nat) (nNowSec : Int) :
    (run ⟨node, Scheduler.initial⟩ events).WindowOk peer nNowSec := by
  have key : ∀ (events : List (DownloadEvent env)) (d : DownloadNode env),
      d.sched.InOrder d.node.nTipHeight → d.RunOk events →
      (run d events).sched.InOrder (run d events).node.nTipHeight := by
    intro events
    induction events with
    | nil => exact fun d hd _ => hd
    | cons e events ih => exact fun d hd hok => ih (d.step e) (step_inOrder hd hok.1) hok.2
  refine windowOk_of_inOrder (key events ⟨node, Scheduler.initial⟩ ⟨List.Pairwise.nil, ?_⟩ hok)
    peer nNowSec
  intro hash hmem
  simp [Scheduler.initial] at hmem

/-- The line of blocks up to height 1024 is in the index, but all of it above the genesis block has
been found invalid. -/
def refusedLine : SyncNode sampleEnv where
  chain := { lineState false 1024 with
    pnext := fun _ => none
    pindexBest := some 0
    hashBestChain := 0
    nBestHeight := 0
    nBestChainTrust := 1 }
  mempool := CTxMemPool.empty
  orphans := OrphanBlocks.empty

def announce (hash hashPrev : Uint256) : CBlockHeader := ⟨4, hashPrev, 0, 0, 0, hash⟩

/-- The queue starts with a block on top of the refused line, which is beyond the window, and the
block next to the tip waits behind it. -/
theorem near_block_starved :
    let d := run ⟨refusedLine, Scheduler.initial⟩
      [.headers [announce 2000 1024], .headers [announce 2001 0]]
    d.sched.vBlocksToDownload = [2000, 2001] ∧
      d.sched.mapBlockHeight[2000]? = some 1025 ∧ d.sched.mapBlockHeight[2001]? = some 1 ∧
      ¬ d.WindowOk 7 100 := by
  refine ⟨by decide +kernel, by decide +kernel, by decide +kernel, ?_⟩
  intro hwindow
  have hbeyond := hwindow 2000 [2001] (by decide +kernel) (by decide +kernel) (by decide +kernel)
    2001 (by decide +kernel) 1 (by decide +kernel)
  exact absurd hbeyond (by decide +kernel)

theorem download_window_near :
    let calls := [.headers [announce 2000 0], .send 7 100]
    RunOk ⟨refusedLine, Scheduler.initial⟩ calls ∧
      (run ⟨refusedLine, Scheduler.initial⟩ calls).WindowOk 8 101 := by
  intro calls
  have hok : RunOk ⟨refusedLine, Scheduler.initial⟩ calls := by
    refine ⟨fun _ => ⟨?_, trivial⟩, trivial, trivial⟩
    intro nHeight _ _
    refine ⟨?_, ?_, ?_⟩
    · simp [Scheduler.initial]
    · simp [Scheduler.initial]
    · intro x hx
      simp [Scheduler.initial] at hx
  exact ⟨hok, download_window refusedLine _ hok 8 101⟩

end DownloadNode

end HoboNickels

import HoboNickels.MinWork
import HoboNickels.Accept

/-!
# Processing a block

`ProcessBlock` takes a block from a peer, the miner or a file. A block whose parent is not in the
index is buffered; any other is accepted, and then the buffered blocks that depend on it, in a walk
over a work queue. The walk ends early when a batch is full or has taken too long;
`DrainBufferedBlocks`, called again and again, walks from the best block.

An `OrphanBlocks` carries what the walk relies on: a block found under its hash is also found under
its parent. Requests to peers are left out.
-/

namespace HoboNickels

open Fallible

/-- The buffered blocks: `mapOrphanBlocks` in the order of the hashes, and `mapOrphanBlocksByPrev`
in the order of insertion, which is that of the entries with one key. -/
structure OrphanBlocks (env : Env) where
  mapOrphanBlocks : List CBlock
  mapOrphanBlocksByPrev : List CBlock
  setStakeSeenOrphan : List (COutPoint × Nat)
  byPrev : ∀ b ∈ mapOrphanBlocks, b ∈ mapOrphanBlocksByPrev

namespace OrphanBlocks

variable {env : Env}

def empty : OrphanBlocks env := ⟨[], [], [], by simp⟩

def find (o : OrphanBlocks env) (hash : Uint256) : Option CBlock :=
  o.mapOrphanBlocks.find? (fun b => env.scryptBlockhash b.toCBlockHeader == hash)

variable (o : OrphanBlocks env)

def countByPrev (hash : Uint256) : Bool :=
  o.mapOrphanBlocksByPrev.any (fun b => b.hashPrevBlock == hash)

def drop (b : CBlock) (fEraseStake : Bool) : OrphanBlocks env where
  mapOrphanBlocks := o.mapOrphanBlocks.filter (fun x =>
    env.scryptBlockhash x.toCBlockHeader != env.scryptBlockhash b.toCBlockHeader)
  mapOrphanBlocksByPrev := o.mapOrphanBlocksByPrev.erase b
  setStakeSeenOrphan :=
    if fEraseStake then o.setStakeSeenOrphan.filter (fun p => p != b.getProofOfStake)
    else o.setStakeSeenOrphan
  byPrev := by
    intro x hx
    obtain ⟨hmem, hne⟩ := List.mem_filter.mp hx
    refine (List.mem_erase_of_ne ?_).mpr (o.byPrev x hmem)
    rintro rfl
    simp at hne

/-- The block that is evicted next: the first at or after a random hash, or else the first. -/
def victim (randomhash : Uint256) : Option CBlock :=
  (o.mapOrphanBlocks.find? (fun b => decide (randomhash ≤ env.scryptBlockhash b.toCBlockHeader))).or
    o.mapOrphanBlocks.head?

/-- The loop of `LimitOrphanBlocks`; every round drops a block, so as many rounds as there are
blocks are enough. -/
def evict (nMaxOrphans : Nat) (rand : Nat → Uint256) : Nat → OrphanBlocks env → OrphanBlocks env
  | 0, o => o
  | rounds + 1, o =>
    if o.mapOrphanBlocks.length > nMaxOrphans then
      match o.victim (rand rounds) with
      | none => o
      | some pevict => evict nMaxOrphans rand rounds (o.drop pevict pevict.isProofOfStake)
    else o

def limitOrphanBlocks (nMaxOrphans : Nat) (rand : Nat → Uint256) : OrphanBlocks env :=
  evict nMaxOrphans rand o.mapOrphanBlocks.length o

def add (b : CBlock) : OrphanBlocks env where
  mapOrphanBlocks := o.mapOrphanBlocks.orderedInsert (fun x y =>
    env.scryptBlockhash x.toCBlockHeader ≤ env.scryptBlockhash y.toCBlockHeader) b
  mapOrphanBlocksByPrev := o.mapOrphanBlocksByPrev ++ [b]
  setStakeSeenOrphan :=
    if b.isProofOfStake then o.setStakeSeenOrphan.insert b.getProofOfStake
    else o.setStakeSeenOrphan
  byPrev := by
    intro x hx
    rcases (List.mem_orderedInsert _).mp hx with rfl | hx
    · simp
    · exact List.mem_append_left _ (o.byPrev x hx)

/-- `WantedByOrphan`: the parent of the first block of the orphan chain. A chain has no more
blocks than the map. -/
def wantedFrom (o : OrphanBlocks env) : Nat → CBlock → Uint256
  | 0, b => b.hashPrevBlock
  | rounds + 1, b =>
    match o.find b.hashPrevBlock with
    | none => b.hashPrevBlock
    | some parent => wantedFrom o rounds parent

def wantedByOrphan (b : CBlock) : Uint256 :=
  o.wantedFrom o.mapOrphanBlocks.length b

variable {o}

end OrphanBlocks

def maxOrphanBlocks : Nat := 2000

def maxOrphanDrainBlocks : Nat := 256

/-! ## The node with its buffer -/

structure SyncNode (env : Env) extends Node where
  orphans : OrphanBlocks env

/-- The worlds that `AcceptBlock` works in, and whether the time of the batch is up afterwards. -/
structure BufferCall where
  w : World
  wPending : World
  fTimeUp : Bool

namespace SyncNode

variable {env : Env}

variable (n : SyncNode env)

variable (w wPending : World) (rand : Nat → Uint256) (calls : Nat → BufferCall) (b : CBlock)

def wantedByPendingSyncCheckpoint (hashBlock : Uint256) : Bool :=
  let hashPending := n.chain.hashPendingCheckpoint
  if hashPending = 0 then false
  else if hashBlock = hashPending then true
  else match n.orphans.find hashPending with
  | none => false
  | some b => hashBlock == n.orphans.wantedByOrphan b

/-- The next step of the walk: the work queue from its first entry that has buffered children,
and the first of these. -/
def nextOrphan (n : SyncNode env) : List Uint256 → Option (List Uint256 × CBlock)
  | [] => none
  | hashPrev :: vWorkQueue =>
    match n.orphans.mapOrphanBlocksByPrev.find? (fun b => b.hashPrevBlock == hashPrev) with
    | some b => some (hashPrev :: vWorkQueue, b)
    | none => nextOrphan n vWorkQueue

/-- An accepted block joins the work queue and is dropped from the buffer; after an exception it
stays there. -/
def connectOrphan (c : BufferCall) (vWorkQueue : List Uint256)
    (pblockOrphan : CBlock) : SyncNode env × List Uint256 × Option String :=
  let hashOrphan := env.scryptBlockhash pblockOrphan.toCBlockHeader
  match n.toNode.acceptBlock env c.w c.wPending pblockOrphan with
  | (n₁, .error (.throw message)) => ({ n with toNode := n₁ }, vWorkQueue, some message)
  | (n₁, .error (.reject _ _)) =>
    ({ toNode := n₁, orphans := n.orphans.drop pblockOrphan true }, vWorkQueue, none)
  | (n₁, .ok ()) =>
    ({ toNode := n₁, orphans := n.orphans.drop pblockOrphan true }, vWorkQueue ++ [hashOrphan],
      none)

/-- `ProcessBufferedBlocks`, from a work queue and with `nLeft` blocks of the batch to go. -/
def processBufferedBlocks (calls : Nat → BufferCall) :
    Nat → List Uint256 → SyncNode env → SyncNode env × Outcome
  | 0, _, n => (n, .returned true)
  | nLeft + 1, vWorkQueue, n =>
    match n.nextOrphan vWorkQueue with
    | none => (n, .returned false)
    | some (vWorkQueue, pblockOrphan) =>
      match n.connectOrphan (calls nLeft) vWorkQueue pblockOrphan with
      | (n₁, _, some message) => (n₁, .threw message)
      | (n₁, vWorkQueue₁, none) =>
        if (calls nLeft).fTimeUp then (n₁, .returned true)
        else processBufferedBlocks calls nLeft vWorkQueue₁ n₁

def drainBufferedBlocks : SyncNode env × Outcome :=
  if n.orphans.mapOrphanBlocksByPrev.isEmpty then (n, .returned false)
  else processBufferedBlocks calls maxOrphanDrainBlocks [n.chain.hashBestChain] n

/-! ## ProcessBlock -/

def checkProcess (w : World) (b : CBlock) : Except Fail Unit := do
  let hash := env.scryptBlockhash b.toCBlockHeader
  require (n.chain.mapBlockIndex hash).isNone (.reject 0 "ProcessBlock() : already have block")
  require (n.orphans.find hash).isNone (.reject 0 "ProcessBlock() : already have block (orphan)")
  require (!(b.isProofOfStake && n.chain.setStakeSeen.contains b.getProofOfStake
      && !n.orphans.countByPrev hash && !n.wantedByPendingSyncCheckpoint hash))
    (.reject 0 "ProcessBlock() : duplicate proof-of-stake")
  relabel "ProcessBlock() : CheckBlock FAILED" (b.checkBlock env w.nAdjustedTime true true true)
  require (b.hashPrevBlock == n.chain.hashBestChain || n.wantedByPendingSyncCheckpoint hash
      || passesMinWork env.fTestNet (n.chain.mapBlockIndex.chainOf n.chain.hashSyncCheckpoint)
        b.nTime b.nBits b.isProofOfStake)
    (.reject 100 (if b.isProofOfStake then "ProcessBlock() : block with too little proof-of-stake"
      else "ProcessBlock() : block with too little proof-of-work"))

def bufferBlock : SyncNode env × Except Fail Unit :=
  let hash := env.scryptBlockhash b.toCBlockHeader
  if b.isProofOfStake && n.orphans.setStakeSeenOrphan.contains b.getProofOfStake
      && !n.orphans.countByPrev hash && !n.wantedByPendingSyncCheckpoint hash then
    (n, .error (.reject 0 "ProcessBlock() : duplicate proof-of-stake for orphan block"))
  else ({ n with orphans := (n.orphans.add b).limitOrphanBlocks maxOrphanBlocks rand }, .ok ())

/-- The route of a block whose parent is known: `AcceptBlock`, then the blocks that depend on
it. -/
def acceptAndConnect : SyncNode env × Except Fail Unit :=
  match n.toNode.acceptBlock env w wPending b with
  | (n₁, .error (.throw message)) => ({ n with toNode := n₁ }, .error (.throw message))
  | (n₁, .error (.reject nDoS _)) =>
    ({ n with toNode := n₁ }, .error (.reject nDoS "ProcessBlock() : AcceptBlock FAILED"))
  | (n₁, .ok ()) =>
    match processBufferedBlocks calls maxOrphanDrainBlocks
        [env.scryptBlockhash b.toCBlockHeader] { n with toNode := n₁ } with
    | (n₂, .threw message) => (n₂, .error (.throw message))
    | (n₂, .returned _) => (n₂, .ok ())

def processBlock : SyncNode env × Except Fail Unit :=
  match n.checkProcess w b with
  | .error e => (n, .error e)
  | .ok () =>
    if (n.chain.mapBlockIndex b.hashPrevBlock).isNone then n.bufferBlock rand b
    else n.acceptAndConnect w wPending calls b

end SyncNode

end HoboNickels

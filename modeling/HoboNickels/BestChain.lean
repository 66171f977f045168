import HoboNickels.Mempool
import HoboNickels.ConnectSpec

/-!
# Choosing the best chain

`Reorganize`, `SetBestChainInner` and `SetBestChain`. The genesis block is simply recorded; a child
of the best block is connected; for any other block the node reorganises, in one database
transaction, to the first block of the new branch that has more trust than the best block, and then
connects the rest of the branch (the *postponed* blocks) one transaction at a time. The wallet
notifications are in `WalletSync`.
-/

namespace HoboNickels

open Fallible WriteBatch ParentChain

inductive Outcome where
  | returned (ok : Bool)
  | threw (message : String)
  deriving DecidableEq, Repr

def World.readBlock (w : World) (env : Env) (pindex : CBlockIndex) : Option CBlock :=
  if openBlockFile pindex.nFile && w.blockReadOk pindex.hashBlock then
    match w.disk.block pindex.nFile pindex.nBlockPos with
    | none => none
    | some b =>
      let hash := env.scryptBlockhash b.toCBlockHeader
      if b.isProofOfWork && !checkProofOfWork env.fTestNet hash b.nBits then none
      else if hash = pindex.hashBlock then some b else none
  else none

/-! ## Reorganize -/

/-- The search for the fork: the chain of `plonger` is cut down to the height of `pfork`, and
`pfork` steps back as long as they differ. -/
def findFork : List CBlockIndex → List CBlockIndex → Option CBlockIndex
  | [], _ => none
  | pfork :: rest, longer =>
    match longer.dropWhile (fun p => decide (p.nHeight > pfork.nHeight)) with
    | [] => none
    | plonger :: more =>
      if plonger.hashBlock = pfork.hashBlock then some pfork else findFork rest (plonger :: more)

def aboveFork (pfork : CBlockIndex) (chain : List CBlockIndex) : List CBlockIndex :=
  chain.takeWhile (fun p => p.hashBlock != pfork.hashBlock)

/-- The transactions of a disconnected block that go back to the memory pool. -/
def CBlock.resurrect (env : Env) (b : CBlock) (pindex : CBlockIndex) : List CTransaction :=
  if pindex.nHeight > getTotalBlocksEstimate env.fTestNet then
    b.vtx.filter (fun tx => !(tx.isCoinBase || tx.isCoinStake))
  else []

/-- The loop that disconnects the shorter branch, with the transactions to resurrect. -/
def ChainState.disconnectBlocks (env : Env) (w : World) :
    List CBlockIndex → ChainState → ChainState × Except Fail (List CTransaction)
  | [], s => (s, .ok [])
  | pindex :: rest, s =>
    match w.readBlock env pindex with
    | none => (s, .error (.reject 0 "Reorganize() : ReadFromDisk for disconnect failed"))
    | some block =>
      match s.disconnectBlock env block pindex with
      | .error _ => (s, .error (.reject 0 "Reorganize() : DisconnectBlock failed"))
      | .ok s₁ =>
        match disconnectBlocks env w rest s₁ with
        | (s₂, .error e) => (s₂, .error e)
        | (s₂, .ok vResurrect) => (s₂, .ok (vResurrect ++ block.resurrect env pindex))

/-- The loop that connects the longer branch, with the transactions to delete from the memory
pool. -/
def ChainState.connectBlocks (env : Env) (w : World) (mempool : Uint256 → Option CTransaction) :
    List CBlockIndex → ChainState → ChainState × Except Fail (List CTransaction)
  | [], s => (s, .ok [])
  | pindex :: rest, s =>
    match w.readBlock env pindex with
    | none => (s, .error (.reject 0 "Reorganize() : ReadFromDisk for connect failed"))
    | some block =>
      match s.connectBlock env w mempool block pindex with
      | .error (.throw message) => (s, .error (.throw message))
      | .error (.reject _ _) => (s, .error (.reject 0 "Reorganize() : ConnectBlock failed"))
      | .ok s₁ =>
        match connectBlocks env w mempool rest s₁ with
        | (s₂, .error e) => (s₂, .error e)
        | (s₂, .ok vDelete) => (s₂, .ok (block.vtx ++ vDelete))

def unlinkAll (pnext : Uint256 → Option Uint256) (branch : List CBlockIndex) :
    Uint256 → Option Uint256 :=
  branch.foldl (fun next pindex =>
    match pindex.pprev with
    | none => next
    | some p => setNext next p none) pnext

def linkAll (pnext : Uint256 → Option Uint256) (branch : List CBlockIndex) :
    Uint256 → Option Uint256 :=
  branch.foldl (fun next pindex =>
    match pindex.pprev with
    | none => next
    | some p => setNext next p (some pindex.hashBlock)) pnext

def ChainState.bestChain (s : ChainState) : List CBlockIndex :=
  match s.pindexBest with
  | none => []
  | some h => s.mapBlockIndex.chainOf h

namespace Node

def withDb (n : Node) (db : CTxDB) : Node := { n with chain := { n.chain with db := db } }

def txnBegin (n : Node) : Node := n.withDb (Store.txnBegin n.chain.db)

def txnAbort (n : Node) : Node := n.withDb (Store.txnAbort n.chain.db)

variable (n : Node) (env : Env) (w : World)

/-- What `Reorganize` does after its commit: relink the branches, then the memory pool. -/
def finishReorganize (vDisconnect vConnect : List CBlockIndex)
    (vResurrect vDelete : List CTransaction) : Node :=
  let linked := { n with chain := { n.chain with
    pnext := linkAll (unlinkAll n.chain.pnext vDisconnect) vConnect } }
  vDelete.foldl (removeFromPool env) (vResurrect.foldl (tryAccept env w) linked)

def switchBranch (pindexNew : CBlockIndex)
    (vDisconnect vConnect : List CBlockIndex) : Node × Except Fail Unit :=
  match n.chain.disconnectBlocks env w vDisconnect with
  | (s₁, .error e) => ({ n with chain := s₁ }, .error e)
  | (s₁, .ok vResurrect) =>
    match s₁.connectBlocks env w n.mempool.mapTx vConnect with
    | (s₂, .error e) => ({ n with chain := s₂ }, .error e)
    | (s₂, .ok vDelete) =>
      let n₃ := { n with chain := s₂ }.withDb (s₂.db.writeHashBestChain pindexNew.hashBlock)
      if w.txnCommitOk .reorganize then
        ((n₃.withDb (Store.txnCommit n₃.chain.db)).finishReorganize env w vDisconnect vConnect
          vResurrect vDelete, .ok ())
      else (n₃.txnAbort, .error (.reject 0 "Reorganize() : TxnCommit failed"))

def reorganize (pindexNew : CBlockIndex) : Node × Except Fail Unit :=
  let chainNew := n.chain.mapBlockIndex.chainOf pindexNew.hashBlock
  match findFork n.chain.bestChain chainNew with
  | none => (n, .error (.reject 0 "Reorganize() : pprev is null"))
  | some pfork =>
    n.switchBranch env w pindexNew (aboveFork pfork n.chain.bestChain)
      (aboveFork pfork chainNew).reverse

/-! ## SetBestChain -/

/-- `InvalidChainFound`: the record is written through a handle of its own. -/
def invalidChainFound (n : Node) (pindexNew : CBlockIndex) : Node :=
  if pindexNew.nChainTrust > n.chain.nBestInvalidTrust then
    { n with chain := { n.chain with
      nBestInvalidTrust := pindexNew.nChainTrust
      db := n.chain.db.writeBestInvalidTrust pindexNew.nChainTrust } }
  else n

/-- `SetBestChainInner`, inside an open database transaction. -/
def setBestChainInner (b : CBlock) (pindexNew : CBlockIndex) : Node × Outcome :=
  let hash := env.scryptBlockhash b.toCBlockHeader
  match n.chain.connectBlock env w n.mempool.mapTx b pindexNew with
  | .error (.throw message) => (n.txnAbort, .threw message)
  | .error (.reject _ _) => (n.txnAbort.invalidChainFound pindexNew, .returned false)
  | .ok s₁ =>
    let n₁ := { n with chain := s₁ }.withDb (s₁.db.writeHashBestChain hash)
    if w.txnCommitOk (.inner pindexNew.hashBlock) then
      let n₂ := n₁.withDb (Store.txnCommit n₁.chain.db)
      let n₃ := { n₂ with chain := { n₂.chain with pnext := linkAll n₂.chain.pnext [pindexNew] } }
      (b.vtx.foldl (removeFromPool env) n₃, .returned true)
    else (n₁.txnAbort, .returned false)

/-- The blocks of the new chain, tip first, that are postponed until after `Reorganize`. -/
def postponed (nBestTrust : Nat) : List CBlockIndex → List CBlockIndex
  | p :: q :: rest =>
    if q.nChainTrust > nBestTrust then p :: postponed nBestTrust (q :: rest) else []
  | _ => []

/-- Connect the postponed blocks, oldest first. A failure ends the loop and is not reported; an
exception is. -/
def connectFurther (env : Env) (w : World) : List CBlockIndex → Node → Node × Option String
  | [], n => (n, none)
  | pindex :: rest, n =>
    match w.readBlock env pindex with
    | none => (n, none)
    | some block =>
      if w.txnBeginOk (.inner pindex.hashBlock) then
        match n.txnBegin.setBestChainInner env w block pindex with
        | (n₁, .returned true) => connectFurther env w rest n₁
        | (n₁, .returned false) => (n₁, none)
        | (n₁, .threw message) => (n₁, some message)
      else (n, none)

/-- The wallets' copy of the locator, which is written just before, is taken to raise no exception.
-/
def newBest (n : Node) (hash : Uint256) (pindexNew : CBlockIndex) : Node :=
  { n with chain := { n.chain with
    hashBestChain := hash
    pindexBest := some pindexNew.hashBlock
    nBestHeight := pindexNew.nHeight
    nBestChainTrust := pindexNew.nChainTrust } }

def setBestGenesis (n : Node) (w : World) (hash : Uint256) (pindexNew : CBlockIndex) :
    Node × Outcome :=
  let n₁ := n.withDb (n.chain.db.writeHashBestChain hash)
  if w.txnCommitOk .genesis then
    let n₂ := n₁.withDb (Store.txnCommit n₁.chain.db)
    (({ n₂ with chain := { n₂.chain with
        pindexGenesisBlock := some pindexNew.hashBlock } }).newBest hash pindexNew, .returned true)
  else (n₁.txnAbort, .returned false)

def setBestByReorganize (hash : Uint256) (pindexNew : CBlockIndex) : Node × Outcome :=
  let chainNew := n.chain.mapBlockIndex.chainOf pindexNew.hashBlock
  match n.chain.bestChain with
  | [] => (n.txnAbort, .threw "pindexBest is null")
  | pindexBest :: _ =>
    let vpindexSecondary := postponed pindexBest.nChainTrust chainNew
    let pindexIntermediate := (chainNew.drop vpindexSecondary.length).headD pindexNew
    match n.reorganize env w pindexIntermediate with
    | (n₁, .error (.throw message)) => (n₁.txnAbort, .threw message)
    | (n₁, .error (.reject _ _)) => (n₁.txnAbort.invalidChainFound pindexNew, .returned false)
    | (n₁, .ok ()) =>
      match connectFurther env w vpindexSecondary.reverse n₁ with
      | (n₂, some message) => (n₂, .threw message)
      | (n₂, none) => (n₂.newBest hash pindexNew, .returned true)

def setBestChain (b : CBlock) (pindexNew : CBlockIndex) : Node × Outcome :=
  let hash := env.scryptBlockhash b.toCBlockHeader
  if !w.txnBeginOk .setBestChain then (n, .returned false)
  else if n.chain.pindexGenesisBlock = none ∧ hash = env.hashGenesisBlock then
    n.txnBegin.setBestGenesis w hash pindexNew
  else if b.hashPrevBlock = n.chain.hashBestChain then
    match n.txnBegin.setBestChainInner env w b pindexNew with
    | (n₁, .returned true) => (n₁.newBest hash pindexNew, .returned true)
    | (n₁, outcome) => (n₁, outcome)
  else n.txnBegin.setBestByReorganize env w hash pindexNew

end Node

end HoboNickels

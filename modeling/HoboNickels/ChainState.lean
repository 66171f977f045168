import HoboNickels.BlockIndex
import HoboNickels.Lib.WriteBatch

/-!
# The chain state of a node

The globals of `main.cpp` on the block tree and the best chain, the records of the transaction
database, the block files, and what a call can observe of its surroundings. Whether a read or a
database call succeeds is answered by `World` once for every place in the program that asks, so a
theorem over all worlds covers every way in which such calls can fail.
-/

namespace HoboNickels

open WriteBatch

structure CDiskTxPos where
  nFile : Nat
  nBlockPos : Nat
  nTxPos : Nat
  deriving DecidableEq, Repr, Inhabited

namespace CDiskTxPos

def null : CDiskTxPos := ⟨uint32Max, 0, 0⟩

def isNull (p : CDiskTxPos) : Bool := p.nFile == uint32Max

@[simp] theorem isNull_null : null.isNull = true := rfl

/-- The position that refers `FetchInputs` to the memory pool. -/
def memoryPool : CDiskTxPos := ⟨1, 1, 1⟩

end CDiskTxPos

structure CTxIndex where
  pos : CDiskTxPos
  vSpent : List CDiskTxPos
  deriving DecidableEq, Repr, Inhabited

namespace CTxIndex

variable (t : CTxIndex) (n : Nat) (pos : CDiskTxPos)

def new (nOutputs : Nat) : CTxIndex :=
  ⟨pos, List.replicate nOutputs CDiskTxPos.null⟩

def setSpent : CTxIndex :=
  { t with vSpent := t.vSpent.set n pos }

def isUnspent : Bool :=
  match t.vSpent[n]? with
  | some p => p.isNull
  | none => false

@[simp] theorem length_setSpent (p : CDiskTxPos) : (t.setSpent n p).vSpent.length =
    t.vSpent.length := List.length_set

@[simp] theorem pos_setSpent (p : CDiskTxPos) : (t.setSpent n p).pos = t.pos := rfl

theorem isUnspent_setSpent_self {t : CTxIndex} {n : Nat} (p : CDiskTxPos)
    (h : n < t.vSpent.length) : (t.setSpent n p).isUnspent n = p.isNull := by
  simp [setSpent, isUnspent, h]

theorem isUnspent_setSpent_of_ne {t : CTxIndex} {n m : Nat} (p : CDiskTxPos) (h : m ≠ n) :
    (t.setSpent n p).isUnspent m = t.isUnspent m := by
  simp [setSpent, isUnspent, Ne.symm h]

end CTxIndex

structure CDiskBlockIndex where
  index : CBlockIndex
  nMint : Int
  nMoneySupply : Int
  hashNext : Uint256
  deriving DecidableEq, Repr, Inhabited

inductive DbKey where
  | tx (hash : Uint256)
  | blockIndex (hash : Uint256)
  | hashBestChain
  | bnBestInvalidTrust
  | hashSyncCheckpoint
  deriving DecidableEq, Repr

def DbVal : DbKey → Type
  | .tx _ => CTxIndex
  | .blockIndex _ => CDiskBlockIndex
  | .hashBestChain => Uint256
  | .bnBestInvalidTrust => Nat
  | .hashSyncCheckpoint => Uint256

abbrev CTxDB := Store DbVal

namespace CTxDB

variable (db : CTxDB)

def readTxIndex (hash : Uint256) : Option CTxIndex := db.read (.tx hash)

def updateTxIndex (hash : Uint256) (t : CTxIndex) : CTxDB :=
  Store.put db (.tx hash) t

def eraseTxIndex (hash : Uint256) : CTxDB := Store.delete db (.tx hash)

def writeBlockIndex (b : CDiskBlockIndex) : CTxDB :=
  Store.put db (.blockIndex b.index.hashBlock) b

def writeHashBestChain (hash : Uint256) : CTxDB := Store.put db .hashBestChain hash

def writeBestInvalidTrust (trust : Nat) : CTxDB :=
  Store.put db .bnBestInvalidTrust trust

def writeSyncCheckpoint (hash : Uint256) : CTxDB :=
  Store.put db .hashSyncCheckpoint hash

def committedBest : Option Uint256 :=
  Finmap.lookup DbKey.hashBestChain db.committed

def committedTx (hash : Uint256) : Option CTxIndex :=
  Finmap.lookup (DbKey.tx hash) db.committed

theorem readTxIndex_updateTxIndex (k : Uint256) (t : CTxIndex) (h : Uint256) :
    readTxIndex (db.updateTxIndex k t) h = if h = k then some t else db.readTxIndex h := by
  by_cases hk : h = k
  · subst hk
    rw [if_pos rfl]
    exact read_put_self db (.tx h) t
  · rw [if_neg hk]
    exact read_put_of_ne db _ (by simpa using hk)

theorem readTxIndex_eraseTxIndex (k h : Uint256) :
    readTxIndex (db.eraseTxIndex k) h = if h = k then none else db.readTxIndex h := by
  by_cases hk : h = k
  · subst hk
    rw [if_pos rfl]
    exact read_delete_self db (.tx h)
  · rw [if_neg hk]
    exact read_delete_of_ne db (by simpa using hk)

@[simp] theorem readTxIndex_writeBlockIndex (b : CDiskBlockIndex) (h : Uint256) :
    readTxIndex (db.writeBlockIndex b) h = db.readTxIndex h :=
  read_put_of_ne db _ (by simp)

@[simp] theorem readTxIndex_writeHashBestChain (hash h : Uint256) :
    readTxIndex (db.writeHashBestChain hash) h = db.readTxIndex h :=
  read_put_of_ne db _ (by simp)

/-- The database after operations inside an open transaction: the committed table is the same
and the transaction is still open. -/
def InTxn (db' : CTxDB) : Prop :=
  db.activeBatch.isSome = true → db'.committed = db.committed ∧ db'.activeBatch.isSome = true

theorem InTxn.refl : InTxn db db := fun h => ⟨rfl, h⟩

theorem InTxn.trans {db1 db2 db3 : CTxDB} (h1 : InTxn db1 db2) (h2 : InTxn db2 db3) :
    InTxn db1 db3 := by
  intro h
  obtain ⟨hc1, ho1⟩ := h1 h
  obtain ⟨hc2, ho2⟩ := h2 ho1
  exact ⟨hc2.trans hc1, ho2⟩

theorem inTxn_doOp (op : Op DbVal) : InTxn db (Store.doOp db op) :=
  fun h => doOp_open h op

end CTxDB

/-- What the block files hold at a file number and offset, read as a block or as a
transaction. -/
structure Disk where
  block : Nat → Nat → Option CBlock
  tx : Nat → Nat → Option CTransaction

def openBlockFile (nFile : Nat) : Bool := decide (1 ≤ nFile) && nFile != uint32Max

theorem CDiskTxPos.isNull_of_openBlockFile {pos : CDiskTxPos}
    (h : openBlockFile pos.nFile = true) : pos.isNull = false := by
  unfold isNull
  simpa using (Bool.and_eq_true_iff.mp h).2

def firstTxPos (nBlockPos : Nat) (b : CBlock) : Nat :=
  nBlockPos + blockHeaderSize + compactSizeLen b.vtx.length

def txPositions (nTxPos : Nat) : List CTransaction → List Nat
  | [] => []
  | tx :: rest => nTxPos :: txPositions (nTxPos + tx.serializeSize) rest

inductive ReadSite where
  | fetchInput (fBlock : Bool) (hashTx : Uint256) (input : Nat)
  | coinAgeTx (hashTx : Uint256) (input : Nat)
  | coinAgeHeader (hashTx : Uint256) (input : Nat)
  | stakeTx (hashTx : Uint256)
  | stakeHeader (hashTx : Uint256)
  deriving DecidableEq, Repr

inductive TxnSite where
  | addToBlockIndex (hash : Uint256)
  | setBestChain
  | genesis
  | reorganize
  | inner (hash : Uint256)
  | syncCheckpoint
  deriving DecidableEq, Repr

structure World where
  disk : Disk
  readOk : ReadSite → Bool
  blockReadOk : Uint256 → Bool
  txnBeginOk : TxnSite → Bool
  txnCommitOk : TxnSite → Bool
  nAdjustedTime : Int
  nBlocksOfPeers : Int
  fDiskSpace : Bool
  /-- Where `CBlock::WriteToDisk` puts the block, if it succeeds. -/
  writeToDisk : Option (Nat × Nat)

structure ChainState where
  mapBlockIndex : BlockMap
  pnext : Uint256 → Option Uint256
  nMint : Uint256 → Int
  nMoneySupply : Uint256 → Int
  pindexGenesisBlock : Option Uint256
  pindexBest : Option Uint256
  hashBestChain : Uint256
  nBestHeight : Int
  nBestChainTrust : Nat
  nBestInvalidTrust : Nat
  nSyncCheckpointHeight : Int
  hashSyncCheckpoint : Uint256
  hashPendingCheckpoint : Uint256
  hashInvalidCheckpoint : Uint256
  setStakeSeen : List (COutPoint × Nat)
  db : CTxDB

namespace ChainState

/-- Before anything is loaded. -/
def initial : ChainState where
  mapBlockIndex := fun _ => none
  pnext := fun _ => none
  nMint := fun _ => 0
  nMoneySupply := fun _ => 0
  pindexGenesisBlock := none
  pindexBest := none
  hashBestChain := 0
  nBestHeight := -1
  nBestChainTrust := 0
  nBestInvalidTrust := 0
  nSyncCheckpointHeight := 0
  hashSyncCheckpoint := 0
  hashPendingCheckpoint := 0
  hashInvalidCheckpoint := 0
  setStakeSeen := []
  db := ⟨∅, none⟩

def isInMainChain (s : ChainState) (h : Uint256) : Bool :=
  (s.pnext h).isSome || s.pindexBest == some h

/-- The entry of a block as `CDiskBlockIndex(pindex)` copies it out of memory. -/
def diskIndex (s : ChainState) (b : CBlockIndex) : CDiskBlockIndex where
  index := b
  nMint := s.nMint b.hashBlock
  nMoneySupply := s.nMoneySupply b.hashBlock
  hashNext := (s.pnext b.hashBlock).getD 0

structure WellFormed (s : ChainState) : Prop where
  index : s.mapBlockIndex.WellFormed
  best : ∃ h b, s.pindexBest = some h ∧ s.mapBlockIndex h = some b ∧ s.nBestHeight = b.nHeight

end ChainState

end HoboNickels

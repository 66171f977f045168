import HoboNickels.Params

/-!
# Transactions and blocks

The data types of `main.h` with the predicates `IsCoinBase`, `IsCoinStake` and `IsProofOfStake` and
the serialized sizes. Scripts are byte strings that the model only passes on. Hashes are natural
numbers, and the hash functions are parameters (`Crypto`).
-/

namespace HoboNickels

abbrev Uint256 := Nat

abbrev CScript := List UInt8

@[ext]
structure COutPoint where
  hash : Uint256
  n : Nat
  deriving DecidableEq, Repr, Inhabited

namespace COutPoint

def null : COutPoint := ⟨0, uint32Max⟩

def isNull (o : COutPoint) : Bool := o.hash == 0 && o.n == uint32Max

end COutPoint

structure CTxIn where
  prevout : COutPoint
  scriptSig : CScript
  nSequence : Nat
  deriving DecidableEq, Repr, Inhabited

structure CTxOut where
  nValue : Int
  scriptPubKey : CScript
  deriving DecidableEq, Repr, Inhabited

def CTxOut.isEmpty (o : CTxOut) : Bool := o.nValue == 0 && o.scriptPubKey.isEmpty

structure CTransaction where
  nVersion : Int
  nTime : Nat
  vin : List CTxIn
  vout : List CTxOut
  nLockTime : Nat
  deriving DecidableEq, Repr, Inhabited

namespace CTransaction

def isCoinBase (tx : CTransaction) : Bool :=
  match tx.vin with
  | [txin] => txin.prevout.isNull && decide (1 ≤ tx.vout.length)
  | _ => false

/-- The coin stake transaction is marked with the first output empty. -/
def isCoinStake (tx : CTransaction) : Bool :=
  match tx.vin, tx.vout with
  | txin :: _, out :: _ :: _ => !txin.prevout.isNull && out.isEmpty
  | _, _ => false

/-- The sum `GetValueOut` returns; it throws when an output or a partial sum leaves the money
range. -/
def valueOutFrom (nValueOut : Int) : List CTxOut → Option Int
  | [] => some nValueOut
  | out :: rest =>
    if moneyRange out.nValue && moneyRange (nValueOut + out.nValue) then
      valueOutFrom (nValueOut + out.nValue) rest
    else none

def getValueOut (tx : CTransaction) : Option Int := valueOutFrom 0 tx.vout

theorem valueOutFrom_eq {outs : List CTxOut} {acc v : Int} (h : valueOutFrom acc outs = some v) :
    v = acc + (outs.map (·.nValue)).sum := by
  induction outs generalizing acc with
  | nil => cases h; simp
  | cons out rest ih =>
    unfold valueOutFrom at h
    split at h
    · have := ih h
      simp only [List.map_cons, List.sum_cons]
      omega
    · cases h

theorem getValueOut_eq {tx : CTransaction} {v : Int} (h : tx.getValueOut = some v) :
    v = (tx.vout.map (·.nValue)).sum := by
  have := valueOutFrom_eq h
  omega

end CTransaction

structure CBlockHeader where
  nVersion : Int
  hashPrevBlock : Uint256
  hashMerkleRoot : Uint256
  nTime : Nat
  nBits : Nat
  nNonce : Nat
  deriving DecidableEq, Repr, Inhabited

structure CBlock extends CBlockHeader where
  vtx : List CTransaction
  vchBlockSig : List UInt8
  deriving DecidableEq, Repr, Inhabited

namespace CBlock

def isProofOfStake (b : CBlock) : Bool :=
  match b.vtx with
  | _ :: tx :: _ => tx.isCoinStake
  | _ => false

def isProofOfWork (b : CBlock) : Bool := !b.isProofOfStake

/-- The kernel outpoint and time of a proof-of-stake block, and nulls otherwise. -/
def getProofOfStake (b : CBlock) : COutPoint × Nat :=
  match b.vtx with
  | _ :: tx :: _ =>
    if tx.isCoinStake then ((tx.vin.headD default).prevout, tx.nTime) else (COutPoint.null, 0)
  | _ => (COutPoint.null, 0)

def getMaxTransactionTime (b : CBlock) : Nat := b.vtx.foldl (fun m tx => max m tx.nTime) 0

end CBlock

def compactSizeLen (n : Nat) : Nat :=
  if n < 253 then 1 else if n ≤ 0xffff then 3 else if n ≤ 0xffffffff then 5 else 9

def bytesSize (s : List UInt8) : Nat := compactSizeLen s.length + s.length

def CTxIn.serializeSize (i : CTxIn) : Nat := 36 + bytesSize i.scriptSig + 4

def CTxOut.serializeSize (o : CTxOut) : Nat := 8 + bytesSize o.scriptPubKey

def CTransaction.serializeSize (tx : CTransaction) : Nat :=
  4 + 4 + (compactSizeLen tx.vin.length + (tx.vin.map CTxIn.serializeSize).sum)
    + (compactSizeLen tx.vout.length + (tx.vout.map CTxOut.serializeSize).sum) + 4

theorem CTransaction.length_vout_le (tx : CTransaction) : tx.vout.length ≤ tx.serializeSize := by
  have hlen := List.length_le_sum_of_one_le (tx.vout.map CTxOut.serializeSize) (by
    intro k hk
    obtain ⟨_, -, rfl⟩ := List.mem_map.mp hk
    rw [CTxOut.serializeSize]
    omega)
  rw [List.length_map] at hlen
  rw [CTransaction.serializeSize]
  omega

def blockHeaderSize : Nat := 80

def CBlock.serializeSize (b : CBlock) : Nat :=
  blockHeaderSize + (compactSizeLen b.vtx.length + (b.vtx.map CTransaction.serializeSize).sum)
    + bytesSize b.vchBlockSig

/-- A validation routine returns false, with a ban score and the text of its error, or exits by an
exception. -/
inductive Fail where
  | reject (nDoS : Nat) (message : String)
  | throw (message : String)
  deriving DecidableEq, Repr

structure Crypto where
  txHash : CTransaction → Uint256
  scryptBlockhash : CBlockHeader → Uint256
  hashPair : Uint256 → Uint256 → Uint256
  /-- The hash of a stake kernel: modifier, time of the source block, offset and time of the
  source transaction, output number, time of the coinstake. -/
  hashKernel : Nat → Nat → Nat → Nat → Nat → Nat → Uint256

end HoboNickels

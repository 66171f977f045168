import HoboNickels.Lib.Fallible
import HoboNickels.Lib.Routine
import HoboNickels.Merkle

/-!
# The wallet's transactions

`mapWallet` and the routines that change it: `AddToWallet`, `AddToWalletIfInvolvingMe`,
`WalletUpdateSpent`, `CommitTransaction` and `DisableTransaction`. The spent flags, not the chain,
decide which coins the wallet offers for spending. The keys are fixed (`KeyStore`), and of a record
only what these routines read and write is kept.
-/

namespace HoboNickels

open Fallible Throwing Throwing.Routine

structure CMerkleTx extends CTransaction where
  hashBlock : Uint256
  vMerkleBranch : List Uint256
  nIndex : Int
  deriving DecidableEq, Repr, Inhabited

structure CWalletTx extends CMerkleTx where
  fFromMe : Bool
  vfSpent : List Bool
  deriving DecidableEq, Repr, Inhabited

/-- What the wallet knows of scripts and amounts: `::IsMine`, and `-mininput`. -/
structure KeyStore where
  isMine : CScript → Bool
  nMinimumInputValue : Int

abbrev MapWallet := Uint256 → Option CWalletTx

structure WalletIO where
  fWritten : Bool
  /-- `GetCredit` of the transaction of a coin found spent is not cached, and the transaction is no
  immature generation. -/
  fCreditSummed : COutPoint → Bool

/-! ## One wallet transaction -/

namespace CMerkleTx

def setMerkleBranch (c : Crypto) (pblock : CBlock) (mtx : CMerkleTx) : CMerkleTx :=
  let hashBlock := c.scryptBlockhash pblock.toCBlockHeader
  match pblock.vtx.findIdx? (fun tx => decide (tx = mtx.toCTransaction)) with
  | none => { mtx with hashBlock := hashBlock, vMerkleBranch := [], nIndex := -1 }
  | some nIndex =>
    { mtx with hashBlock := hashBlock, vMerkleBranch := getMerkleBranch c pblock nIndex,
               nIndex := nIndex }

end CMerkleTx

namespace CWalletTx

def ofTx (tx : CTransaction) : CWalletTx :=
  { tx with hashBlock := 0, vMerkleBranch := [], nIndex := -1, fFromMe := false, vfSpent := [] }

/-- The record that `mapWallet[hash]` inserts, stamped with the adjusted time. -/
def null (nAdjustedTime : Nat) : CWalletTx :=
  ofTx ⟨1, nAdjustedTime, [], [], 0⟩

def isSpent (wtx : CWalletTx) (nOut : Nat) : Except String Bool := do
  require (!decide (nOut ≥ wtx.vout.length)) "CWalletTx::IsSpent() : nOut out of range"
  return wtx.vfSpent.getD nOut false

def resizeSpent (vfSpent : List Bool) (n : Nat) : List Bool :=
  vfSpent.take n ++ List.replicate (n - vfSpent.length) false

def mark (fSpent : Bool) (message : String) (wtx : CWalletTx) (nOut : Nat) :
    Except String CWalletTx := do
  require (!decide (nOut ≥ wtx.vout.length)) message
  return { wtx with vfSpent := (resizeSpent wtx.vfSpent wtx.vout.length).set nOut fSpent }

def markSpent : CWalletTx → Nat → Except String CWalletTx :=
  mark true "CWalletTx::MarkSpent() : nOut out of range"

def markUnspent : CWalletTx → Nat → Except String CWalletTx :=
  mark false "CWalletTx::MarkUnspent() : nOut out of range"

/-- The flags after `UpdateSpent`: those of the new record are taken over as far as the old one has
flags. -/
def mergeSpent : List Bool → List Bool → List Bool
  | [], _ => []
  | vfSpent, [] => vfSpent
  | f :: vfSpent, fNew :: vfNewSpent => (f || fNew) :: mergeSpent vfSpent vfNewSpent

def updateSpent (wtx : CWalletTx) (vfNewSpent : List Bool) : CWalletTx × Bool :=
  let vfSpent := mergeSpent wtx.vfSpent vfNewSpent
  ({ wtx with vfSpent := vfSpent }, vfSpent != wtx.vfSpent)

/-- The merge in `AddToWallet`, and whether any update took place. -/
def merge (wtx wtxIn : CWalletTx) : CWalletTx × Bool :=
  let fBlock := wtxIn.hashBlock != 0 && wtxIn.hashBlock != wtx.hashBlock
  let wtx₁ := if fBlock then { wtx with hashBlock := wtxIn.hashBlock } else wtx
  let fBranch := wtxIn.nIndex != -1 &&
    (wtxIn.vMerkleBranch != wtx₁.vMerkleBranch || wtxIn.nIndex != wtx₁.nIndex)
  let wtx₂ := if fBranch then
    { wtx₁ with vMerkleBranch := wtxIn.vMerkleBranch, nIndex := wtxIn.nIndex } else wtx₁
  let fFrom := wtxIn.fFromMe && wtxIn.fFromMe != wtx₂.fFromMe
  let wtx₃ := if fFrom then { wtx₂ with fFromMe := wtxIn.fFromMe } else wtx₂
  let merged := wtx₃.updateSpent wtxIn.vfSpent
  (merged.1, fBlock || fBranch || fFrom || merged.2)

end CWalletTx

namespace KeyStore

variable (keys : KeyStore)

/-- The sum of `GetCredit`; it throws when an amount or a partial sum leaves the money range. -/
def creditFrom (nCredit : Int) : List CTxOut → Except String Int
  | [] => .ok nCredit
  | txout :: rest => do
    require (moneyRange txout.nValue) "CWallet::GetCredit() : value out of range"
    let nNext := nCredit + if keys.isMine txout.scriptPubKey then txout.nValue else 0
    require (moneyRange nNext) "CWallet::GetCredit() : value out of range"
    creditFrom nNext rest

/-- `CWalletTx::GetCredit`, as far as it can throw: its amount is only logged. -/
def getCredit (fSummed : Bool) (wtx : CWalletTx) : Except String Int :=
  if fSummed then keys.creditFrom 0 wtx.vout else .ok 0

def isMineTx (tx : CTransaction) : Bool :=
  tx.vout.any fun txout =>
    keys.isMine txout.scriptPubKey && decide (txout.nValue ≥ keys.nMinimumInputValue)

/-- `GetDebit` of an input: the amount of the wallet's own output that it spends. -/
def debitOf (w : MapWallet) (txin : CTxIn) : Int :=
  match w txin.prevout.hash with
  | none => 0
  | some prev =>
    match prev.vout[txin.prevout.n]? with
    | none => 0
    | some txout => if keys.isMine txout.scriptPubKey then txout.nValue else 0

def debitFrom (w : MapWallet) (nDebit : Int) : List CTxIn → Except String Int
  | [] => .ok nDebit
  | txin :: rest => do
    let nNext := nDebit + keys.debitOf w txin
    require (moneyRange nNext) "CWallet::GetDebit() : value out of range"
    debitFrom w nNext rest

def isFromMe (w : MapWallet) (tx : CTransaction) : Except String Bool := do
  let nDebit ← keys.debitFrom w 0 tx.vin
  return decide (nDebit > 0)

end KeyStore

/-! ## The routines -/

namespace MapWallet

def put (w : MapWallet) (hash : Uint256) (wtx : CWalletTx) : MapWallet :=
  Function.update w hash (some wtx)

variable (c : Crypto) (keys : KeyStore) (io : WalletIO)

variable (tx : CTransaction) (pblock : Option CBlock) (fUpdate : Bool)

/-- An own output that the input spends is marked. The log line before the mark computes the credit
of the transaction. -/
def spendInput (txin : CTxIn) (w : MapWallet) : Except String MapWallet :=
  match w txin.prevout.hash with
  | none => .ok w
  | some wtx =>
    match wtx.vout[txin.prevout.n]? with
    | none => .ok w
    | some txout => do
      let fSpent ← wtx.isSpent txin.prevout.n
      if !fSpent && keys.isMine txout.scriptPubKey then
        let _ ← keys.getCredit (io.fCreditSummed txin.prevout) wtx
        let wtx' ← wtx.markSpent txin.prevout.n
        return w.put txin.prevout.hash wtx'
      else return w

def unspendOutput (hash : Uint256) (out : CTxOut × Nat) (w : MapWallet) : Except String MapWallet :=
  if keys.isMine out.1.scriptPubKey then
    match w hash with
    -- the source uses the result of `find` unchecked; it is called on wallet transactions only
    | none => .ok w
    | some wtx => do
      let wtx' ← wtx.markUnspent out.2
      return w.put hash wtx'
  else .ok w

def walletUpdateSpent (fBlock : Bool) : Routine MapWallet String Unit := do
  each (fun txin => atomically (spendInput keys io txin)) tx.vin
  if fBlock then each (fun out => atomically (unspendOutput keys (c.txHash tx) out)) tx.vout.zipIdx

/-- The record `AddToWallet` works on, and whether it has to be written. -/
def entered (w : MapWallet) (wtxIn : CWalletTx) : CWalletTx × Bool :=
  match w (c.txHash wtxIn.toCTransaction) with
  | none => (wtxIn, true)
  | some wtx => wtx.merge wtxIn

def addToWallet (wtxIn : CWalletTx) : Routine MapWallet String Bool := do
  let (wtx, fChanged) ← ask fun w => .ok (entered c w wtxIn)
  atomically fun w => .ok (w.put (c.txHash wtxIn.toCTransaction) wtx)
  if fChanged && !io.fWritten then return false
  walletUpdateSpent c keys io wtx.toCTransaction (wtxIn.hashBlock != 0)
  return true

theorem addToWallet_eq (wtxIn : CWalletTx) (w : MapWallet) : addToWallet c keys io wtxIn w =
    (do if (entered c w wtxIn).2 && !io.fWritten then return false
        walletUpdateSpent c keys io (entered c w wtxIn).1.toCTransaction (wtxIn.hashBlock != 0)
        return true : Routine MapWallet String Bool)
      (w.put (c.txHash wtxIn.toCTransaction) (entered c w wtxIn).1) := rfl

def delivered : CWalletTx :=
  let wtx := CWalletTx.ofTx tx
  match pblock with
  | none => wtx
  | some block => { wtx with toCMerkleTx := wtx.toCMerkleTx.setMerkleBranch c block }

/-- The transaction is one to add: already there, paying the wallet, or spending from it. -/
def involvesMe (w : MapWallet) : Except String Bool :=
  if (w (c.txHash tx)).isSome || keys.isMineTx tx then .ok true else keys.isFromMe w tx

def addToWalletIfInvolvingMe : Routine MapWallet String Bool := do
  let fExisted ← ask fun w => .ok (w (c.txHash tx)).isSome
  if fExisted && !fUpdate then return false
  let fInvolved ← ask (involvesMe c keys tx)
  if fInvolved then addToWallet c keys io (delivered c tx pblock)
  else do
    walletUpdateSpent c keys io tx false
    return false

/-- One input in `CommitTransaction`: `mapWallet[hash]` inserts a default record when there is
none. -/
def spendCoin (nAdjustedTime : Nat) (txin : CTxIn) : Routine MapWallet String Unit := do
  atomically fun w =>
    .ok (w.put txin.prevout.hash ((w txin.prevout.hash).getD (CWalletTx.null nAdjustedTime)))
  atomically fun w => do
    let coin := (w txin.prevout.hash).getD (CWalletTx.null nAdjustedTime)
    let coin' ← coin.markSpent txin.prevout.n
    return w.put txin.prevout.hash coin'

/-- `CommitTransaction`; `fAccepted` is the answer of the memory pool. -/
def commitTransaction (nAdjustedTime : Nat) (fAccepted : Bool) (wtxNew : CWalletTx) :
    Routine MapWallet String Bool := do
  let _ ← addToWallet c keys io wtxNew
  each (spendCoin nAdjustedTime) wtxNew.vin
  return fAccepted

def refundInput (txin : CTxIn) (w : MapWallet) : Except String MapWallet :=
  match w txin.prevout.hash with
  | none => .ok w
  | some prev =>
    match prev.vout[txin.prevout.n]? with
    | none => .ok w
    | some txout =>
      if keys.isMine txout.scriptPubKey then do
        let prev' ← prev.markUnspent txin.prevout.n
        return w.put txin.prevout.hash prev'
      else .ok w

def disableTransaction : Routine MapWallet String Unit := do
  if !tx.isCoinStake then return ()
  let fFromMe ← ask fun w => keys.isFromMe w tx
  if !fFromMe then return ()
  each (fun txin => atomically (refundInput keys txin)) tx.vin

end MapWallet

end HoboNickels

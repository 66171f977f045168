import HoboNickels.Merkle
import HoboNickels.Reward
import HoboNickels.Lib.Fallible

/-!
# Context-free checks

`CTransaction::CheckTransaction`, `GetMinFee`, `CheckProofOfWork` and `CBlock::CheckBlock`, with the
source's order of checks, ban scores and messages. `GetValueOut` throws when an amount is out of
range, and `CheckBlock` calls it on the coinbase before it has checked the amounts.
-/

namespace HoboNickels

open Fallible

inductive CPMode where
  | strict
  | advisory
  | permissive
  deriving DecidableEq, Repr

/-- The parts of the program that the model takes as given: hash functions, scripts, block
signatures and the configuration. -/
structure Env extends Crypto where
  fTestNet : Bool
  sigOpCount : CScript → Nat
  isPayToScriptHash : CScript → Bool
  p2shSigOpCount : CScript → CScript → Nat
  verifyScript : CScript → CScript → CTransaction → Nat → Nat → Bool
  checkBlockSignature : CBlock → Bool → Bool
  isStandardTx : CTransaction → Int → Int → Bool
  areInputsStandard : CTransaction → List CTxOut → Bool
  hashGenesisBlock : Uint256
  /-- The hash of a proof hash and a stake modifier, by which candidate blocks are compared. -/
  hashSelection : Uint256 → Nat → Uint256
  /-- The hash of the previous checksum (none at genesis), the flags, the proof-of-stake hash and
  the stake modifier of a block. -/
  hashChecksum : Option Nat → Nat → Uint256 → Nat → Uint256
  hash160 : List UInt8 → Nat
  checkpointsMode : CPMode
  nScriptCheckThreads : Nat
  nCheckpointDepth : Int
  fDynCheckpoint : Bool

/-- `Checkpoints::GetTotalBlocksEstimate`: the height of the last hardened checkpoint. -/
def getTotalBlocksEstimate (fTestNet : Bool) : Nat := if fTestNet then 0 else 7990000

/-! ## Transactions -/

namespace CTransaction

variable (env : Env) (tx : CTransaction)

def checkOutput (total : Int) (out : CTxOut) : Except Fail Int := do
  require (!(out.isEmpty && !tx.isCoinBase && !tx.isCoinStake))
    (.reject 100 "CTransaction::CheckTransaction() : txout empty for user transaction")
  require (!(!out.isEmpty && decide (out.nValue < minTxoutAmount)))
    (.reject 100 "CTransaction::CheckTransaction() : txout.nValue below minimum")
  require (!decide (out.nValue < 0))
    (.reject 100 "CTransaction::CheckTransaction() : txout.nValue is negative")
  require (!decide (out.nValue > maxMoney))
    (.reject 100 "CTransaction::CheckTransaction() : txout.nValue too high")
  require (moneyRange (total + out.nValue))
    (.reject 100 "CTransaction::CheckTransaction() : txout total out of range")
  return total + out.nValue

def checkTransaction (nAdjustedTime : Int) : Except Fail Unit := do
  require (!tx.vin.isEmpty) (.reject 10 "CTransaction::CheckTransaction() : vin empty")
  require (!tx.vout.isEmpty) (.reject 10 "CTransaction::CheckTransaction() : vout empty")
  require (!(decide (tx.nTime > 1450569600) && decide (tx.nTime > futureDrift nAdjustedTime)))
    (.reject 10 "CTransaction::CheckTransaction() : timestamp is too far into the future")
  require (decide (tx.serializeSize ≤ maxBlockSize))
    (.reject 100 "CTransaction::CheckTransaction() : size limits failed")
  let _ ← tx.vout.foldlM (checkOutput tx) 0
  require (decide (tx.vin.map (·.prevout)).Nodup) (.reject 0 "")
  if tx.isCoinBase then
    let nScript := (tx.vin.headD default).scriptSig.length
    require (!(decide (nScript < 2) || decide (nScript > 100)))
      (.reject 100 "CTransaction::CheckTransaction() : coinbase script size")
  else
    require (tx.vin.all (fun txin => !txin.prevout.isNull))
      (.reject 10 "CTransaction::CheckTransaction() : prevout is null")

def getLegacySigOpCount : Nat :=
  (tx.vin.map (fun txin => env.sigOpCount txin.scriptSig)).sum
    + (tx.vout.map (fun out => env.sigOpCount out.scriptPubKey)).sum

def getMinFee (nBlockSize nBytes : Nat) : Int :=
  let nNewBlockSize := nBlockSize + nBytes
  let nMinFee : Int := (1 + nBytes / 1000) * minTxFee
  let nMinFee := if nMinFee < minTxFee && tx.vout.any (fun out => decide (out.nValue < cent))
    then minTxFee else nMinFee
  if nBlockSize ≠ 1 ∧ nNewBlockSize ≥ maxBlockSizeGen / 2 then
    if nNewBlockSize ≥ maxBlockSizeGen then maxMoney
    else
      let nRaised := nMinFee * (maxBlockSizeGen / (maxBlockSizeGen - nNewBlockSize))
      if moneyRange nRaised then nRaised else maxMoney
  else if moneyRange nMinFee then nMinFee else maxMoney

theorem getMinFee_default : tx.getMinFee 1 0 = minTxFee := by
  have hbase : ((1 : Int) + ((0 : Nat) : Int) / 1000) * minTxFee = minTxFee := by decide
  have hrange : moneyRange minTxFee = true := by decide
  simp only [getMinFee, hbase]
  simp [hrange]

end CTransaction

/-! ## Blocks -/

def checkProofOfWork (fTestNet : Bool) (hash : Uint256) (nBits : Nat) : Bool :=
  let bnTarget := setCompact nBits
  if bnTarget ≤ 0 ∨ bnTarget > bnProofOfWorkLimit fTestNet then false
  else decide (hash ≤ bnTarget.toNat % 2 ^ 256)

def checkCoinStakeTimestamp (nTimeBlock nTimeTx : Int) : Bool := nTimeBlock == nTimeTx

namespace CBlock

variable (env : Env) (b : CBlock) (fCheckSig : Bool)

def valueOutOrThrow (tx : CTransaction) : Except Fail Int :=
  demand tx.getValueOut (.throw "CTransaction::GetValueOut() : value out of range")

def checkStakeRules : Except Fail Unit := do
  require (!(b.vtx.drop 2).any (·.isCoinStake))
    (.reject 100 "CheckBlock() : coinstake in wrong position")
  require (match (b.vtx.headD default).vout with
      | [out] => out.isEmpty
      | _ => false)
    (.reject 100 "CheckBlock() : coinbase output not empty for proof-of-stake block")
  require (checkCoinStakeTimestamp b.nTime (b.vtx.getD 1 default).nTime)
    (.reject 50 "CheckBlock() : coinstake timestamp violation")
  require (!(fCheckSig && !env.checkBlockSignature b true))
    (.reject 100 "CheckBlock() : bad proof-of-stake block signature")

def checkWorkReward : Except Fail Unit := do
  let coinbase := b.vtx.headD default
  let nValueOut ← valueOutOrThrow coinbase
  let cap := if b.nTime < rewardSwitchTime then maxMintProofOfWork
    else getProofOfWorkReward - coinbase.getMinFee 1 0 + minTxFee
  require (!decide (nValueOut > cap)) (.reject 50 "CheckBlock() : coinbase reward exceeded")

def checkKindRules : Except Fail Unit :=
  if b.isProofOfStake then b.checkStakeRules env fCheckSig else b.checkWorkReward

def checkBlockTransaction (nAdjustedTime : Int) (tx : CTransaction) : Except Fail Unit := do
  match tx.checkTransaction nAdjustedTime with
  | .error (.reject nDoS _) => .error (.reject nDoS "CheckBlock() : CheckTransaction failed")
  | .error (.throw msg) => .error (.throw msg)
  | .ok () =>
    require (!decide (b.nTime < tx.nTime))
      (.reject 50 "CheckBlock() : block timestamp earlier than transaction timestamp")

def checkBlock (nAdjustedTime : Int) (b : CBlock) (fCheckPOW fCheckMerkleRoot fCheckSig : Bool) :
    Except Fail Unit := do
  require (!(b.vtx.isEmpty || decide (b.vtx.length > maxBlockSize)
      || decide (b.serializeSize > maxBlockSize)))
    (.reject 100 "CheckBlock() : size limits failed")
  require (!(fCheckPOW && b.isProofOfWork
      && !checkProofOfWork env.fTestNet (env.scryptBlockhash b.toCBlockHeader) b.nBits))
    (.reject 50 "CheckBlock() : proof of work failed")
  require (!decide ((b.nTime : Int) > futureDrift nAdjustedTime))
    (.reject 0 "CheckBlock() : block timestamp too far in the future")
  require (b.vtx.headD default).isCoinBase
    (.reject 100 "CheckBlock() : first tx is not coinbase")
  require (!b.vtx.tail.any (·.isCoinBase)) (.reject 100 "CheckBlock() : more than one coinbase")
  require (!decide ((b.nTime : Int) > futureDrift (b.vtx.headD default).nTime))
    (.reject 50 "CheckBlock() : coinbase timestamp is too early")
  b.checkKindRules env fCheckSig
  b.vtx.forM (b.checkBlockTransaction nAdjustedTime)
  require (decide (b.vtx.map env.txHash).Nodup) (.reject 100 "CheckBlock() : duplicate transaction")
  require (!decide ((b.vtx.map (CTransaction.getLegacySigOpCount env)).sum > maxBlockSigops))
    (.reject 100 "CheckBlock() : out-of-bounds SigOpCount")
  require (!(fCheckMerkleRoot && b.hashMerkleRoot != buildMerkleTree env.toCrypto b))
    (.reject 100 "CheckBlock() : hashMerkleRoot mismatch")

end CBlock

/-! ## What a passed check says -/

theorem CTransaction.checkTransaction_ok {tx : CTransaction} {now : Int}
    (h : tx.checkTransaction now = .ok ()) :
    (tx.vin.map (·.prevout)).Nodup ∧
      (tx.isCoinBase = false → ∀ txin ∈ tx.vin, txin.prevout.isNull = false) := by
  simp only [checkTransaction, bind_eq_ok] at h
  obtain ⟨_, -, _, -, _, -, _, -, _, -, _, hnodup, h⟩ := h
  refine ⟨by simpa using hnodup, ?_⟩
  intro hcb txin hin
  rw [hcb] at h
  simp only [Bool.false_eq_true, if_false, require_eq_ok, List.all_eq_true, Bool.not_eq_true'] at h
  exact h txin hin

structure CheckedBlock (env : Env) (b : CBlock) : Prop where
  coinbase_first : ∃ coinbase rest, b.vtx = coinbase :: rest ∧ coinbase.isCoinBase = true ∧
    ∀ tx ∈ rest, tx.isCoinBase = false
  stake_position : b.isProofOfStake = true → ∀ tx ∈ b.vtx.drop 2, tx.isCoinStake = false
  stake_coinbase : b.isProofOfStake = true →
    ∃ out, (b.vtx.headD default).vout = [out] ∧ out.isEmpty = true
  work_coinbase : b.isProofOfStake = false →
    ∃ v, (b.vtx.headD default).getValueOut = some v ∧ v ≤ getProofOfWorkReward
  distinct_ids : (b.vtx.map env.txHash).Nodup
  distinct_inputs : ∀ tx ∈ b.vtx, (tx.vin.map (·.prevout)).Nodup
  inputs_not_null : ∀ tx ∈ b.vtx, tx.isCoinBase = false →
    ∀ txin ∈ tx.vin, txin.prevout.isNull = false

variable {b : CBlock}

theorem CBlock.checkWorkReward_ok (h : b.checkWorkReward = .ok ()) :
    ∃ v, (b.vtx.headD default).getValueOut = some v ∧ v ≤ getProofOfWorkReward := by
  obtain ⟨v, hv, hcap⟩ := bind_eq_ok.mp h
  refine ⟨v, demand_eq_ok.mp hv, ?_⟩
  rw [CTransaction.getMinFee_default] at hcap
  simp only [require_eq_ok, Bool.not_eq_true', decide_eq_false_iff_not, not_lt] at hcap
  split at hcap
  · exact hcap
  · have : getProofOfWorkReward - minTxFee + minTxFee = getProofOfWorkReward := by omega
    rwa [this] at hcap

theorem CBlock.checkStakeRules_ok {env : Env} {f : Bool} (h : b.checkStakeRules env f = .ok ()) :
    (∀ tx ∈ b.vtx.drop 2, tx.isCoinStake = false) ∧
      ∃ out, (b.vtx.headD default).vout = [out] ∧ out.isEmpty = true := by
  obtain ⟨_, hpos, h⟩ := bind_eq_ok.mp h
  obtain ⟨_, hcb, -⟩ := bind_eq_ok.mp h
  constructor
  · rw [require_eq_ok, Bool.not_eq_true', List.any_eq_false] at hpos
    intro tx htx
    simpa using hpos tx htx
  rw [require_eq_ok] at hcb
  split at hcb
  · exact ⟨_, ‹_›, hcb⟩
  · cases hcb

theorem CBlock.checkBlockTransaction_ok {now : Int} {tx : CTransaction}
    (h : b.checkBlockTransaction now tx = .ok ()) : tx.checkTransaction now = .ok () := by
  unfold checkBlockTransaction at h
  split at h
  · cases h
  · cases h
  · assumption

theorem CBlock.checkBlock_ok {env : Env} {now : Int} {f1 f2 f3 : Bool}
    (h : b.checkBlock env now f1 f2 f3 = .ok ()) : CheckedBlock env b := by
  simp only [checkBlock, bind_eq_ok] at h
  obtain ⟨_, hsize, _, -, _, -, _, hfirst, _, hothers, _, -, _, hkind, _, htxs, _, hids, -⟩ := h
  unfold checkKindRules at hkind
  have htx : ∀ tx ∈ b.vtx, tx.checkTransaction now = .ok () := fun tx hin =>
    checkBlockTransaction_ok (forM_eq_ok.mp htxs tx hin)
  refine
    { coinbase_first := ?_
      stake_position := ?_
      stake_coinbase := ?_
      work_coinbase := ?_
      distinct_ids := by simpa using hids
      distinct_inputs := fun tx hin => (CTransaction.checkTransaction_ok (htx tx hin)).1
      inputs_not_null := fun tx hin => (CTransaction.checkTransaction_ok (htx tx hin)).2 }
  · cases hvtx : b.vtx with
    | nil =>
      rw [hvtx] at hsize
      cases hsize
    | cons coinbase rest =>
      rw [hvtx] at hfirst hothers
      refine ⟨coinbase, rest, rfl, by simpa using hfirst, ?_⟩
      rw [require_eq_ok, Bool.not_eq_true', List.any_eq_false] at hothers
      intro tx hin
      simpa using hothers tx hin
  · intro hpos
    rw [if_pos hpos] at hkind
    exact (checkStakeRules_ok hkind).1
  · intro hpos
    rw [if_pos hpos] at hkind
    exact (checkStakeRules_ok hkind).2
  · intro hpos
    rw [if_neg (by simp [hpos])] at hkind
    exact checkWorkReward_ok hkind

end HoboNickels

import HoboNickels.Accept
import HoboNickels.Lib.Chosen
import HoboNickels.MoneySupply
import HoboNickels.Wallet

/-!
# The coins of the wallet

The three enumerations of the wallet's unspent outputs (`AvailableCoins`,
`AvailableCoinsForStaking`, `AvailableCoinsMinConf`) and the selections made from them
(`SelectCoins`, `SelectCoinsForStaking`, `SelectCoinsSimple`), in one state of the node. What a
record caches of itself is part of the record; the random choices are inputs.
-/

namespace HoboNickels

open Fallible Chosen

inductive IsMineType where
  | no
  | watchOnly
  | spendable
  deriving DecidableEq, Repr

structure VerifiedTx extends CMerkleTx where
  fMerkleVerified : Bool
  deriving DecidableEq, Repr

structure WalletRecord extends CWalletTx where
  fMerkleVerified : Bool
  /-- The unconfirmed transactions this one depends on, and those they depend on. -/
  vtxPrev : List VerifiedTx
  /-- `GetDebit(MINE_ALL)`, as the record has cached it. -/
  nDebit : Int
  deriving DecidableEq, Repr

/-- `CBlock::CheckMerkleBranch`; the index is not `-1`. -/
def checkMerkleBranch (c : Crypto) : Uint256 → List Uint256 → Nat → Uint256
  | hash, [], _ => hash
  | hash, otherside :: vMerkleBranch, nIndex =>
    checkMerkleBranch c (if nIndex % 2 = 1 then c.hashPair otherside hash
      else c.hashPair hash otherside) vMerkleBranch (nIndex / 2)

/-- The wallet in a state of the node. A record without outputs may stand under a hash that is not
its own: `mapWallet[hash]` inserts such records. -/
structure WalletView where
  env : Env
  node : Node
  nAdjustedTime : Int
  mapWallet : List (Uint256 × WalletRecord)
  isMine : CScript → IsMineType
  nMinimumInputValue : Int
  fConfChange : Bool
  setLockedCoins : List COutPoint
  times : ∀ e ∈ mapWallet, e.2.nTime < 2 ^ 32
  sorted : mapWallet.Pairwise (fun a b => a.1 < b.1)
  keyed : ∀ e ∈ mapWallet, e.2.vout ≠ [] → env.txHash e.2.toCTransaction = e.1

namespace WalletView

variable (W : WalletView)

def nBestIndexHeight : Int :=
  ((W.node.chain.pindexBest.bind W.node.chain.mapBlockIndex).map fun b => (b.nHeight : Int)).getD 0

def depthInternal (tx : CMerkleTx) (fMerkleVerified : Bool) : Int :=
  if tx.hashBlock = 0 ∨ tx.nIndex = -1 then 0
  else
    match W.node.chain.mapBlockIndex tx.hashBlock with
    | none => 0
    | some pindex =>
      if !W.node.chain.isInMainChain tx.hashBlock then 0
      else if !fMerkleVerified && decide (checkMerkleBranch W.env.toCrypto
          (W.env.txHash tx.toCTransaction) tx.vMerkleBranch tx.nIndex.toNat
            ≠ pindex.hashMerkleRoot) then 0
      else W.nBestIndexHeight - pindex.nHeight + 1

def getDepthInMainChain (tx : CMerkleTx) (fMerkleVerified : Bool) : Int :=
  let nResult := W.depthInternal tx fMerkleVerified
  if nResult = 0 ∧ (W.node.mempool.mapTx (W.env.txHash tx.toCTransaction)).isNone then -1
  else nResult

def depth (wtx : WalletRecord) : Int := W.getDepthInMainChain wtx.toCMerkleTx wtx.fMerkleVerified

def getBlocksToMaturity (wtx : WalletRecord) : Int :=
  if wtx.isCoinBase || wtx.isCoinStake then
    max 0 ((nCoinbaseMaturity W.env.fTestNet : Int) + 20 - W.depth wtx)
  else 0

def isFinal (tx : CTransaction) : Bool :=
  tx.isFinalTx W.node.chain.nBestHeight W.nAdjustedTime 0 0

/-- `IsFromMe` of a transaction that is no record of the wallet. -/
def isFromMe (tx : CTransaction) : Except String Bool :=
  KeyStore.isFromMe ⟨fun script => W.isMine script ≠ .no, W.nMinimumInputValue⟩
    (fun hash => (W.mapWallet.find? (fun e => e.1 == hash)).map fun e => e.2.toCWalletTx) tx

/-- The work queue of `IsTrusted`. Each of `vtxPrev` is queued once, so its length bounds the
rounds. -/
def trustedFrom (vtxPrev : List VerifiedTx) :
    Nat → List VerifiedTx → List Uint256 → Except String Bool
  | 0, _, _ => .ok true
  | _ + 1, [], _ => .ok true
  | rounds + 1, ptx :: vWorkQueue, queued =>
    let nPDepth := W.getDepthInMainChain ptx.toCMerkleTx ptx.fMerkleVerified
    if !W.isFinal ptx.toCTransaction then .ok false
    else if nPDepth ≥ 1 then trustedFrom vtxPrev rounds vWorkQueue queued
    else if nPDepth < 0 then .ok false
    else do
      let fFromMe ← W.isFromMe ptx.toCTransaction
      if !fFromMe then return false
      -- the last transaction with a hash is the one that stays in `mapPrev`
      let inputs := ptx.vin.map fun txin =>
        vtxPrev.reverse.find? (fun tx => W.env.txHash tx.toCTransaction == txin.prevout.hash)
      if inputs.any Option.isNone then return false
      let fresh := (inputs.filterMap id).dedup.filter
        (fun tx => !queued.contains (W.env.txHash tx.toCTransaction))
      trustedFrom vtxPrev rounds (vWorkQueue ++ fresh)
        (queued ++ fresh.map fun tx => W.env.txHash tx.toCTransaction)

def isTrusted (wtx : WalletRecord) : Except String Bool :=
  if !W.isFinal wtx.toCTransaction then .ok false
  else if W.depth wtx ≥ 1 then .ok true
  else if W.depth wtx < 0 then .ok false
  else if W.fConfChange || decide (wtx.nDebit ≤ 0) then .ok false
  else W.trustedFrom wtx.vtxPrev (wtx.vtxPrev.length + 1)
    [⟨wtx.toCMerkleTx, wtx.fMerkleVerified⟩] []

end WalletView

/-! ## Enumerating coins -/

/-- An output of a wallet transaction; `hash` is the key of the record, and stands for its address
in memory. -/
structure COutput where
  hash : Uint256
  tx : WalletRecord
  i : Nat
  nDepth : Int
  fSpendable : Bool
  deriving DecidableEq, Repr

namespace COutput

def outPoint (out : COutput) : COutPoint := ⟨out.hash, out.i⟩

def nValue (out : COutput) : Int := (out.tx.vout.getD out.i default).nValue

end COutput

namespace WalletView

variable (W : WalletView)

variable (fOnlyConfirmed : Bool) (setSelected : Selected) (e : Uint256 × WalletRecord)

def outputsOf (nDepth : Int) (ok : Nat → Int → Bool) : List COutput :=
  (e.2.vout.zipIdx.filter fun p => !e.2.vfSpent.getD p.2 false
      && decide (W.isMine p.1.scriptPubKey ≠ .no) && ok p.2 p.1.nValue).map
    fun p => ⟨e.1, e.2, p.2, nDepth, W.isMine p.1.scriptPubKey == .spendable⟩

abbrev Selected := List COutPoint

def isTrustedIf (wtx : WalletRecord) : Except String Bool :=
  if fOnlyConfirmed then W.isTrusted wtx else .ok true

def availableOf : Except String (List COutput) :=
  if !W.isFinal e.2.toCTransaction then .ok []
  else do
    let fTrusted ← W.isTrustedIf fOnlyConfirmed e.2
    if !fTrusted || (e.2.isCoinBase && decide (W.getBlocksToMaturity e.2 > 0))
        || (e.2.isCoinStake && decide (W.getBlocksToMaturity e.2 > 0))
        || decide (W.depth e.2 < 0) then
      return []
    return W.outputsOf e (W.depth e.2) fun i nValue =>
      decide (nValue ≥ W.nMinimumInputValue)
        && (setSelected.isEmpty || setSelected.contains ⟨e.1, i⟩)

def availableCoins : Except String (List COutput) := do
  let vCoins ← W.mapWallet.mapM (W.availableOf fOnlyConfirmed setSelected)
  return vCoins.flatten

/-- One record in `AvailableCoinsForStaking`; the sum of the times is unsigned. -/
def stakeableOf (nSpendTime : Nat) (e : Uint256 × WalletRecord) : List COutput :=
  if uint32 (e.2.nTime + getStakeMinAge W.env.fTestNet W.node.chain.nBestHeight : Nat) > nSpendTime
  then []
  else if W.getBlocksToMaturity e.2 > 0 then []
  else if W.depth e.2 < 1 then []
  else W.outputsOf e (W.depth e.2) fun _ nValue => decide (nValue ≥ W.nMinimumInputValue)

def availableCoinsForStaking (nSpendTime : Nat) : List COutput :=
  W.mapWallet.flatMap (W.stakeableOf nSpendTime)

def minConfOf (nConf nMinValue nMaxValue : Int) (e : Uint256 × WalletRecord) : List COutput :=
  if !W.isFinal e.2.toCTransaction then []
  else if W.depth e.2 < nConf then []
  else W.outputsOf e (W.depth e.2) fun _ nValue =>
    decide (nValue ≥ nMinValue) && decide (nValue < nMaxValue)

def availableCoinsMinConf (nConf nMinValue nMaxValue : Int) : List COutput :=
  W.mapWallet.flatMap (W.minConfOf nConf nMinValue nMaxValue)

end WalletView

/-! ## Selecting coins -/

structure Selection where
  setCoins : List COutput
  nValue : Int

namespace Selection

def empty : Selection := ⟨[], 0⟩

/-- `setCoinsRet.insert` and the addition to `nValueRet`; a pair that is there already is not
inserted again. -/
def add (sel : Selection) (out : COutput) : Selection where
  setCoins := if sel.setCoins.any (fun x => x.outPoint == out.outPoint) then sel.setCoins
    else sel.setCoins ++ [out]
  nValue := int64 (sel.nValue + out.nValue)

def addAll (sel : Selection) (outs : List COutput) : Selection := outs.foldl add sel

end Selection

section

variable (nTargetValue : Int) (nSpendTime : Nat) (nConfMine nConfTheirs : Int) (chance : CoinChance)

/-- The loop of `SelectCoinsForStaking` and `SelectCoinsSimple`: coins are taken in order until the
target is reached. -/
def selectInOrder (nTargetValue : Int) (nSpendTime : Nat) (skip : COutput → Bool) :
    List COutput → Selection → Selection
  | [], sel => sel
  | out :: vCoins, sel =>
    if !out.fSpendable || skip out then selectInOrder nTargetValue nSpendTime skip vCoins sel
    else if sel.nValue ≥ nTargetValue then sel
    else if out.tx.nTime > nSpendTime then selectInOrder nTargetValue nSpendTime skip vCoins sel
    else if out.nValue ≥ nTargetValue then sel.add out
    else if out.nValue < int64 (nTargetValue + cent) then
      selectInOrder nTargetValue nSpendTime skip vCoins (sel.add out)
    else selectInOrder nTargetValue nSpendTime skip vCoins sel

/-! ### The stochastic approximation -/

structure SubsetState where
  nTotal : Int
  vfIncluded : List Bool
  fReachedTarget : Bool
  nBest : Int
  vfBest : List Bool

/-- One coin in a pass: it is tried if `take` says so, kept if the target is not reached. -/
def SubsetState.tryCoin (vValue : List Int) (take : SubsetState → Nat → Bool) (st : SubsetState)
    (i : Nat) : SubsetState :=
  if take st i then
    let nTotal := int64 (st.nTotal + vValue.getD i 0)
    let vfIncluded := st.vfIncluded.set i true
    if nTotal ≥ nTargetValue then
      let best := if nTotal < st.nBest then (nTotal, vfIncluded) else (st.nBest, st.vfBest)
      ⟨int64 (nTotal - vValue.getD i 0), vfIncluded.set i false, true, best.1, best.2⟩
    else { st with nTotal := nTotal, vfIncluded := vfIncluded }
  else st

/-- A repetition: coins are tried at random, and then those left out, unless the target has been
reached. -/
def SubsetState.repetition (vValue : List Int) (rand : Nat → Bool) (nBest : Int)
    (vfBest : List Bool) : Int × List Bool :=
  let st := (List.range vValue.length).foldl
    (tryCoin nTargetValue vValue fun _ i => rand i)
    ⟨0, List.replicate vValue.length false, false, nBest, vfBest⟩
  let st := if st.fReachedTarget then st
    else (List.range vValue.length).foldl
      (tryCoin nTargetValue vValue fun st i => !st.vfIncluded.getD i false) st
  (st.nBest, st.vfBest)

def approximateFrom (nTargetValue : Int) (vValue : List Int) (rand : Nat → Nat → Bool) :
    Nat → Int × List Bool → Int × List Bool
  | 0, best => best
  | nRep + 1, best =>
    if best.1 = nTargetValue then best
    else approximateFrom nTargetValue vValue rand nRep
      (SubsetState.repetition nTargetValue vValue (rand nRep) best.1 best.2)

/-- `ApproximateBestSubset`: the best total and the coins it is made of. -/
def approximateBestSubset (vValue : List Int) (nTotalLower nTargetValue : Int)
    (rand : Nat → Nat → Bool) : Int × List Bool :=
  approximateFrom nTargetValue vValue rand 1000 (nTotalLower, List.replicate vValue.length true)

/-! ### SelectCoins -/

/-- A rearrangement of coins: of `random_shuffle`, or of the order in which a set of pointers is
passed through. -/
structure Rearrangement where
  toFun : List COutput → List COutput
  perm : ∀ vCoins, (toFun vCoins).Perm vCoins

/-- The random choices of one call of `SelectCoinsMinConf`: a permutation of the coins and the bits
of the two approximations. -/
structure CoinChance where
  shuffle : Rearrangement
  bits : Bool → Nat → Nat → Bool

/-- The state of the first loop of `SelectCoinsMinConf`: the coins below the target, their total,
and the smallest of the others. -/
structure CoinScan where
  vValue : List COutput
  nTotalLower : Int
  coinLowestLarger : Option COutput

/-- The confirmations that a coin of the wallet's own, or of others, needs. -/
def COutput.nConfNeeded (out : COutput) : Int :=
  if out.tx.nDebit > 0 then nConfMine else nConfTheirs

/-- The first loop; `inl` when a coin is exactly the target. -/
def scanCoinValues (nTargetValue : Int) (nSpendTime : Nat) (nConfMine nConfTheirs : Int) :
    List COutput → CoinScan → COutput ⊕ CoinScan
  | [], scan => .inr scan
  | out :: vCoins, scan =>
    if !out.fSpendable || decide (out.nDepth < out.nConfNeeded nConfMine nConfTheirs)
        || decide (out.tx.nTime > nSpendTime) then
      scanCoinValues nTargetValue nSpendTime nConfMine nConfTheirs vCoins scan
    else if out.nValue = nTargetValue then .inl out
    else if out.nValue < int64 (nTargetValue + cent) then
      scanCoinValues nTargetValue nSpendTime nConfMine nConfTheirs vCoins
        { scan with
          vValue := scan.vValue ++ [out]
          nTotalLower := int64 (scan.nTotalLower + out.nValue) }
    else if out.nValue < (scan.coinLowestLarger.map COutput.nValue).getD (2 ^ 63 - 1) then
      scanCoinValues nTargetValue nSpendTime nConfMine nConfTheirs vCoins
        { scan with coinLowestLarger := some out }
    else scanCoinValues nTargetValue nSpendTime nConfMine nConfTheirs vCoins scan

/-- An approximation of the target itself, or, if that is missed and the coins suffice, one that
leaves room for change. -/
def bestSubset (nTargetValue nTotalLower : Int) (chance : CoinChance) (values : List Int) :
    Int × List Bool :=
  let best := approximateBestSubset values nTotalLower nTargetValue (chance.bits false)
  if best.1 ≠ nTargetValue ∧ nTotalLower ≥ int64 (nTargetValue + cent) then
    approximateBestSubset values nTotalLower (int64 (nTargetValue + cent)) (chance.bits true)
  else best

/-- What `SelectCoinsMinConf` does after the first loop, if no coin is exactly the target. -/
def selectFromScan (scan : CoinScan) : Option Selection :=
  if scan.nTotalLower = nTargetValue then some (Selection.empty.addAll scan.vValue)
  else if scan.nTotalLower < nTargetValue then
    scan.coinLowestLarger.map Selection.empty.add
  else
    let vValue := scan.vValue.insertionSort (fun a b => a.nValue ≥ b.nValue)
    let best := bestSubset nTargetValue scan.nTotalLower chance (vValue.map COutput.nValue)
    match scan.coinLowestLarger with
    | some larger =>
      if (best.1 ≠ nTargetValue ∧ best.1 < int64 (nTargetValue + cent)) ∨ larger.nValue ≤ best.1
      then some (Selection.empty.add larger)
      else some (Selection.empty.addAll (chosen vValue best.2))
    | none => some (Selection.empty.addAll (chosen vValue best.2))

def selectCoinsMinConf (vCoins : List COutput) : Option Selection :=
  match scanCoinValues nTargetValue nSpendTime nConfMine nConfTheirs (chance.shuffle.toFun vCoins)
      ⟨[], 0, none⟩ with
  | .inl out => some (Selection.empty.add out)
  | .inr scan => selectFromScan nTargetValue chance scan

end

namespace WalletView

variable (W : WalletView)

/-- `SelectCoins`: all selected outputs with coin control, else three attempts with fewer and fewer
confirmations. -/
def selectCoins (nTargetValue : Int) (nSpendTime : Nat) (setSelected : Selected)
    (chance : Nat → CoinChance) : Except String (Option Selection) := do
  let vCoins ← W.availableCoins true setSelected
  if !setSelected.isEmpty then
    let sel := Selection.empty.addAll (vCoins.filter COutput.fSpendable)
    return if sel.nValue ≥ nTargetValue then some sel else none
  return (selectCoinsMinConf nTargetValue nSpendTime 1 6 (chance 0) vCoins).or
    ((selectCoinsMinConf nTargetValue nSpendTime 1 1 (chance 1) vCoins).or
      (selectCoinsMinConf nTargetValue nSpendTime 0 1 (chance 2) vCoins))

def selectCoinsForStaking (nTargetValue : Int) (nSpendTime : Nat) : Selection :=
  selectInOrder nTargetValue nSpendTime (fun _ => false) (W.availableCoinsForStaking nSpendTime)
    Selection.empty

def selectCoinsSimple (nTargetValue nMinValue nMaxValue : Int) (nSpendTime : Nat) (nMinConf : Int) :
    Selection :=
  selectInOrder nTargetValue nSpendTime (fun out => decide (W.getBlocksToMaturity out.tx > 0))
    (W.availableCoinsMinConf nMinConf nMinValue nMaxValue) Selection.empty

end WalletView

def sampleCoinRecord (id : Uint256) (nTime : Nat) (values : List Int) (vfSpent : List Bool) :
    WalletRecord where
  nVersion := 1
  nTime := nTime
  vin := [⟨⟨77, 0⟩, [], uint32Max⟩]
  vout := values.map fun nValue => ⟨nValue, [0x51]⟩
  nLockTime := id
  hashBlock := 1
  vMerkleBranch := []
  nIndex := 1
  fFromMe := false
  vfSpent := vfSpent
  fMerkleVerified := true
  vtxPrev := []
  nDebit := 0

def sampleWallet (nTime : Nat) (values : List Int) (vfSpent : List Bool)
    (locked : List COutPoint) (hlt : nTime < 2 ^ 32) : WalletView where
  env := sampleEnv
  node := ⟨lineState false 10, CTxMemPool.empty⟩
  nAdjustedTime := sampleTime
  mapWallet := [(100, sampleCoinRecord 100 nTime values vfSpent)]
  isMine := fun _ => .spendable
  nMinimumInputValue := minTxFee
  fConfChange := false
  setLockedCoins := locked
  times := by simpa [sampleCoinRecord] using hlt
  sorted := List.pairwise_singleton _ _
  keyed := by simp [sampleCoinRecord, sampleEnv]

def CoinChance.trivial : CoinChance := ⟨⟨id, fun _ => List.Perm.refl _⟩, fun _ _ _ => false⟩

end HoboNickels

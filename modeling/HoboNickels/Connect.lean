import HoboNickels.BlockCheck
import HoboNickels.Retarget

/-!
# Connecting and disconnecting blocks

`FetchInputs`, `ConnectInputs`, `GetCoinAge`, `ConnectBlock`, `DisconnectInputs` and
`DisconnectBlock`. `ConnectBlock` queues changes of the transaction index and writes them at the
end; a block that fails has written nothing, so a failure is an error without a state.
-/

namespace HoboNickels

open Fallible WriteBatch Function

/-- Previous transactions with their index entries, `MapPrevTx`. -/
abbrev MapPrevTx := Uint256 → Option (CTxIndex × CTransaction)

abbrev QueuedChanges := AList (fun _ : Uint256 => CTxIndex)

structure CScriptCheck where
  scriptPubKey : CScript
  txTo : CTransaction
  nIn : Nat
  nFlags : Nat

def scriptVerifyP2SH : Nat := 1
def strictFlags : Nat := 23
def softFlags : Nat := 1
def blockFlags : Nat := 9

variable (env : Env)

def CScriptCheck.run (c : CScriptCheck) : Bool :=
  env.verifyScript (c.txTo.vin.getD c.nIn default).scriptSig c.scriptPubKey c.txTo c.nIn c.nFlags

/-! ## Reading -/

def World.readTx (w : World) (site : ReadSite) (pos : CDiskTxPos) : Option CTransaction :=
  if openBlockFile pos.nFile && w.readOk site then w.disk.tx pos.nFile pos.nTxPos else none

/-- `CBlock::ReadFromDisk(nFile, nBlockPos, false)`: the header only. -/
def World.readHeader (w : World) (site : ReadSite) (pos : CDiskTxPos) : Option CBlockHeader :=
  if openBlockFile pos.nFile && w.readOk site then
    (w.disk.block pos.nFile pos.nBlockPos).map CBlock.toCBlockHeader
  else none

structure FetchContext where
  db : CTxDB
  mapTestPool : QueuedChanges
  fBlock : Bool
  fMiner : Bool
  mempool : Uint256 → Option CTransaction

/-- The index entry of a previous transaction: from the proposed changes if they have it. -/
def FetchContext.readIndex (c : FetchContext) (hash : Uint256) : Option CTxIndex :=
  if c.fBlock || c.fMiner then
    match c.mapTestPool.lookup hash with
    | some t => some t
    | none => c.db.readTxIndex hash
  else c.db.readTxIndex hash

variable (w : World)

def fetchInput (c : FetchContext) (tx : CTransaction)
    (inputsRet : MapPrevTx) (i : Nat) (txin : CTxIn) : Except Fail MapPrevTx :=
  let hash := txin.prevout.hash
  if (inputsRet hash).isSome then .ok inputsRet
  else
    match c.readIndex hash with
    | none =>
      if c.fBlock || c.fMiner then
        .error (.reject 0 "FetchInputs() : prev tx index entry not found")
      else
        match c.mempool hash with
        | none => .error (.reject 0 "FetchInputs() : mempool Tx prev not found")
        | some txPrev =>
          .ok (update inputsRet hash
            (some (CTxIndex.new CDiskTxPos.null txPrev.vout.length, txPrev)))
    | some txindex =>
      if txindex.pos = CDiskTxPos.memoryPool then
        match c.mempool hash with
        | none => .error (.reject 0 "FetchInputs() : mempool Tx prev not found")
        | some txPrev => .ok (update inputsRet hash (some (txindex, txPrev)))
      else
        match w.readTx (.fetchInput c.fBlock (env.txHash tx) i) txindex.pos with
        | none => .error (.reject 0 "FetchInputs() : ReadFromDisk prev tx failed")
        | some txPrev => .ok (update inputsRet hash (some (txindex, txPrev)))

def fetchInputsFrom (env : Env) (w : World) (c : FetchContext) (tx : CTransaction) :
    Nat → List CTxIn → MapPrevTx → Except Fail MapPrevTx
  | _, [], inputsRet => .ok inputsRet
  | i, txin :: rest, inputsRet => do
    let inputsRet ← fetchInput env w c tx inputsRet i txin
    fetchInputsFrom env w c tx (i + 1) rest inputsRet

variable (inputs : MapPrevTx)

/-- The output an input refers to is within the previous transaction and its index entry. -/
def MapPrevTx.inRange (txin : CTxIn) : Bool :=
  match inputs txin.prevout.hash with
  | some (txindex, txPrev) =>
    decide (txin.prevout.n < txPrev.vout.length) && decide (txin.prevout.n < txindex.vSpent.length)
  | none => false

def fetchInputs (c : FetchContext) (tx : CTransaction) : Except Fail MapPrevTx :=
  if tx.isCoinBase then .ok (fun _ => none)
  else do
    let inputs ← fetchInputsFrom env w c tx 0 tx.vin (fun _ => none)
    require (tx.vin.all inputs.inRange)
      (.reject 100 "FetchInputs() : prevout.n out of range")
    return inputs

/-- `GetOutputFor(txin, inputs)`; the calls that could throw come after `FetchInputs` has checked
the range. -/
def MapPrevTx.outputOf (txin : CTxIn) : CTxOut :=
  match inputs txin.prevout.hash with
  | some (_, txPrev) => txPrev.vout.getD txin.prevout.n default
  | none => ⟨0, []⟩

def MapPrevTx.valueOf (txin : CTxIn) : Int := (inputs.outputOf txin).nValue

def MapPrevTx.scriptOf (txin : CTxIn) : CScript :=
  (inputs.outputOf txin).scriptPubKey

def getValueIn (tx : CTransaction) : Int :=
  if tx.isCoinBase then 0 else int64 ((tx.vin.map inputs.valueOf).sum)

def getP2SHSigOpCount (inputs : MapPrevTx) (tx : CTransaction) : Nat :=
  if tx.isCoinBase then 0
  else (tx.vin.map (fun txin =>
    if env.isPayToScriptHash (inputs.scriptOf txin) then
      env.p2shSigOpCount (inputs.scriptOf txin) txin.scriptSig else 0)).sum

variable (db : CTxDB)

section

variable (nBestHeight : Int) (c : ConnectContext) (tx : CTransaction) (nValueIn : Int)

/-- The cent-seconds of one input, `none` when `GetCoinAge` gives up. -/
def coinAgeOfInput (i : Nat) (txin : CTxIn) : Option Int :=
  match (db.readTxIndex txin.prevout.hash).bind (fun txindex =>
      (w.readTx (.coinAgeTx (env.txHash tx) i) txindex.pos).map (fun txPrev => (txindex, txPrev)))
  with
  | none => some 0 -- previous transaction not in main chain
  | some (txindex, txPrev) =>
    if txin.prevout.n ≥ txPrev.vout.length then some 0
    else if tx.nTime < txPrev.nTime then none -- timestamp violation
    else
      match w.readHeader (.coinAgeHeader (env.txHash tx) i) txindex.pos with
      | none => none
      | some header =>
        if header.nTime + getStakeMinAge env.fTestNet nBestHeight > tx.nTime then some 0
        else
          let nValueIn := (txPrev.vout.getD txin.prevout.n default).nValue
          some ((nValueIn * (tx.nTime - txPrev.nTime : Nat)).tdiv cent)

def centSecondsFrom (env : Env) (w : World) (db : CTxDB) (nBestHeight : Int) (tx : CTransaction) :
    Nat → List CTxIn → Option Int
  | _, [] => some 0
  | i, txin :: rest => do
    let age ← coinAgeOfInput env w db nBestHeight tx i txin
    let ages ← centSecondsFrom env w db nBestHeight tx (i + 1) rest
    return age + ages

def getCoinAge : Option Nat :=
  if tx.isCoinBase then some 0
  else
    (centSecondsFrom env w db nBestHeight tx 0 tx.vin).map (fun bnCentSecond =>
      (((bnCentSecond * cent).tdiv coin).tdiv (24 * 60 * 60)).natAbs % 2 ^ 64)

/-! ## Connecting inputs -/

structure ConnectContext where
  posThisTx : CDiskTxPos
  pindexBlock : CBlockIndex
  ancestors : List CBlockIndex
  fBlock : Bool
  fMiner : Bool
  fScriptChecks : Bool
  flags : Nat
  /-- Script checks are queued for the check threads instead of run at once. -/
  fQueueChecks : Bool

/-- A coinbase or coinstake whose block is still too close to the block being connected. -/
def isImmature (fTestNet : Bool) (c : ConnectContext) (txindex : CTxIndex)
    (txPrev : CTransaction) : Bool :=
  (txPrev.isCoinBase || txPrev.isCoinStake) &&
    ((c.pindexBlock :: c.ancestors).takeWhile (fun p => decide
        ((c.pindexBlock.nHeight : Int) - p.nHeight < nCoinbaseMaturity fTestNet))).any
      (fun p => p.nBlockPos == txindex.pos.nBlockPos && p.nFile == txindex.pos.nFile)

/-- The inexpensive checks on one input; the accumulator is the value in so far. -/
def checkInput (inputs : MapPrevTx) (tx : CTransaction) (nValueIn : Int) (txin : CTxIn) : Except
    Fail Int :=
  match inputs txin.prevout.hash with
  | none => .error (.throw "assertion failed: inputs.count(prevout.hash) > 0")
  | some (txindex, txPrev) => do
    require (decide (txin.prevout.n < txPrev.vout.length)
        && decide (txin.prevout.n < txindex.vSpent.length))
      (.reject 100 "ConnectInputs() : prevout.n out of range")
    require (!isImmature env.fTestNet c txindex txPrev)
      (.reject 0 "ConnectInputs() : tried to spend coinbase or coinstake at depth")
    require (!decide (txPrev.nTime > tx.nTime))
      (.reject 100 "ConnectInputs() : transaction timestamp earlier than input transaction")
    let nValue := (txPrev.vout.getD txin.prevout.n default).nValue
    require (moneyRange nValue && moneyRange (nValueIn + nValue))
      (.reject 100 "ConnectInputs() : txin values out of range")
    return nValueIn + nValue

structure SpendState where
  inputs : MapPrevTx
  mapTestPool : QueuedChanges
  vChecks : List CScriptCheck

/-- The signature check of one input; queued checks are run later. A failure that only the strict
flags cause is not held against the peer. -/
def checkScript (check : CScriptCheck) : Except Fail Unit :=
  if !c.fScriptChecks || c.fQueueChecks || check.run env then .ok ()
  else if check.nFlags &&& strictFlags ≠ 0 ∧
      ({ check with nFlags := check.nFlags - (check.nFlags &&& strictFlags) }).run env then
    .error (.reject 0 "ConnectInputs() : strict VerifySignature failed")
  else .error (.reject 100 "ConnectInputs() : VerifySignature failed")

/-- One round of the second loop: look for a conflict, check the script, mark as spent. -/
def spendInput (st : SpendState) (i : Nat) (txin : CTxIn) : Except Fail SpendState :=
  match st.inputs txin.prevout.hash with
  | none => .error (.throw "assertion failed: inputs.count(prevout.hash) > 0")
  | some (txindex, txPrev) => do
    require ((txindex.vSpent.getD txin.prevout.n CDiskTxPos.null).isNull)
      (.reject 0 "ConnectInputs() : prev tx already used")
    let check : CScriptCheck :=
      { scriptPubKey := (txPrev.vout.getD txin.prevout.n default).scriptPubKey
        txTo := tx, nIn := i, nFlags := c.flags }
    checkScript env c check
    let txindex' := txindex.setSpent txin.prevout.n c.posThisTx
    return { inputs := update st.inputs txin.prevout.hash (some (txindex', txPrev))
             mapTestPool := if c.fBlock || c.fMiner then
               st.mapTestPool.insert txin.prevout.hash txindex' else st.mapTestPool
             vChecks := if c.fScriptChecks && c.fQueueChecks then
               st.vChecks ++ [check] else st.vChecks }

def spendInputsFrom (env : Env) (c : ConnectContext) (tx : CTransaction) :
    Nat → List CTxIn → SpendState → Except Fail SpendState
  | _, [], st => .ok st
  | i, txin :: rest, st => do
    let st ← spendInput env c tx st i txin
    spendInputsFrom env c tx (i + 1) rest st

/-- A coinstake earns a reward instead of paying a fee. -/
def checkStakeReward : Except Fail Unit := do
  let nCoinAge ← demand (getCoinAge env w db nBestHeight tx)
    (.reject 0 "ConnectInputs() : unable to get coin age for coinstake")
  let nValueOut ← CBlock.valueOutOrThrow tx
  let nStakeReward := nValueOut - nValueIn
  let nCalculatedStakeReward :=
    getProofOfStakeReward env.fTestNet (int64 nCoinAge) c.pindexBlock.nBits tx.nTime false
      - tx.getMinFee 1 0 + minTxFee
  require (!decide (nStakeReward > nCalculatedStakeReward))
    (.reject 100 "ConnectInputs() : coinstake pays too much")

def checkFee : Except Fail Unit := do
  let nValueOut ← CBlock.valueOutOrThrow tx
  require (!decide (nValueIn < nValueOut))
    (.reject 100 "ConnectInputs() : value in < value out")
  let nTxFee := nValueIn - nValueOut
  require (!decide (nTxFee < 0)) (.reject 100 "ConnectInputs() : nTxFee < 0")
  require (!decide (nTxFee < tx.getMinFee 1 0))
    (.reject (if c.fBlock then 100 else 0) "ConnectInputs() : not paying required fee")
  require (moneyRange nTxFee) (.reject 100 "ConnectInputs() : nFees out of range")

def checkReward : Except Fail Unit :=
  if tx.isCoinStake then checkStakeReward env w db nBestHeight c tx nValueIn
  else checkFee c tx nValueIn

/-- `ConnectInputs`: the changed pool of proposed changes and the queued script checks. -/
def connectInputs (inputs : MapPrevTx) (mapTestPool : QueuedChanges) (tx : CTransaction) : Except
    Fail (QueuedChanges × List CScriptCheck) :=
  if tx.isCoinBase then .ok (mapTestPool, [])
  else do
    let nValueIn ← tx.vin.foldlM (checkInput env c inputs tx) 0
    let st ← spendInputsFrom env c tx 0 tx.vin ⟨inputs, mapTestPool, []⟩
    checkReward env w db nBestHeight c tx nValueIn
    return (st.mapTestPool, st.vChecks)

end

/-! ## ConnectBlock -/

section

variable (c : BlockContext) (posThisTx : CDiskTxPos) (st : ConnectState) (tx : CTransaction)

structure ConnectState where
  nTxPos : Nat
  mapQueuedChanges : QueuedChanges
  nFees : Int
  nValueIn : Int
  nValueOut : Int
  nSigOps : Nat
  vChecks : List CScriptCheck

def dynamicCheckpointVerifyWindow : Int := 500

def getNumBlocksOfPeers : Int :=
  max w.nBlocksOfPeers (getTotalBlocksEstimate env.fTestNet)

def ChainState.verifyFromHeight (s : ChainState) (env : Env) (w : World) : Int :=
  let nEstimate : Int := getTotalBlocksEstimate env.fTestNet
  let nBestKnownHeight := max s.nBestHeight (getNumBlocksOfPeers env w)
  let nDynamic :=
    if env.fDynCheckpoint && decide (s.nSyncCheckpointHeight > nEstimate) then
      max nEstimate
        (min s.nSyncCheckpointHeight (nBestKnownHeight - dynamicCheckpointVerifyWindow))
    else nEstimate
  if env.nCheckpointDepth > 0 then max nDynamic (nBestKnownHeight - env.nCheckpointDepth)
  else nDynamic

structure BlockContext where
  pindex : CBlockIndex
  ancestors : List CBlockIndex
  db : CTxDB
  nBestHeight : Int
  fScriptChecks : Bool
  mempool : Uint256 → Option CTransaction

/-- BIP30: a transaction with this id is in the index and not completely spent. -/
def overwritesUnspent (hashTx : Uint256) : Bool :=
  match db.readTxIndex hashTx with
  | some txindexOld => txindexOld.vSpent.any CDiskTxPos.isNull
  | none => false

def BlockContext.connectContext (env : Env) (posThisTx : CDiskTxPos) : ConnectContext where
  posThisTx := posThisTx
  pindexBlock := c.pindex
  ancestors := c.ancestors
  fBlock := true
  fMiner := false
  fScriptChecks := c.fScriptChecks
  flags := blockFlags
  fQueueChecks := env.nScriptCheckThreads != 0

def BlockContext.fetchContext (mapQueuedChanges : QueuedChanges) : FetchContext where
  db := c.db
  mapTestPool := mapQueuedChanges
  fBlock := true
  fMiner := false
  mempool := c.mempool

def connectCoinbase : Except Fail ConnectState := do
  let nTxValueOut ← CBlock.valueOutOrThrow tx
  return { st with nValueOut := st.nValueOut + nTxValueOut }

def connectSpender : Except Fail ConnectState := do
  let mapInputs ← fetchInputs env w (c.fetchContext st.mapQueuedChanges) tx
  let nSigOps := st.nSigOps + getP2SHSigOpCount env mapInputs tx
  require (!decide (nSigOps > maxBlockSigops)) (.reject 100 "ConnectBlock() : too many sigops")
  let nTxValueIn := getValueIn mapInputs tx
  let nTxValueOut ← CBlock.valueOutOrThrow tx
  let (mapQueuedChanges, vChecks) ← connectInputs env w c.db c.nBestHeight
    (c.connectContext env posThisTx) mapInputs st.mapQueuedChanges tx
  return { st with
    nSigOps := nSigOps
    nValueIn := st.nValueIn + nTxValueIn
    nValueOut := st.nValueOut + nTxValueOut
    nFees := if tx.isCoinStake then st.nFees else st.nFees + (nTxValueIn - nTxValueOut)
    mapQueuedChanges := mapQueuedChanges
    vChecks := st.vChecks ++ vChecks }

def connectTxValues : Except Fail ConnectState :=
  if tx.isCoinBase then connectCoinbase st tx else connectSpender env w c posThisTx st tx

def connectTx : Except Fail ConnectState := do
  let hashTx := env.txHash tx
  require (!overwritesUnspent c.db hashTx) (.reject 0 "")
  let nSigOps := st.nSigOps + tx.getLegacySigOpCount env
  require (!decide (nSigOps > maxBlockSigops)) (.reject 100 "ConnectBlock() : too many sigops")
  let posThisTx : CDiskTxPos := ⟨c.pindex.nFile, c.pindex.nBlockPos, st.nTxPos⟩
  let st' ← connectTxValues env w c posThisTx { st with nSigOps := nSigOps } tx
  return { st' with
    nTxPos := st.nTxPos + tx.serializeSize
    mapQueuedChanges :=
      st'.mapQueuedChanges.insert hashTx (CTxIndex.new posThisTx tx.vout.length) }

end

section

variable (s : ChainState) (env : Env) (w : World) (mempool : Uint256 → Option CTransaction)
  (b : CBlock) (pindex : CBlockIndex)

def CBlock.initialConnectState : ConnectState where
  nTxPos := firstTxPos pindex.nBlockPos b
  mapQueuedChanges := ∅
  nFees := 0
  nValueIn := 0
  nValueOut := 0
  nSigOps := 0
  vChecks := []

def ChainState.ancestorsOf : List CBlockIndex :=
  match pindex.pprev with
  | none => []
  | some p => s.mapBlockIndex.chainOf p

def ChainState.blockContext : BlockContext where
  pindex := pindex
  ancestors := s.ancestorsOf pindex
  db := s.db
  nBestHeight := s.nBestHeight
  fScriptChecks := decide ((pindex.nHeight : Int) ≥ s.verifyFromHeight env w)
  mempool := mempool

def CTxDB.writeQueued (changes : QueuedChanges) : CTxDB :=
  changes.entries.foldl (fun db e => CTxDB.updateTxIndex db e.1 e.2) db

/-- Point the stored entry of the parent at `hashNext`; the entry in memory does not change. -/
def ChainState.writePrevIndex (db : CTxDB) (pindex : CBlockIndex) (hashNext : Uint256) : CTxDB :=
  match pindex.pprev.bind s.mapBlockIndex with
  | none => db
  | some pprev => CTxDB.writeBlockIndex db { s.diskIndex pprev with hashNext := hashNext }

def ChainState.prevMoneySupply : Int :=
  match pindex.pprev with
  | none => 0
  | some p => s.nMoneySupply p

/-- The state after the checks have passed. The tallies are exact sums; the fields are 64 bits
wide. -/
def ChainState.finishConnect (st : ConnectState) : ChainState :=
  let s₁ := { s with
    nMint := update s.nMint pindex.hashBlock
      (int64 (st.nValueOut - st.nValueIn + st.nFees))
    nMoneySupply := update s.nMoneySupply pindex.hashBlock
      (int64 (s.prevMoneySupply pindex + st.nValueOut - st.nValueIn)) }
  let db := CTxDB.writeBlockIndex s.db (s₁.diskIndex pindex)
  let db := db.writeQueued st.mapQueuedChanges
  { s₁ with db := s₁.writePrevIndex db pindex pindex.hashBlock }

def ChainState.connectBlock : Except Fail ChainState := do
  let fRecheckPOW := decide (pindex.nHeight > getTotalBlocksEstimate env.fTestNet)
  b.checkBlock env w.nAdjustedTime fRecheckPOW true false
  let st ← b.vtx.foldlM (connectTx env w (s.blockContext env w mempool pindex))
    (b.initialConnectState pindex)
  require (st.vChecks.all (CScriptCheck.run env)) (.reject 100 "")
  return s.finishConnect pindex st

end

def disconnectInput (txin : CTxIn) : Except Fail CTxDB := do
  let txindex ← demand (db.readTxIndex txin.prevout.hash)
    (.reject 0 "DisconnectInputs() : ReadTxIndex failed")
  require (decide (txin.prevout.n < txindex.vSpent.length))
    (.reject 0 "DisconnectInputs() : prevout.n out of range")
  return db.updateTxIndex txin.prevout.hash
    (txindex.setSpent txin.prevout.n CDiskTxPos.null)

def CTransaction.spendingInputs (tx : CTransaction) : List CTxIn :=
  if tx.isCoinBase then [] else tx.vin

def disconnectInputs (db : CTxDB) (tx : CTransaction) : Except Fail CTxDB := do
  let db ← tx.spendingInputs.foldlM disconnectInput db
  return db.eraseTxIndex (env.txHash tx)

def ChainState.disconnectBlock (s : ChainState) (env : Env) (b : CBlock) (pindex : CBlockIndex) :
    Except Fail ChainState := do
  let db ← b.vtx.reverse.foldlM (disconnectInputs env) s.db
  return { s with db := s.writePrevIndex db pindex 0 }

end HoboNickels

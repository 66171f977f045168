import HoboNickels.StakeModifier
import HoboNickels.HeaderRules
import HoboNickels.BestChain

/-!
# Accepting a block

`CBlock::AcceptBlock` and `CBlock::AddToBlockIndex`, with the synchronized checkpoint that
`AcceptBlock` consults and may move. A block is put into the index before the database is asked and
before `SetBestChain` runs, so a call that fails can leave it there. Relay to peers and warnings are
left out.
-/

namespace HoboNickels

open Fallible WriteBatch

def CTxIn.isFinal (txin : CTxIn) : Bool := txin.nSequence == uint32Max

/-- `IsFinalTx`; height and time `0` stand for the node's own. -/
def CTransaction.isFinalTx (tx : CTransaction) (nBestHeight nAdjustedTime : Int)
    (nBlockHeight nBlockTime : Int) : Bool :=
  let nBlockHeight := if nBlockHeight = 0 then nBestHeight else nBlockHeight
  let nBlockTime := if nBlockTime = 0 then nAdjustedTime else nBlockTime
  tx.nLockTime == 0
    || decide ((tx.nLockTime : Int)
      < if tx.nLockTime < lockTimeThreshold then nBlockHeight else nBlockTime)
    || tx.vin.all CTxIn.isFinal

def mapCheckpoints : List (Nat × Uint256) :=
  [(50000, 0x00000002751f54b06ffac8da64d221babf48e9d82365c08c20e82585d674e6b6),
    (110465, 0x000000022e2e3c4a5d305aaf8d01b1bbb0fc5afccc0fb65dad642b333fdc2cd8),
    (210943, 0x000000029af45dc0e3bcb929fe1e060593a59c2fd983ee57c769bce83d1f6e86),
    (265734, 0x00000004d7a22505fb8a091c6fed6bc6c66f7ccc4789c396dc9fdb6f511d2945),
    (411000, 0x000000010c06d563dfe062ac53d7765dedc18e16de9457d0e5742255887965bc),
    (750000, 0xcda70f71ae25ef36fd7954b27067f7b4e11c6d0f3e162d53086a7516a4b067ca),
    (1000000, 0x356be281863d1a006da922d184f81065db45d5ba1302ccedabed5175b8637994),
    (2000000, 0x0000000002f68f476e4622e6a9e6eb60912df15d9822b0fe9ece9b5d372c88ab),
    (3000000, 0x3a5414c5dd29bd6fac4fe15bf900dff00a95725c39f7096a0fcbb6e40072e75b),
    (4000000, 0x212ed3ddae5f49ee7fe1092f62a393cabc50e2172ee400969dabd673ebd2051d),
    (5000000, 0x7f00f5447153b3331fcd6743f184a9434d5f866f46200cc8c7fc10108659ef45),
    (5499330, 0xaed47152a5cc2db3859dd9428089b8da1d0bdd445cd76e9711f3e304d727330f),
    (5499331, 0x00000000050e13566f81f688f2edd372415685b3c048d5b051457d170c2ea848),
    (5499332, 0x000000003806a3ee782ebc103bd7d7f47aeb753d4cce911a19dab453051e3ce5),
    (5500000, 0xa8f0c882004f2f976ec8af49fa42c45620d4b33d7a1a95de748c9e19fc917962),
    (5520100, 0x8231997f2fe53ab744f37531d619c37983b3d4dfb619169e2034e4d3d9467e6b),
    (5525100, 0x99202c5db266191c3bebba59873b5fb7514d5c9e8926e5099c5d36400f8a0ff4),
    (5579000, 0x74cd42bbe9781749a862317a21fcc97527c3e32569b4e3cd1fd59514210ed50b),
    (5608000, 0x37fb3b685a62047542a8345f031f8199839ebe716679dfe8fa318e8a5ea46d64),
    (7000000, 0x5951dafa0ca3bbe0ae77cde77e49aec3c24d7240c895009d59fc7d97ca5a8d5f),
    (7500000, 0xff72f7e6be1a14ad0aa4853ca088180d8baddaa64dd5bc877356f550124eb1f9),
    (7900000, 0x6bb7df798156d1029ca0704a0f808a4ed3f0af1d48685a59844cb394ab9b22fe),
    (7990000, 0x5d96b92f208c0d5b5670bdeb357619f4567c022e9cfc1a5c022c11db9d0cf78f)]

def checkHardened (env : Env) (nHeight : Nat) (hash : Uint256) : Bool :=
  let checkpoints := (0, env.hashGenesisBlock) :: if env.fTestNet then [] else mapCheckpoints
  match checkpoints.lookup nHeight with
  | none => true
  | some checkpoint => hash == checkpoint

/-- The ancestor of a block at a height, or the first one below it. -/
def BlockMap.traceBack (m : BlockMap) (h : Uint256) (nHeight : Nat) : Option CBlockIndex :=
  ((m.chainOf h).dropWhile (fun p => decide (p.nHeight > nHeight))).head?

/-- `Checkpoints::CheckSync`; `none` when its assertion fails. -/
def ChainState.checkSync (s : ChainState) (hashBlock : Uint256) (pindexPrev : CBlockIndex) :
    Option Bool :=
  match s.mapBlockIndex s.hashSyncCheckpoint with
  | none => none
  | some pindexSync =>
    let nHeight := pindexPrev.nHeight + 1
    let onMainChain := s.isInMainChain pindexSync.hashBlock && s.isInMainChain pindexPrev.hashBlock
    let descends := match s.mapBlockIndex.traceBack pindexPrev.hashBlock pindexSync.nHeight with
      | none => false
      | some p => !decide (p.nHeight < pindexSync.nHeight) && p.hashBlock == s.hashSyncCheckpoint
    some (!(decide (nHeight > pindexSync.nHeight) && !onMainChain && !descends)
      && !(nHeight == pindexSync.nHeight && hashBlock != s.hashSyncCheckpoint)
      && !(decide (nHeight < pindexSync.nHeight) && (s.mapBlockIndex hashBlock).isNone))

def ChainState.validateSyncCheckpoint (s : ChainState) (hashCheckpoint : Uint256) :
    ChainState × Bool :=
  match s.mapBlockIndex s.hashSyncCheckpoint, s.mapBlockIndex hashCheckpoint with
  | some pindexSyncCheckpoint, some pindexCheckpointRecv =>
    let older := decide (pindexCheckpointRecv.nHeight ≤ pindexSyncCheckpoint.nHeight)
    let (upper, lower) := if older then (pindexSyncCheckpoint, pindexCheckpointRecv)
      else (pindexCheckpointRecv, pindexSyncCheckpoint)
    match s.mapBlockIndex.traceBack upper.hashBlock lower.nHeight with
    | none => (s, false)
    | some pindex =>
      if pindex.hashBlock = lower.hashBlock then (s, !older)
      else ({ s with hashInvalidCheckpoint := hashCheckpoint }, false)
  | _, _ => (s, false)

def ChainState.writeSyncCheckpoint (s : ChainState) (w : World) (hashCheckpoint : Uint256) :
    ChainState × Bool :=
  let db₁ := CTxDB.writeSyncCheckpoint (Store.txnBegin s.db) hashCheckpoint
  if w.txnCommitOk .syncCheckpoint then
    ({ s with
        db := Store.txnCommit db₁
        hashSyncCheckpoint := hashCheckpoint
        nSyncCheckpointHeight := ((s.mapBlockIndex hashCheckpoint).map
          (fun p => (p.nHeight : Int))).getD 0 }, true)
  else ({ s with db := Store.txnAbort db₁ }, false)

namespace Node

variable (n : Node) (env : Env) (w : World)

def takePendingCheckpoint : Node × Outcome :=
  match n.chain.writeSyncCheckpoint w n.chain.hashPendingCheckpoint with
  | (s₁, true) => ({ n with chain := { s₁ with hashPendingCheckpoint := 0 } }, .returned true)
  | (s₁, false) => ({ n with chain := s₁ }, .returned false)

def acceptPendingSyncCheckpoint : Node × Outcome :=
  match n.chain.mapBlockIndex n.chain.hashPendingCheckpoint with
  | none => (n, .returned false)
  | some pindexCheckpoint =>
    if n.chain.hashPendingCheckpoint = 0 then (n, .returned false)
    else match n.chain.validateSyncCheckpoint n.chain.hashPendingCheckpoint with
    | (s₁, false) => ({ n with chain := { s₁ with hashPendingCheckpoint := 0 } }, .returned false)
    | (s₁, true) =>
      let n₁ := { n with chain := s₁ }
      if s₁.isInMainChain pindexCheckpoint.hashBlock then n₁.takePendingCheckpoint w
      else match w.readBlock env pindexCheckpoint with
      | none => (n₁, .returned false)
      | some block =>
        match n₁.setBestChain env w block pindexCheckpoint with
        | (n₂, .threw message) => (n₂, .threw message)
        | (n₂, .returned false) =>
          ({ n₂ with chain := { n₂.chain with
              hashInvalidCheckpoint := n₂.chain.hashPendingCheckpoint } }, .returned false)
        | (n₂, .returned true) => n₂.takePendingCheckpoint w

/-- Make a block the checkpoint; nothing is pending afterwards. -/
def takeCheckpoint (hashCheckpoint : Uint256) : Node × Outcome :=
  match n.chain.writeSyncCheckpoint w hashCheckpoint with
  | (s₁, true) => ({ n with chain := { s₁ with hashPendingCheckpoint := 0 } }, .returned true)
  | (s₁, false) => ({ n with chain := s₁ }, .returned false)

/-- `CSyncCheckpoint::ProcessSyncCheckpoint`; `fSigned` is the answer of `CheckSignature`. -/
def processSyncCheckpoint (fSigned : Bool) (hashCheckpoint : Uint256) : Node × Outcome :=
  if !fSigned then (n, .returned false)
  else match n.chain.mapBlockIndex hashCheckpoint with
  | none =>
    ({ n with chain := { n.chain with hashPendingCheckpoint := hashCheckpoint } }, .returned false)
  | some pindexCheckpoint =>
    match n.chain.validateSyncCheckpoint hashCheckpoint with
    | (s₁, false) => ({ n with chain := s₁ }, .returned false)
    | (s₁, true) =>
      let n₁ := { n with chain := s₁ }
      if s₁.isInMainChain pindexCheckpoint.hashBlock then n₁.takeCheckpoint w hashCheckpoint
      else match w.readBlock env pindexCheckpoint with
      | none => (n₁, .returned false)
      | some block =>
        match n₁.setBestChain env w block pindexCheckpoint with
        | (n₂, .threw message) => (n₂, .threw message)
        | (n₂, .returned false) =>
          ({ n₂ with chain := { n₂.chain with hashInvalidCheckpoint := hashCheckpoint } },
            .returned false)
        | (n₂, .returned true) => n₂.takeCheckpoint w hashCheckpoint

end Node

/-! ## The index entry of a block -/

def getBlockTrust (fTestNet fProofOfStake : Bool) (nBits : Nat) : Nat :=
  let bnTarget := setCompact nBits
  if bnTarget ≤ 0 then 0
  else if fProofOfStake then (2 ^ 256 / (bnTarget + 1)).toNat % 2 ^ 256
  else
    let nPoWTrust := ((bnProofOfWorkLimit fTestNet : Int) / (bnTarget + 1)).toNat % 2 ^ 256
    if nPoWTrust > 1 then nPoWTrust else 1

def CBlock.getStakeEntropyBit (env : Env) (b : CBlock) (nHeight : Nat) : Nat :=
  if nHeight ≥ 9689 || env.fTestNet then env.scryptBlockhash b.toCBlockHeader % 2
  else env.hash160 b.vchBlockSig % 2 ^ 160 / 2 ^ 159

variable (s : ChainState) (env : Env)

def ChainState.newBlockIndex (b : CBlock) (nFile nBlockPos : Nat)
    (hashProofOfStake : Uint256) : Except Fail CBlockIndex := do
  let hash := env.scryptBlockhash b.toCBlockHeader
  require (s.mapBlockIndex hash).isNone (.reject 0 "AddToBlockIndex() : already exists")
  let chain := s.mapBlockIndex.chainOf b.hashPrevBlock
  let pprev := s.mapBlockIndex b.hashPrevBlock
  let nHeight := (pprev.map (fun p => p.nHeight + 1)).getD 0
  let (nStakeModifier, fGenerated) ← demand (computeNextStakeModifier env s.mapBlockIndex chain)
    (.reject 0 "AddToBlockIndex() : ComputeNextStakeModifier() failed")
  let nFlags := (if b.isProofOfStake then 1 else 0)
    ||| (if b.getStakeEntropyBit env nHeight = 1 then 2 else 0)
    ||| (if fGenerated then 4 else 0)
  -- the assertion of `GetStakeModifierChecksum`
  require (pprev.isSome || hash == env.hashGenesisBlock)
    (.throw "pindex->pprev || pindex->GetBlockHash() == hashGenesisBlock")
  let nChecksum := getStakeModifierChecksum env (pprev.map CBlockIndex.nStakeModifierChecksum)
    nFlags hashProofOfStake nStakeModifier
  require (checkStakeModifierCheckpoints env.fTestNet nHeight nChecksum)
    (.reject 0 "AddToBlockIndex() : Rejected by stake modifier checkpoint")
  .ok {
    hashBlock := hash
    pprev := pprev.map (fun _ => b.hashPrevBlock)
    nFile := nFile
    nBlockPos := nBlockPos
    nChainTrust := ((pprev.map CBlockIndex.nChainTrust).getD 0
      + getBlockTrust env.fTestNet b.isProofOfStake b.nBits) % 2 ^ 256
    nHeight := nHeight
    nFlags := nFlags
    nStakeModifier := nStakeModifier
    nStakeModifierChecksum := nChecksum
    prevoutStake := b.getProofOfStake.1
    nStakeTime := b.getProofOfStake.2
    hashProofOfStake := hashProofOfStake
    nVersion := b.nVersion
    hashMerkleRoot := b.hashMerkleRoot
    nTime := b.nTime
    nBits := b.nBits
    nNonce := b.nNonce }

def ChainState.insertIndex (s : ChainState) (pindexNew : CBlockIndex) : ChainState :=
  { s with
    mapBlockIndex := Function.update s.mapBlockIndex pindexNew.hashBlock (some pindexNew)
    pnext := Function.update s.pnext pindexNew.hashBlock none
    nMint := Function.update s.nMint pindexNew.hashBlock 0
    nMoneySupply := Function.update s.nMoneySupply pindexNew.hashBlock 0
    setStakeSeen := if pindexNew.isProofOfStake then
      (pindexNew.prevoutStake, pindexNew.nStakeTime) :: s.setStakeSeen else s.setStakeSeen }

/-- The new entry in memory and in the database; the flag tells whether it was committed. -/
def ChainState.indexBlock (s : ChainState) (w : World) (pindexNew : CBlockIndex) :
    ChainState × Bool :=
  let s₁ := s.insertIndex pindexNew
  if !w.txnBeginOk (.addToBlockIndex pindexNew.hashBlock) then (s₁, false)
  else
    let db₂ := CTxDB.writeBlockIndex (Store.txnBegin s₁.db) (s₁.diskIndex pindexNew)
    if w.txnCommitOk (.addToBlockIndex pindexNew.hashBlock) then
      ({ s₁ with db := Store.txnCommit db₂ }, true)
    else ({ s₁ with db := Store.txnAbort db₂ }, false)

variable (n : Node) (env : Env) (w : World)

def Node.addToBlockIndex (b : CBlock) (nFile nBlockPos : Nat)
    (hashProofOfStake : Uint256) : Node × Outcome :=
  match n.chain.newBlockIndex env b nFile nBlockPos hashProofOfStake with
  | .error (.throw message) => (n, .threw message)
  | .error (.reject _ _) => (n, .returned false)
  | .ok pindexNew =>
    match n.chain.indexBlock w pindexNew with
    | (s₁, false) => ({ n with chain := s₁ }, .returned false)
    | (s₁, true) =>
      if pindexNew.nChainTrust > s₁.nBestChainTrust then
        { n with chain := s₁ }.setBestChain env w b pindexNew
      else ({ n with chain := s₁ }, .returned true)

theorem ChainState.newBlockIndex_ok {s : ChainState} {env : Env} {b : CBlock}
    {nFile nBlockPos : Nat} {hashProofOfStake : Uint256} {pindexNew : CBlockIndex}
    (h : s.newBlockIndex env b nFile nBlockPos hashProofOfStake = .ok pindexNew) :
    env.scryptBlockhash b.toCBlockHeader = pindexNew.hashBlock ∧
      s.mapBlockIndex pindexNew.hashBlock = none ∧
      pindexNew.pprev = (s.mapBlockIndex b.hashPrevBlock).map (fun _ => b.hashPrevBlock) ∧
      pindexNew.nHeight
        = ((s.mapBlockIndex b.hashPrevBlock).map (fun p => p.nHeight + 1)).getD 0 ∧
      ((s.mapBlockIndex b.hashPrevBlock).isSome = true ∨
        pindexNew.hashBlock = env.hashGenesisBlock) := by
  simp only [newBlockIndex, bind_eq_ok] at h
  obtain ⟨_, hnew, ⟨_, _⟩, -, _, hroot, _, -, h⟩ := h
  cases h
  exact ⟨rfl, by simpa using hnew, rfl, rfl, by simpa using hroot⟩

/-! ## AcceptBlock -/

def leBytes : Nat → Nat → List UInt8
  | 0, _ => []
  | fuel + 1, n => if n = 0 then [] else UInt8.ofNat (n % 256) :: leBytes fuel (n / 256)

def scriptOfHeight (nHeight : Nat) : CScript :=
  if 1 ≤ nHeight ∧ nHeight ≤ 16 then [UInt8.ofNat (0x50 + nHeight)]
  else
    let vch := leBytes 8 nHeight
    let vch := if vch.getLastD 0 ≥ 0x80 then vch ++ [0] else vch
    UInt8.ofNat vch.length :: vch

def ChainState.checkProofOfStake (w : World) (tx : CTransaction)
    (nBits : Nat) : Except Fail Uint256 := do
  require tx.isCoinStake (.reject 0 "CheckProofOfStake() : called on non-coinstake")
  let prevout := (tx.vin.getD 0 default).prevout
  let txindex ← demand (s.db.readTxIndex prevout.hash)
    (.reject 1 "CheckProofOfStake() : INFO: read txPrev failed")
  let txPrev ← demand (w.readTx (.stakeTx (env.txHash tx)) txindex.pos)
    (.reject 1 "CheckProofOfStake() : INFO: read txPrev failed")
  require (decide (prevout.n < txPrev.vout.length))
    (.reject 1 "CheckProofOfStake() : INFO: read txPrev failed")
  require (CScriptCheck.run env ⟨(txPrev.vout.getD prevout.n default).scriptPubKey, tx, 0,
      scriptVerifyP2SH⟩)
    (.reject 100 "CheckProofOfStake() : VerifySignature failed on coinstake")
  let blockFrom ← demand (w.readHeader (.stakeHeader (env.txHash tx)) txindex.pos)
    (.reject 0 "CheckProofOfStake() : read block failed")
  let result := s.checkStakeKernelHash env.toCrypto env.fTestNet nBits
    ⟨blockFrom, txindex.pos.nTxPos - txindex.pos.nBlockPos, txPrev, prevout, tx.nTime⟩
  require result.fValid
    (.reject 1 "CheckProofOfStake() : INFO: check kernel failed on coinstake")
  .ok result.hashProofOfStake

/-- The proof-of-stake of a block in `AcceptBlock`; the reason of a failure is not passed on. -/
def ChainState.acceptProofOfStake (w : World) (b : CBlock) : Except Fail Uint256 :=
  if b.isProofOfStake then
    match s.checkProofOfStake env w (b.vtx.getD 1 default) b.nBits with
    | .ok hashProofOfStake => .ok hashProofOfStake
    | .error _ => .error (.reject 0 "AcceptBlock(): check proof-of-stake failed")
  else .ok 0

def ChainState.checkAccept (w : World) (b : CBlock) : Except Fail Uint256 := do
  let hash := env.scryptBlockhash b.toCBlockHeader
  require (s.mapBlockIndex hash).isNone
    (.reject 0 "AcceptBlock() : block already in mapBlockIndex")
  let pindexPrev ← demand (s.mapBlockIndex b.hashPrevBlock)
    (.reject 10 "AcceptBlock() : prev block not found")
  let nHeight := pindexPrev.nHeight + 1
  checkHeaderContext env.fTestNet s.nBestHeight (s.mapBlockIndex.chainOf b.hashPrevBlock) b.nTime
    b.nBits b.isProofOfStake
  require (b.vtx.all fun tx => tx.isFinalTx s.nBestHeight w.nAdjustedTime nHeight b.nTime)
    (.reject 10 "AcceptBlock() : contains a non-final transaction")
  require (checkHardened env nHeight hash)
    (.reject 100 "AcceptBlock() : rejected by hardened checkpoint lock-in")
  let hashProofOfStake ← s.acceptProofOfStake env w b
  let cpSatisfies ← demand (s.checkSync hash pindexPrev)
    (.throw "mapBlockIndex.count(hashSyncCheckpoint)")
  require (!(env.checkpointsMode == .strict && !cpSatisfies))
    (.reject 0 "AcceptBlock() : rejected by synchronized checkpoint")
  require ((scriptOfHeight nHeight).isPrefixOf
      (((b.vtx.getD 0 default).vin.getD 0 default).scriptSig))
    (.reject 100 "AcceptBlock() : block height mismatch in coinbase")
  .ok hashProofOfStake

def Node.storeBlock (b : CBlock) (hashProofOfStake : Uint256) : Node × Except Fail Unit :=
  if !w.fDiskSpace then (n, .error (.reject 0 "AcceptBlock() : out of disk space"))
  else match w.writeToDisk with
  | none => (n, .error (.reject 0 "AcceptBlock() : WriteToDisk failed"))
  | some (nFile, nBlockPos) =>
    match n.addToBlockIndex env w b nFile nBlockPos hashProofOfStake with
    | (n₁, .threw message) => (n₁, .error (.throw message))
    | (n₁, .returned false) => (n₁, .error (.reject 0 "AcceptBlock() : AddToBlockIndex failed"))
    | (n₁, .returned true) => (n₁, .ok ())

/-- `CBlock::AcceptBlock`, in the world `w`, with the pending checkpoint handled in `wPending`. -/
def Node.acceptBlock (wPending : World) (b : CBlock) : Node × Except Fail Unit :=
  match n.chain.checkAccept env w b with
  | .error e => (n, .error e)
  | .ok hashProofOfStake =>
    match n.storeBlock env w b hashProofOfStake with
    | (n₁, .error e) => (n₁, .error e)
    | (n₁, .ok ()) =>
      match n₁.acceptPendingSyncCheckpoint env wPending with
      | (n₂, .threw message) => (n₂, .error (.throw message))
      | (n₂, .returned _) => (n₂, .ok ())

namespace Node

variable {n : Node} {env : Env} {w wPending : World} {b : CBlock} {nFile nBlockPos : Nat}
  {hashProofOfStake : Uint256}

abbrev entered (n : Node) (w : World) (pindexNew : CBlockIndex) : Node :=
  { n with chain := (n.chain.indexBlock w pindexNew).1 }

/-- **AddToBlockIndex** changes nothing, adds the entry, or goes on to make it the best block. -/
theorem addToBlockIndex_induct (P : Node × Outcome → Prop)
    (refused : ∀ outcome, outcome ≠ .returned true → P (n, outcome)) (index : ∀ pindexNew fOk,
      n.chain.newBlockIndex env b nFile nBlockPos hashProofOfStake = .ok pindexNew →
      P (n.entered w pindexNew, .returned fOk))
    (setBest : ∀ pindexNew,
      n.chain.newBlockIndex env b nFile nBlockPos hashProofOfStake = .ok pindexNew →
      P ((n.entered w pindexNew).setBestChain env w b pindexNew)) :
    P (n.addToBlockIndex env w b nFile nBlockPos hashProofOfStake) := by
  unfold addToBlockIndex
  split
  · exact refused _ nofun
  · exact refused _ nofun
  rename_i pindexNew hnew
  have hindex := index pindexNew
  have hset := setBest pindexNew hnew
  split
  next s1 hs1 =>
    rw [entered, hs1] at hindex
    exact hindex false hnew
  rename_i s1 hs1
  rw [entered, hs1] at hindex hset
  split
  · exact hset
  · exact hindex true hnew

theorem storeBlock_induct (P : Node × Except Fail Unit → Prop) (refused : ∀ e, P (n, .error e))
    (added : ∀ nFile nBlockPos r,
      (r = .ok () →
        (n.addToBlockIndex env w b nFile nBlockPos hashProofOfStake).2 = .returned true) →
      P ((n.addToBlockIndex env w b nFile nBlockPos hashProofOfStake).1, r)) :
    P (n.storeBlock env w b hashProofOfStake) := by
  unfold storeBlock
  split
  · exact refused _
  split
  · exact refused _
  rename_i nFile nBlockPos _
  have hadd := added nFile nBlockPos
  split
  all_goals
    rename_i hn1
    rw [hn1] at hadd
    exact hadd _ (by simp)

theorem acceptBlock_induct (P : Node × Except Fail Unit → Prop) (refused : ∀ e, P (n, .error e))
    (failed : ∀ hashProofOfStake n1 e, n.chain.checkAccept env w b = .ok hashProofOfStake →
      n.storeBlock env w b hashProofOfStake = (n1, .error e) → P (n1, .error e))
    (stored : ∀ hashProofOfStake n1 r, n.chain.checkAccept env w b = .ok hashProofOfStake →
      n.storeBlock env w b hashProofOfStake = (n1, .ok ()) →
      P ((n1.acceptPendingSyncCheckpoint env wPending).1, r)) :
    P (n.acceptBlock env w wPending b) := by
  unfold acceptBlock
  split
  · exact refused _
  rename_i hashProofOfStake hcheck
  split
  next n1 e hn1 => exact failed _ n1 e hcheck hn1
  rename_i n1 hn1
  have hpend := fun r => stored _ n1 r hcheck hn1
  split
  all_goals
    rename_i hn2
    rw [hn2] at hpend
    exact hpend _

end Node

end HoboNickels

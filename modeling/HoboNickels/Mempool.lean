import HoboNickels.Connect

/-!
# The memory pool

`CTxMemPool` and `AcceptToMemoryPool`. The pool keeps the transactions by id and remembers which
outputs they spend. A transaction enters after the checks of a block's transaction against the
committed index. The rate limiter for free transactions is left out: it is reached only with a fee
below `MIN_RELAY_TX_FEE`, which the check before it has excluded.
-/

namespace HoboNickels

open Fallible

structure CInPoint where
  hash : Uint256
  n : Nat
  deriving DecidableEq, Repr

structure CTxMemPool where
  mapTx : Uint256 → Option CTransaction
  mapNextTx : COutPoint → Option CInPoint

namespace CTxMemPool

def empty : CTxMemPool := ⟨fun _ => none, fun _ => none⟩

def linkInputs (hash : Uint256) :
    Nat → List CTxIn → (COutPoint → Option CInPoint) → COutPoint → Option CInPoint
  | _, [], next => next
  | i, txin :: rest, next =>
    linkInputs hash (i + 1) rest (Function.update next txin.prevout (some ⟨hash, i⟩))

def addUnchecked (pool : CTxMemPool) (hash : Uint256) (tx : CTransaction) : CTxMemPool where
  mapTx := Function.update pool.mapTx hash (some tx)
  mapNextTx := linkInputs hash 0 tx.vin pool.mapNextTx

def remove (env : Env) (pool : CTxMemPool) (tx : CTransaction) : CTxMemPool :=
  if (pool.mapTx (env.txHash tx)).isSome then
    { mapTx := Function.update pool.mapTx (env.txHash tx) none
      mapNextTx := tx.vin.foldl (fun next txin => Function.update next txin.prevout none)
        pool.mapNextTx }
  else pool

def clear (_ : CTxMemPool) : CTxMemPool := empty

end CTxMemPool

structure Node where
  chain : ChainState
  mempool : CTxMemPool

/-! ## Accepting a transaction -/

/-- A second handle on the database, which sees the committed table only. -/
def CTxDB.readOnly (db : CTxDB) : CTxDB := ⟨db.committed, none⟩

def relabel {α : Type} (message : String) : Except Fail α → Except Fail α
  | .error (.reject nDoS _) => .error (.reject nDoS message)
  | r => r

theorem relabel_eq_ok {α : Type} {message : String} {r : Except Fail α} {a : α} :
    relabel message r = .ok a ↔ r = .ok a := by
  cases r with
  | ok b => rfl
  | error e =>
    cases e <;> simp [relabel]

/-- The outcome of `FetchInputs`: a transaction that is definitely invalid, or one whose inputs are
not there yet. -/
def fetchOutcome : Except Fail MapPrevTx → Except Fail MapPrevTx
  | .error (.reject 100 _) =>
    .error (.reject 100 "AcceptToMemoryPool : FetchInputs found invalid tx")
  | .error (.reject _ _) => .error (.reject 0 "")
  | r => r

theorem fetchOutcome_eq_ok {r : Except Fail MapPrevTx} {inputs : MapPrevTx} :
    fetchOutcome r = .ok inputs ↔ r = .ok inputs := by
  unfold fetchOutcome
  split <;> simp

namespace Node

variable (n : Node) (env : Env) (w : World) (tx : CTransaction)

def fetchContext : FetchContext where
  db := n.chain.db.readOnly
  mapTestPool := ∅
  fBlock := false
  fMiner := false
  mempool := n.mempool.mapTx

def connectContext (pindexBest : CBlockIndex) (tx : CTransaction) : ConnectContext where
  posThisTx := CDiskTxPos.memoryPool
  pindexBlock := pindexBest
  ancestors := n.chain.ancestorsOf pindexBest
  fBlock := false
  fMiner := false
  fScriptChecks := true
  flags := if version2_0SwitchTime false < tx.nTime then strictFlags else softFlags
  fQueueChecks := false

def checkRelayFee (inputs : MapPrevTx) : Except Fail Unit := do
  let nValueOut ← CBlock.valueOutOrThrow tx
  require (!decide (getValueIn inputs tx - nValueOut < tx.getMinFee 1000 tx.serializeSize))
    (.reject 0 "AcceptToMemoryPool : not enough fees")

/-- `AcceptToMemoryPool`: the pool with the transaction in it. -/
def acceptToMemoryPool : Except Fail CTxMemPool := do
  let hash := env.txHash tx
  let db := n.chain.db.readOnly
  relabel "AcceptToMemoryPool : CheckTransaction failed" (tx.checkTransaction w.nAdjustedTime)
  require (!tx.isCoinBase) (.reject 100 "AcceptToMemoryPool : coinbase as individual tx")
  require (!tx.isCoinStake) (.reject 100 "AcceptToMemoryPool : coinstake as individual tx")
  require (env.fTestNet || env.isStandardTx tx n.chain.nBestHeight w.nAdjustedTime)
    (.reject 0 "AcceptToMemoryPool : nonstandard transaction type")
  require (!(n.mempool.mapTx hash).isSome) (.reject 0 "")
  require (tx.vin.all (fun txin => !(n.mempool.mapNextTx txin.prevout).isSome)) (.reject 0 "")
  require (!(db.readTxIndex hash).isSome) (.reject 0 "")
  let inputs ← fetchOutcome (fetchInputs env w n.fetchContext tx)
  require (env.areInputsStandard tx (tx.vin.map inputs.outputOf) || env.fTestNet)
    (.reject 0 "AcceptToMemoryPool : nonstandard transaction input")
  checkRelayFee tx inputs
  let pindexBest ← demand (n.chain.pindexBest.bind n.chain.mapBlockIndex)
    (.throw "pindexBest is null")
  let _ ← relabel "AcceptToMemoryPool : ConnectInputs failed"
    (connectInputs env w db n.chain.nBestHeight (n.connectContext pindexBest tx) inputs ∅ tx)
  return n.mempool.addUnchecked hash tx

/-- What a transaction that enters the pool has been checked for. -/
structure Accepted : Prop where
  checked : tx.checkTransaction w.nAdjustedTime = .ok ()
  notCoinBase : tx.isCoinBase = false
  notPooled : n.mempool.mapTx (env.txHash tx) = none
  unlinked : ∀ txin ∈ tx.vin, n.mempool.mapNextTx txin.prevout = none
  connected : ∃ inputs pindexBest changes checks,
    fetchInputs env w n.fetchContext tx = .ok inputs ∧
      connectInputs env w n.chain.db.readOnly n.chain.nBestHeight (n.connectContext pindexBest tx)
        inputs ∅ tx = .ok (changes, checks)

theorem acceptToMemoryPool_ok {n : Node} {env : Env} {w : World} {tx : CTransaction}
    {pool : CTxMemPool} (h : n.acceptToMemoryPool env w tx = .ok pool) :
    pool = n.mempool.addUnchecked (env.txHash tx) tx ∧ n.Accepted env w tx := by
  simp only [acceptToMemoryPool, bind_eq_ok] at h
  obtain ⟨_, hcheck, _, hcb, _, -, _, -, _, hpooled, _, hunlinked, _, -, inputs, hfetch, _, -, _, -,
    pindexBest, -, ⟨changes, checks⟩, hconnect, h⟩ := h
  cases h
  refine ⟨rfl, ?_⟩
  constructor
  · exact relabel_eq_ok.mp hcheck
  · simpa using hcb
  · simpa using hpooled
  · simpa using hunlinked
  · exact ⟨inputs, pindexBest, changes, checks, fetchOutcome_eq_ok.mp hfetch,
      relabel_eq_ok.mp hconnect⟩

def tryAccept (n : Node) (tx : CTransaction) : Node :=
  match n.acceptToMemoryPool env w tx with
  | .ok pool => { n with mempool := pool }
  | .error _ => n

def removeFromPool (n : Node) (tx : CTransaction) : Node :=
  { n with mempool := n.mempool.remove env tx }

end Node

end HoboNickels

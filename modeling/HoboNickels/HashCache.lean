import HoboNickels.Merkle

/-!
# The cached block hash

`CBlock` memoises its scrypt hash in `hashCache` while `fHashCached` is set, and every mutation of
the header is asked to clear the flag. The operations below are those the program performs on a
block object; each returns the object and the trace of its `GetHash` calls.

`IncrementExtraNonce`, the `getworkex` request and both submit paths rewrite the header without
clearing the flag. In every run in which these are applied only to objects without a cached hash, or
leave the header as it was, every call returns the hash of the header (`getHash_never_stale`).
-/

namespace HoboNickels

structure CachedBlock extends CBlock where
  hashCache : Uint256
  fHashCached : Bool
  deriving DecidableEq, Repr, Inhabited

/-- Values returned by `GetHash` with the header at the time of the call. -/
abbrev HashTrace := List (Uint256 × CBlockHeader)

/-- What the wallet can do with an output script: `none`, or the attempt to sign a hash with its
key. -/
abbrev BlockSigner := CScript → Option (Uint256 → Option (List UInt8))

structure StakeAttempt where
  txCoinStake : Option CTransaction
  nPastTimeLimit : Int
  nPastDrift : Int
  sign : Uint256 → Option (List UInt8)

namespace CachedBlock

variable (c : Crypto)

section

variable (nAdjustedTime : Int) (scriptSig : CScript) (o : CachedBlock)

def header : CBlockHeader := o.toCBlockHeader

def getHash : Uint256 × CachedBlock :=
  if o.fHashCached then (o.hashCache, o)
  else (c.scryptBlockhash o.header,
    { o with hashCache := c.scryptBlockhash o.header, fHashCached := true })

def setNull : CachedBlock where
  nVersion := 4
  hashPrevBlock := 0
  hashMerkleRoot := 0
  nTime := 0
  nBits := 0
  nNonce := 0
  vtx := []
  vchBlockSig := []
  hashCache := o.hashCache
  fHashCached := false

def deserialize (b : CBlock) (o : CachedBlock) : CachedBlock :=
  { toCBlock := b, hashCache := o.hashCache, fHashCached := false }

def updateTime : CachedBlock :=
  { o with nTime := uint32 (max (o.nTime : Int) nAdjustedTime), fHashCached := false }

def setCoinbaseScript (vtx : List CTransaction) : List CTransaction :=
  match vtx with
  | tx :: rest =>
    match tx.vin with
    | txin :: vin => { tx with vin := { txin with scriptSig := scriptSig } :: vin } :: rest
    | [] => tx :: rest
  | [] => []

def rebuildMerkleRoot : CachedBlock :=
  { o with hashMerkleRoot := buildMerkleTree c o.toCBlock }

/-- `IncrementExtraNonce`, with the coinbase script it builds from height and extra nonce. -/
def incrementExtraNonce : CachedBlock :=
  rebuildMerkleRoot c { o with vtx := setCoinbaseScript scriptSig o.vtx }

def getworkRequest : CachedBlock :=
  incrementExtraNonce c scriptSig { updateTime nAdjustedTime o with nNonce := 0 }

end

/-- The `getworkex` request assigns `nTime` itself instead of calling `UpdateTime`. -/
def getworkexRequest (nTime : Nat) (scriptSig : CScript) (o : CachedBlock) : CachedBlock :=
  incrementExtraNonce c scriptSig { o with nTime := nTime, nNonce := 0 }

/-- What a submission writes into the saved block before it is signed. -/
def submitScript (nTime nNonce : Nat) (scriptSig : CScript) (o : CachedBlock) : CachedBlock :=
  rebuildMerkleRoot c
    { o with nTime := nTime, nNonce := nNonce, vtx := setCoinbaseScript scriptSig o.vtx }

/-- The variant of `getworkex` in which the miner sends the whole coinbase. -/
def submitCoinbase (nTime nNonce : Nat) (coinbase : CTransaction) (o : CachedBlock) : CachedBlock :=
  rebuildMerkleRoot c { o with nTime := nTime, nNonce := nNonce, vtx := coinbase :: o.vtx.tail }

def signOutputs (signer : BlockSigner) :
    List CTxOut → CachedBlock → Bool × CachedBlock × HashTrace
  | [], o => (false, o, [])
  | out :: rest, o =>
    match signer out.scriptPubKey with
    | none => signOutputs signer rest o
    | some sign =>
      match sign (o.getHash c).1 with
      | some sig =>
        (true, { (o.getHash c).2 with vchBlockSig := sig }, [((o.getHash c).1, o.header)])
      | none =>
        let r := signOutputs signer rest (o.getHash c).2
        (r.1, r.2.1, ((o.getHash c).1, o.header) :: r.2.2)

def signBlock (signer : BlockSigner) (o : CachedBlock) : Bool × CachedBlock × HashTrace :=
  signOutputs c signer ((o.vtx.headD default).vout) o

/-- The end of a submission: sign, and on success look at the hash in `CheckWork`. -/
def signAndCheckWork (signer : BlockSigner) (o : CachedBlock) : CachedBlock × HashTrace :=
  match signBlock c signer o with
  | (false, o', tr) => (o', tr)
  | (true, o', tr) => ((o'.getHash c).2, tr ++ [((o'.getHash c).1, o'.header)])

def insertCoinStake (txCoinStake : CTransaction) (nPastTimeLimit nPastDrift : Int)
    (o : CachedBlock) : CachedBlock :=
  let vtx := match o.vtx with
    | coinbase :: rest => { coinbase with nTime := txCoinStake.nTime } :: rest
    | [] => []
  let maxTxTime := CBlock.getMaxTransactionTime { o.toCBlock with vtx := vtx }
  let nTime := uint32 (max (nPastTimeLimit + 1) maxTxTime)
  let nTime := uint32 (max (nTime : Int) nPastDrift)
  let vtx := vtx.filter (fun tx => decide (tx.nTime ≤ nTime))
  let o' := rebuildMerkleRoot c { o with nTime := nTime, vtx := vtx.insertIdx 1 txCoinStake }
  { o' with fHashCached := false }

def signPoSBlock (a : StakeAttempt) (o : CachedBlock) : CachedBlock × HashTrace :=
  if ((o.vtx.headD default).vout.headD default).isEmpty && !o.isProofOfStake then
    match a.txCoinStake with
    | none => (o, [])
    | some txCoinStake =>
      if (txCoinStake.nTime : Int) ≥ max (a.nPastTimeLimit + 1) a.nPastDrift then
        let o' := insertCoinStake c txCoinStake a.nPastTimeLimit a.nPastDrift o
        let signed := (o'.getHash c).2
        (match a.sign (o'.getHash c).1 with
          | some sig => { signed with vchBlockSig := sig }
          | none => signed, [((o'.getHash c).1, o'.header)])
      else (o, [])
  else (o, [])

end CachedBlock

/-! ## Runs -/

inductive BlockOp where
  | getHash
  | setNull
  | deserialize (b : CBlock)
  | updateTime (nAdjustedTime : Int)
  | incrementExtraNonce (scriptSig : CScript)
  | getworkRequest (nAdjustedTime : Int) (scriptSig : CScript)
  | getworkexRequest (nTime : Nat) (scriptSig : CScript)
  | getworkSubmit (nTime nNonce : Nat) (scriptSig : CScript) (signer : BlockSigner)
  | getworkexSubmit (nTime nNonce : Nat) (coinbase : CTransaction) (signer : BlockSigner)
  | signBlock (signer : BlockSigner)
  | signPoSBlock (a : StakeAttempt)

namespace BlockOp

variable (c : Crypto)

def run : BlockOp → CachedBlock → CachedBlock × HashTrace
  | getHash, o => ((o.getHash c).2, [((o.getHash c).1, o.header)])
  | setNull, o => (o.setNull, [])
  | deserialize b, o => (o.deserialize b, [])
  | updateTime t, o => (o.updateTime t, [])
  | incrementExtraNonce s, o => (o.incrementExtraNonce c s, [])
  | getworkRequest t s, o => (o.getworkRequest c t s, [])
  | getworkexRequest t s, o => (o.getworkexRequest c t s, [])
  | getworkSubmit t n s signer, o => (o.submitScript c t n s).signAndCheckWork c signer
  | getworkexSubmit t n tx signer, o => (o.submitCoinbase c t n tx).signAndCheckWork c signer
  | signBlock signer, o => (o.signBlock c signer).2
  | signPoSBlock a, o => o.signPoSBlock c a

def uncleared : BlockOp → CachedBlock → CachedBlock
  | incrementExtraNonce s, o => o.incrementExtraNonce c s
  | getworkexRequest t s, o => o.getworkexRequest c t s
  | getworkSubmit t n s _, o => o.submitScript c t n s
  | getworkexSubmit t n tx _, o => o.submitCoinbase c t n tx
  | _, o => o

def SafeOn (op : BlockOp) (o : CachedBlock) : Prop :=
  o.fHashCached = false ∨ (op.uncleared c o).header = o.header

end BlockOp

structure BlockPool where
  obj : Nat → CachedBlock
  trace : HashTrace

inductive PoolOp where
  | on (i : Nat) (op : BlockOp)
  | copy (src dst : Nat)

namespace BlockPool

variable (c : Crypto)

def step (s : BlockPool) : PoolOp → BlockPool
  | .on i op =>
    { obj := Function.update s.obj i (op.run c (s.obj i)).1
      trace := s.trace ++ (op.run c (s.obj i)).2 }
  | .copy src dst => { s with obj := Function.update s.obj dst (s.obj src) }

def SafeStep (s : BlockPool) : PoolOp → Prop
  | .on i op => op.SafeOn c (s.obj i)
  | .copy _ _ => True

inductive Reached : BlockPool → Prop
  | init {obj : Nat → CachedBlock} : (∀ i, (obj i).fHashCached = false) → Reached ⟨obj, []⟩
  | step {s : BlockPool} {op : PoolOp} : Reached s → s.SafeStep c op → Reached (s.step c op)

end BlockPool

/-! ## The cache invariant -/

section Fresh

variable (c : Crypto)

def CachedBlock.Fresh (o : CachedBlock) : Prop :=
  o.fHashCached = true → o.hashCache = c.scryptBlockhash o.header

def TraceFresh (tr : HashTrace) : Prop := ∀ e ∈ tr, e.1 = c.scryptBlockhash e.2

variable {c} {o : CachedBlock}

theorem CachedBlock.fresh_of_uncached (h : o.fHashCached = false) : o.Fresh c := by
  intro h'
  rw [h] at h'
  cases h'

theorem CachedBlock.getHash_fst (h : o.Fresh c) : (o.getHash c).1 = c.scryptBlockhash o.header := by
  unfold getHash
  split
  next hcached => exact h hcached
  · rfl

theorem CachedBlock.getHash_snd_fresh (h : o.Fresh c) : (o.getHash c).2.Fresh c := by
  unfold getHash
  split
  · exact h
  · intro _
    rfl

theorem CachedBlock.fresh_rewrite {o' : CachedBlock} (h : o.Fresh c)
    (hcache : o'.hashCache = o.hashCache) (hflag : o'.fHashCached = o.fHashCached)
    (hsafe : o.fHashCached = false ∨ o'.header = o.header) : o'.Fresh c := by
  rcases hsafe with hclear | hsame
  · exact fresh_of_uncached (hflag.trans hclear)
  · intro hcached
    rw [hcache, hsame]
    exact h (hflag ▸ hcached)

theorem TraceFresh.append {tr1 tr2 : HashTrace} (h1 : TraceFresh c tr1) (h2 : TraceFresh c tr2) :
    TraceFresh c (tr1 ++ tr2) := by
  intro e he
  rcases List.mem_append.mp he with he | he
  · exact h1 e he
  · exact h2 e he

open CachedBlock

theorem traceFresh_getHash (h : o.Fresh c) : TraceFresh c [((o.getHash c).1, o.header)] := by
  intro e he
  rw [List.mem_singleton] at he
  subst he
  exact getHash_fst h

theorem CachedBlock.signOutputs_fresh (signer : BlockSigner) (outs : List CTxOut)
    (o : CachedBlock) (h : o.Fresh c) :
    (signOutputs c signer outs o).2.1.Fresh c ∧ TraceFresh c (signOutputs c signer outs o).2.2 := by
  induction outs generalizing o with
  | nil => exact ⟨h, by intro e he; cases he⟩
  | cons out rest ih =>
    rw [signOutputs]
    cases signer out.scriptPubKey with
    | none => exact ih o h
    | some sign =>
      have hnext := getHash_snd_fresh h
      cases hs : sign (o.getHash c).1 with
      | some sig =>
        simp only [hs]
        exact ⟨fresh_rewrite hnext rfl rfl (.inr rfl), traceFresh_getHash h⟩
      | none =>
        simp only [hs]
        obtain ⟨h1, h2⟩ := ih (o.getHash c).2 hnext
        exact ⟨h1, (traceFresh_getHash h).append h2⟩

theorem CachedBlock.signAndCheckWork_fresh (signer : BlockSigner)
    (h : o.Fresh c) : (o.signAndCheckWork c signer).1.Fresh c ∧
      TraceFresh c (o.signAndCheckWork c signer).2 := by
  obtain ⟨h1, h2⟩ := signOutputs_fresh signer ((o.vtx.headD default).vout) o h
  unfold signAndCheckWork
  rcases hr : signBlock c signer o with ⟨ok, _, _⟩
  rw [signBlock] at hr
  rw [hr] at h1 h2
  cases ok with
  | false => exact ⟨h1, h2⟩
  | true => exact ⟨getHash_snd_fresh h1, h2.append (traceFresh_getHash h1)⟩

theorem CachedBlock.signPoSBlock_fresh (a : StakeAttempt) (h : o.Fresh c) :
    (o.signPoSBlock c a).1.Fresh c ∧ TraceFresh c (o.signPoSBlock c a).2 := by
  have hunchanged : o.Fresh c ∧ TraceFresh c [] := ⟨h, by intro e he; cases he⟩
  unfold signPoSBlock
  split
  · cases a.txCoinStake with
    | none => exact hunchanged
    | some tx =>
      simp only
      split
      · have hclear : (insertCoinStake c tx a.nPastTimeLimit a.nPastDrift o).Fresh c :=
          fresh_of_uncached rfl
        have hnext := getHash_snd_fresh hclear
        refine ⟨?_, traceFresh_getHash hclear⟩
        cases a.sign ((insertCoinStake c tx a.nPastTimeLimit a.nPastDrift o).getHash c).1 with
        | none => exact hnext
        | some sig => exact fresh_rewrite hnext rfl rfl (.inr rfl)
      · exact hunchanged
  · exact hunchanged

theorem BlockOp.run_fresh {op : BlockOp} (h : o.Fresh c)
    (hsafe : op.SafeOn c o) : (op.run c o).1.Fresh c ∧ TraceFresh c (op.run c o).2 := by
  have hnone : TraceFresh c [] := by intro e he; cases he
  cases op with
  | getHash => exact ⟨getHash_snd_fresh h, traceFresh_getHash h⟩
  | setNull => exact ⟨fresh_of_uncached rfl, hnone⟩
  | deserialize b => exact ⟨fresh_of_uncached rfl, hnone⟩
  | updateTime t => exact ⟨fresh_of_uncached rfl, hnone⟩
  | incrementExtraNonce s => exact ⟨fresh_rewrite h rfl rfl hsafe, hnone⟩
  | getworkRequest t s =>
    -- `UpdateTime` has cleared the flag, and nothing hashes before the rewrites that follow
    exact ⟨fresh_of_uncached rfl, hnone⟩
  | getworkexRequest t s => exact ⟨fresh_rewrite h rfl rfl hsafe, hnone⟩
  | getworkSubmit t n s signer =>
    exact signAndCheckWork_fresh signer (fresh_rewrite h rfl rfl hsafe)
  | getworkexSubmit t n tx signer =>
    exact signAndCheckWork_fresh signer (fresh_rewrite h rfl rfl hsafe)
  | signBlock signer => exact signOutputs_fresh signer _ o h
  | signPoSBlock a => exact signPoSBlock_fresh a h

end Fresh

theorem BlockPool.reached_fresh {c : Crypto} {s : BlockPool} (h : BlockPool.Reached c s) :
    (∀ i, (s.obj i).Fresh c) ∧ TraceFresh c s.trace := by
  induction h with
  | init hclear =>
    exact ⟨fun i => CachedBlock.fresh_of_uncached (hclear i), by intro e he; cases he⟩
  | @step s op _ hsafe ih =>
    obtain ⟨hobj, htrace⟩ := ih
    cases op with
    | on i op =>
      obtain ⟨h1, h2⟩ := BlockOp.run_fresh (hobj i) hsafe
      refine ⟨fun j => ?_, htrace.append h2⟩
      rcases eq_or_ne j i with rfl | hji
      · simpa only [step, Function.update_self] using h1
      · simpa only [step, Function.update_of_ne hji] using hobj j
    | copy src dst =>
      refine ⟨fun j => ?_, htrace⟩
      rcases eq_or_ne j dst with rfl | hj
      · simpa only [step, Function.update_self] using hobj src
      · simpa only [step, Function.update_of_ne hj] using hobj j

/-- **`GetHash` is never stale along safe runs**: where headers are rewritten without clearing the
flag only if no hash is cached or the header stays the same, every call returned, and would now
return, the hash of the header. -/
theorem getHash_never_stale {c : Crypto} {s : BlockPool} (h : BlockPool.Reached c s) :
    (∀ e ∈ s.trace, e.1 = c.scryptBlockhash e.2) ∧
      ∀ i, ((s.obj i).getHash c).1 = c.scryptBlockhash (s.obj i).header := by
  obtain ⟨hobj, htrace⟩ := BlockPool.reached_fresh h
  exact ⟨htrace, fun i => CachedBlock.getHash_fst (hobj i)⟩

/-! ## Two submissions for one template

A miner asks for work once and submits two solutions: the first submission caches the hash,
the second rewrites `nNonce` under it. -/

def sampleCrypto : Crypto where
  txHash := fun tx => tx.nTime * 2 ^ 32 + (tx.vin.headD default).scriptSig.length
  scryptBlockhash := fun h => (h.hashMerkleRoot * 2 ^ 32 + h.nTime) * 2 ^ 32 + h.nNonce
  hashPair := fun a b => a * 2 ^ 64 + b
  hashKernel := fun modifier _ nTxPrevOffset _ n nTimeTx =>
    ((modifier * 2 ^ 32 + nTxPrevOffset) * 2 ^ 32 + n) * 2 ^ 32 + nTimeTx

def sampleTemplate : CachedBlock where
  nVersion := 4
  hashPrevBlock := 7
  hashMerkleRoot := 0
  nTime := 1500000000
  nBits := 0x1e0fffff
  nNonce := 0
  vtx := [{ nVersion := 1, nTime := 1500000000, vin := [⟨COutPoint.null, [], uint32Max⟩],
            vout := [⟨5 * coin, [0x21, 0xac]⟩], nLockTime := 0 }]
  vchBlockSig := []
  hashCache := 0
  fHashCached := false

def samplePool : BlockPool := ⟨fun _ => sampleTemplate, []⟩

def sampleSigner : BlockSigner := fun script =>
  if script = [0x21, 0xac] then some (fun _ => some [0x30]) else none

def oneSolution : BlockPool :=
  (samplePool.step sampleCrypto (.on 0 (.getworkRequest 1500000010 [1, 1]))).step sampleCrypto
    (.on 0 (.getworkSubmit 1500000020 41 [1, 1] sampleSigner))

def twoSolutions : BlockPool :=
  oneSolution.step sampleCrypto (.on 0 (.getworkSubmit 1500000020 42 [1, 1] sampleSigner))

theorem getHash_never_stale_oneSolution :
    BlockPool.Reached sampleCrypto oneSolution ∧ oneSolution.trace.length = 2 ∧
      (∀ e ∈ oneSolution.trace, e.1 = sampleCrypto.scryptBlockhash e.2) ∧
      ∀ i, ((oneSolution.obj i).getHash sampleCrypto).1
        = sampleCrypto.scryptBlockhash (oneSolution.obj i).header := by
  have hreached : BlockPool.Reached sampleCrypto oneSolution :=
    .step (.step (.init fun _ => rfl) (.inl rfl)) (.inl rfl)
  exact ⟨hreached, rfl, getHash_never_stale hreached⟩

/-- The second submission signs and checks the hash of the first one's header. -/
theorem twoSolutions_stale : ∃ e ∈ twoSolutions.trace, e.1 ≠ sampleCrypto.scryptBlockhash e.2 := by
  refine ⟨(twoSolutions.trace.getD 2 default), ?_, ?_⟩
  · decide +kernel
  · decide +kernel

end HoboNickels

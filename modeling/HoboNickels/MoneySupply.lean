import HoboNickels.Accept

/-!
# Money supply

`ConnectBlock` records in `nMoneySupply` the supply of the parent plus the outputs minus the inputs
of the block, and the transaction index says which outputs are unspent. After any sequence of
connecting and disconnecting blocks on top of genesis the supply recorded in the tip is the total
value of the unspent outputs. The genesis block is never connected: its outputs are not in the
index, and its supply is zero.
-/

namespace HoboNickels

open WriteBatch List Function TxTable CTxIndex Fallible

def Disk.value (d : Disk) (pos : CDiskTxPos) (n : Nat) : Int :=
  match d.tx pos.nFile pos.nTxPos with
  | some tx => (tx.vout.getD n default).nValue
  | none => 0

def Disk.HoldsTxs (d : Disk) (nFile : Nat) : Nat → List CTransaction → Prop
  | _, [] => True
  | nTxPos, tx :: rest =>
    d.tx nFile nTxPos = some tx ∧ d.HoldsTxs nFile (nTxPos + tx.serializeSize) rest

def Disk.HoldsBlock (d : Disk) (b : CBlock) (pindex : CBlockIndex) : Prop :=
  openBlockFile pindex.nFile = true ∧
    d.HoldsTxs pindex.nFile (firstTxPos pindex.nBlockPos b) b.vtx

theorem sum_range_getD_nValue (outs : List CTxOut) :
    ∑ n ∈ Finset.range outs.length, (outs.getD n default).nValue
      = (outs.map (·.nValue)).sum := by
  induction outs with
  | nil => rfl
  | cons out rest ih =>
    rw [length_cons, Finset.sum_range_succ', map_cons, sum_cons]
    simp only [getD_cons_succ, getD_cons_zero]
    omega

/-! ## The tallies of a block and the unspent total -/

def TxTable.Stored (I : TxTable) : Prop :=
  ∀ h t, I.lookup h = some t → t.pos ≠ CDiskTxPos.memoryPool

theorem pos_lookup_connectAll {db : CTxDB} {I₀ : TxTable} (hs : Shows db.readTxIndex I₀)
    (before : List PlacedTx) :
    ∀ I, I₀.connectAll before = some I → ∀ k,
      (I.lookup k).map pos = prevPos db before k := by
  induction before using List.reverseRecOn with
  | nil =>
    intro I h k
    cases h
    rw [← hs k]
    rfl
  | append_singleton before x ih =>
    intro I h k
    obtain ⟨I1, h1, h2⟩ := connectAll_append.mp h
    obtain ⟨_, h2, h3⟩ := connectAll_cons.mp h2
    cases h3
    rw [pos_lookup_connect h2, prevPos_append, ih I1 h1]

theorem TxTable.stored_connect {I J : TxTable} {x : PlacedTx} (h : I.connect x = some J)
    (hx : x.pos ≠ CDiskTxPos.memoryPool) (hI : I.Stored) : J.Stored := by
  intro k t ht
  have hpos := pos_lookup_connect h k
  rw [ht] at hpos
  by_cases hk : k = x.hash
  · rw [if_pos hk] at hpos
    have hpos : t.pos = x.pos := Option.some.inj hpos
    rw [hpos]
    exact hx
  rw [if_neg hk] at hpos
  obtain ⟨t', ht', heq⟩ := Option.map_eq_some_iff.mp hpos.symm
  rw [← heq]
  exact hI k t' ht'

theorem TxTable.stored_connectAll (xs : List PlacedTx) {I J : TxTable}
    (h : I.connectAll xs = some J) (hxs : (∀ x ∈ xs, x.pos ≠ CDiskTxPos.memoryPool))
    (hI : I.Stored) : J.Stored := by
  induction xs generalizing I J with
  | nil =>
    cases h
    exact hI
  | cons x xs ih =>
    obtain ⟨_, h1, h2⟩ := connectAll_cons.mp h
    exact ih h2 (fun y hy => hxs y (mem_cons_of_mem x hy))
      (stored_connect h1 (hxs x mem_cons_self) hI)

section Tallies

variable {env : Env} {w : World} {c : BlockContext} {I₀ : TxTable}

theorem inputValue_eq_outputValue (hs : Shows c.db.readTxIndex I₀) {before : List PlacedTx}
    {I : TxTable} (hI : I₀.connectAll before = some I) (hstored : I.Stored) (txin : CTxIn) :
    c.inputValue w before txin = I.outputValue w.disk.value txin.prevout := by
  have hpos := pos_lookup_connectAll hs before I hI txin.prevout.hash
  unfold BlockContext.inputValue outputValue
  rw [← hpos]
  cases hlook : I.lookup txin.prevout.hash with
  | none => rfl
  | some t =>
    have hprev : w.prevTx c.mempool t.pos txin.prevout.hash
        = w.disk.tx t.pos.nFile t.pos.nTxPos := by
      rw [World.prevTx, if_neg (hstored _ t hlook)]
    simp only [Option.map_some, Option.bind_some, Option.elim_some, Disk.value]
    rw [hprev]
    cases w.disk.tx t.pos.nFile t.pos.nTxPos <;> rfl

/-- **Connecting transactions** changes the value of the unspent outputs by what their tallies
issue. -/
theorem unspentTotal_connectAll (hs : Shows c.db.readTxIndex I₀) (txs : List CTransaction) :
    ∀ (before : List PlacedTx) (nTxPos : Nat) (I J : TxTable),
      I₀.connectAll before = some I → I.Stored → 2 ≤ nTxPos →
      w.disk.HoldsTxs c.pindex.nFile nTxPos txs →
      I.connectAll (placeTxs env c.pindex.nFile c.pindex.nBlockPos nTxPos txs) = some J →
      J.Stored ∧ J.unspentTotal w.disk.value
        = I.unspentTotal w.disk.value + issued (c.tallies env w before nTxPos txs) := by
  induction txs with
  | nil =>
    intro before n I J _ hstored _ _ h
    cases h
    exact ⟨hstored, by simp [BlockContext.tallies, issued]⟩
  | cons tx rest ih =>
    intro before n I J hI hstored hn hdisk h
    obtain ⟨htx, hrest⟩ := hdisk
    obtain ⟨I1, h1, h2⟩ := connectAll_cons.mp h
    -- the table after this transaction, for the induction
    have hbefore : I₀.connectAll (before ++ [tx.place env ⟨c.pindex.nFile, c.pindex.nBlockPos, n⟩])
        = some I1 :=
      connectAll_append.mpr ⟨I, hI, connectAll_cons.mpr ⟨I1, h1, rfl⟩⟩
    have hplace : (tx.place env ⟨c.pindex.nFile, c.pindex.nBlockPos, n⟩).pos
        ≠ CDiskTxPos.memoryPool := by
      intro heq
      have : n = 1 := congrArg CDiskTxPos.nTxPos heq
      omega
    obtain ⟨hstoredJ, htotal⟩ := ih _ _ I1 J hbefore (stored_connect h1 hplace hstored)
      (le_trans hn (Nat.le_add_right n _)) hrest h2
    refine ⟨hstoredJ, ?_⟩
    have hins : ((tx.place env ⟨c.pindex.nFile, c.pindex.nBlockPos, n⟩).inputs.map
        (I.outputValue w.disk.value)).sum
        = (tx.spendingInputs.map (c.inputValue w before)).sum := by
      change ((tx.spendingInputs.map (·.prevout)).map _).sum = _
      rw [map_map]
      congr 1
      apply map_congr_left
      intro txin _
      exact (inputValue_eq_outputValue hs hI hstored txin).symm
    have houts : ∑ k ∈ Finset.range tx.vout.length,
        w.disk.value ⟨c.pindex.nFile, c.pindex.nBlockPos, n⟩ k = (tx.vout.map (·.nValue)).sum := by
      rw [← sum_range_getD_nValue]
      apply Finset.sum_congr rfl
      intro k _
      simp only [Disk.value]
      rw [htx]
    have hone : I1.unspentTotal w.disk.value = I.unspentTotal w.disk.value
        - (tx.spendingInputs.map (c.inputValue w before)).sum + (tx.vout.map (·.nValue)).sum := by
      rw [← hins, ← houts]
      exact unspentTotal_connect h1
    rw [htotal, BlockContext.tallies]
    simp only [issued, map_cons, sum_cons]
    omega

end Tallies

/-! ## Runs -/

def DbVal.unspentValue (value : CDiskTxPos → Nat → Int) : (k : DbKey) → DbVal k → Int
  | .tx _, t => CTxIndex.unspentValue value t
  | .blockIndex _, _ => 0
  | .hashBestChain, _ => 0
  | .bnBestInvalidTrust, _ => 0
  | .hashSyncCheckpoint, _ => 0

/-- The sum of `nValue` over all outputs that the transaction index marks unspent. -/
def CTxDB.unspentTotal (db : CTxDB) (d : Disk) : Int :=
  tableSum (DbVal.unspentValue d.value) db.view

theorem CTxDB.unspentTotal_eq {db : CTxDB} {I : TxTable} (hs : Shows db.readTxIndex I)
    (d : Disk) : db.unspentTotal d = I.unspentTotal d.value := by
  have hinj : Injective DbKey.tx := fun _ _ h => DbKey.tx.inj h
  refine tableSum_embed ⟨DbKey.tx, hinj⟩ ?_ ?_
  · intro h
    have hlook : Finmap.lookup (DbKey.tx h) db.view = Finmap.lookup h I := by
      rw [lookup_view]
      exact hs h
    unfold recordSum
    simp only [Embedding.coeFn_mk]
    rw [hlook]
    cases I.lookup h <;> rfl
  · intro k hk
    cases k with
    | tx h => exact absurd rfl (hk h)
    | _ =>
      unfold recordSum
      cases db.view.lookup _ <;> rfl

abbrev Connected := CBlockIndex × CBlock

def tipOf (genesis : CBlockIndex) : List Connected → CBlockIndex
  | [] => genesis
  | e :: _ => e.1

/-- Runs of successful `ConnectBlock` and `DisconnectBlock` calls on top of `genesis`, with the
blocks connected at the end, tip first. No connected block contains a transaction id that is in the
index. In between, what leaves the index and the amounts alone may happen. -/
inductive SupplyRun (env : Env) (d : Disk) (m : BlockMap) (genesis : CBlockIndex) :
    ChainState → List Connected → Prop
  | start {s : ChainState} : (∀ h, s.db.readTxIndex h = none) →
      s.nMoneySupply genesis.hashBlock = 0 → SupplyRun env d m genesis s []
  | connect {s s' : ChainState} {path : List Connected} (w : World)
      (mempool : Uint256 → Option CTransaction) (b : CBlock) (pindex : CBlockIndex) :
      SupplyRun env d m genesis s path → w.disk = d → m.Indexed pindex →
      pindex.pprev = some (tipOf genesis path).hashBlock → d.HoldsBlock b pindex →
      (∀ tx ∈ b.vtx, s.db.readTxIndex (env.txHash tx) = none) →
      s.connectBlock env w mempool b pindex = .ok s' →
      SupplyRun env d m genesis s' ((pindex, b) :: path)
  | disconnect {s s' : ChainState} {path : List Connected} (b : CBlock) (pindex : CBlockIndex) :
      SupplyRun env d m genesis s ((pindex, b) :: path) →
      s.disconnectBlock env b pindex = .ok s' → SupplyRun env d m genesis s' path
  | other {s s' : ChainState} {path : List Connected} : SupplyRun env d m genesis s path →
      s'.db.readTxIndex = s.db.readTxIndex → s'.nMoneySupply = s.nMoneySupply →
      SupplyRun env d m genesis s' path

/-- The table `I` results from the blocks of `path`, each of which has the supply that the table at
that point says. -/
def SupplyChain (env : Env) (d : Disk) (genesis : CBlockIndex) (supply : Uint256 → Int) :
    List Connected → TxTable → Prop
  | [], I => I = ∅ ∧ supply genesis.hashBlock = 0
  | e :: path, I => ∃ I', SupplyChain env d genesis supply path I' ∧
      I'.connectAll (e.2.place env e.1) = some I ∧ I.Stored ∧
      supply e.1.hashBlock = int64 (I.unspentTotal d.value)

def OnTree (m : BlockMap) (genesis : CBlockIndex) : List Connected → Prop
  | [] => True
  | e :: path => m.Indexed e.1 ∧ e.1.pprev = some (tipOf genesis path).hashBlock ∧
      OnTree m genesis path

section Run

variable {env : Env} {d : Disk} {m : BlockMap} {genesis : CBlockIndex}

variable {supply : Uint256 → Int} {path : List Connected} {I : TxTable} {s : ChainState}

theorem SupplyChain.canonical (path : List Connected) :
    ∀ {I}, SupplyChain env d genesis supply path I → I.Canonical := by
  induction path with
  | nil =>
    rintro I ⟨rfl, -⟩
    exact canonical_empty
  | cons e path ih =>
    rintro I ⟨_, hI', hconn, -⟩
    exact canonical_connectAll _ hconn (ih hI')

theorem SupplyChain.stored (h : SupplyChain env d genesis supply path I) : I.Stored := by
  cases path with
  | nil =>
    rw [h.1]
    intro k t ht
    cases ht
  | cons e path =>
    obtain ⟨-, -, -, hstored, -⟩ := h
    exact hstored

theorem SupplyChain.tip (h : SupplyChain env d genesis supply path I) :
    supply (tipOf genesis path).hashBlock = int64 (I.unspentTotal d.value) := by
  cases path with
  | nil =>
    obtain ⟨rfl, hzero⟩ := h
    change supply genesis.hashBlock = _
    rw [hzero, unspentTotal]
    rfl
  | cons e path =>
    obtain ⟨-, -, -, -, hsupply⟩ := h
    exact hsupply

theorem OnTree.height_lt (wf : m.WellFormed) (hg : m.Indexed genesis) {e : Connected}
    (h : OnTree m genesis (e :: path)) :
    genesis.nHeight < e.1.nHeight ∧ ∀ e' ∈ path, e'.1.nHeight < e.1.nHeight ∧ m.Indexed e'.1 := by
  induction path generalizing e with
  | nil =>
    obtain ⟨pb, hpb, _⟩ := wf.pprev_some h.1 h.2.1
    cases hpb.symm.trans hg
    exact ⟨by omega, by simp⟩
  | cons e1 path ih =>
    obtain ⟨hidx, hprev, htree⟩ := h
    obtain ⟨hlt, hall⟩ := ih htree
    obtain ⟨pb, hpb, _⟩ := wf.pprev_some hidx hprev
    cases hpb.symm.trans htree.1
    refine ⟨by omega, fun e' he' => ?_⟩
    rcases mem_cons.mp he' with rfl | he'
    · exact ⟨by omega, htree.1⟩
    · obtain ⟨_, hidx'⟩ := hall e' he'
      exact ⟨by omega, hidx'⟩

theorem OnTree.hash_ne (wf : m.WellFormed) (hg : m.Indexed genesis) {e : Connected}
    (h : OnTree m genesis (e :: path)) :
    e.1.hashBlock ≠ genesis.hashBlock ∧ ∀ e' ∈ path, e.1.hashBlock ≠ e'.1.hashBlock := by
  have hsame : ∀ b : CBlockIndex, m.Indexed b → b.nHeight < e.1.nHeight →
      e.1.hashBlock ≠ b.hashBlock := by
    intro b hb hlt heq
    have hidx := h.1
    rw [BlockMap.Indexed] at hb hidx
    rw [heq, hb] at hidx
    rw [Option.some.inj hidx] at hlt
    exact lt_irrefl _ hlt
  obtain ⟨hlt, hall⟩ := OnTree.height_lt wf hg h
  refine ⟨hsame genesis hg hlt, fun e' he' => ?_⟩
  obtain ⟨hlt', hidx'⟩ := hall e' he'
  exact hsame e'.1 hidx' hlt'

theorem SupplyChain.update {k : Uint256} {v : Int} (path : List Connected) :
    ∀ {I}, SupplyChain env d genesis supply path I → k ≠ genesis.hashBlock →
      (∀ e ∈ path, k ≠ e.1.hashBlock) →
      SupplyChain env d genesis (update supply k v) path I := by
  induction path with
  | nil =>
    rintro I ⟨rfl, hzero⟩ hg _
    exact ⟨rfl, by rw [update_of_ne (Ne.symm hg), hzero]⟩
  | cons e path ih =>
    rintro I ⟨I', hI', hconn, hstored, hsupply⟩ hg hpath
    refine ⟨I', ih hI' hg fun e' he' => hpath e' (mem_cons_of_mem e he'), hconn, hstored, ?_⟩
    rw [update_of_ne (Ne.symm (hpath e mem_cons_self)), hsupply]

theorem int64_int64_add (x y : Int) : int64 (int64 x + y) = int64 (x + y) := by
  exact Int.bmod_add_bmod

theorem SupplyChain.connect {s' : ChainState} {w : World} {mempool : Uint256 → Option CTransaction}
    {b : CBlock} {pindex : CBlockIndex} (hw : w.disk = d) (hs : Shows s.db.readTxIndex I)
    (hI : SupplyChain env d genesis s.nMoneySupply path I)
    (hprev : pindex.pprev = some (tipOf genesis path).hashBlock)
    (hne : pindex.hashBlock ≠ genesis.hashBlock ∧ ∀ e ∈ path, pindex.hashBlock ≠ e.1.hashBlock)
    (hdisk : d.HoldsBlock b pindex) (hfresh : ∀ tx ∈ b.vtx, s.db.readTxIndex (env.txHash tx) = none)
    (h : s.connectBlock env w mempool b pindex = .ok s') :
    ∃ J, Shows s'.db.readTxIndex J ∧
      SupplyChain env d genesis s'.nMoneySupply ((pindex, b) :: path) J := by
  obtain ⟨hfile, htxs⟩ := hdisk
  have hfresh' : ∀ tx ∈ b.vtx, tx.NewTo env I := fun tx htx =>
    .inl ((hs _).symm.trans (hfresh tx htx))
  obtain ⟨J, hJ, hsJ⟩ := connectBlock_connects h hfile hs hI.canonical hfresh'
  obtain ⟨-, hsupply⟩ := connectBlock_tallies h
  have hstart : 2 ≤ firstTxPos pindex.nBlockPos b := by
    have hheader : blockHeaderSize = 80 := rfl
    unfold firstTxPos
    omega
  obtain ⟨hstored, htotal⟩ := unspentTotal_connectAll
    (c := s.blockContext env w mempool pindex) hs b.vtx [] _ I J rfl hI.stored hstart
    (by rw [hw]; exact htxs) hJ
  rw [hw] at htotal
  refine ⟨J, hsJ, I, ?_, hJ, hstored, ?_⟩
  · rw [hsupply]
    exact hI.update path hne.1 hne.2
  rw [hsupply, update_self, ChainState.prevMoneySupply, hprev]
  simp only
  rw [hI.tip, int64_int64_add, htotal]
  rfl

/-- **Run lemma.** Along a run the index shows the table of the connected blocks, and each of
them has the right supply. -/
theorem SupplyRun.chain (wf : m.WellFormed) (hg : m.Indexed genesis)
    (h : SupplyRun env d m genesis s path) :
    OnTree m genesis path ∧ ∃ I, Shows s.db.readTxIndex I ∧
      SupplyChain env d genesis s.nMoneySupply path I := by
  induction h with
  | start hempty hzero =>
    refine ⟨trivial, ∅, ?_, rfl, hzero⟩
    intro k
    rw [hempty k]
    rfl
  | connect w mempool b pindex _ hw hidx hprev hdisk hfresh hconn ih =>
    obtain ⟨htree, I, hs, hI⟩ := ih
    have htree' : OnTree m genesis ((pindex, b) :: _) := ⟨hidx, hprev, htree⟩
    exact ⟨htree', hI.connect hw hs hprev (OnTree.hash_ne wf hg htree') hdisk hfresh hconn⟩
  | disconnect b pindex _ hdisc ih =>
    obtain ⟨⟨-, -, htree⟩, I, hs, I', hI', hconn, -⟩ := ih
    obtain ⟨-, -, hsupply⟩ := disconnectBlock_frame hdisc
    have hs' := disconnectBlock_undoes hdisc hs
    rw [undoAll_connectAll _ hconn] at hs'
    exact ⟨htree, I', hs', hsupply.symm ▸ hI'⟩
  | other _ hread hsupply ih =>
    obtain ⟨htree, I, hs, hI⟩ := ih
    exact ⟨htree, I, hread.symm ▸ hs, hsupply.symm ▸ hI⟩

/-- **Money supply.** After every run the supply recorded in the tip is the total value of the
outputs that the index marks unspent. -/
theorem nMoneySupply_eq_unspentTotal (wf : m.WellFormed) (hg : m.Indexed genesis)
    {s : ChainState} {path : List Connected} (h : SupplyRun env d m genesis s path) :
    s.nMoneySupply (tipOf genesis path).hashBlock = int64 (s.db.unspentTotal d) ∧
      (-2 ^ 63 ≤ s.db.unspentTotal d ∧ s.db.unspentTotal d < 2 ^ 63 →
        s.nMoneySupply (tipOf genesis path).hashBlock = s.db.unspentTotal d) := by
  obtain ⟨-, I, hs, hI⟩ := h.chain wf hg
  have htip := hI.tip
  rw [← CTxDB.unspentTotal_eq hs d] at htip
  refine ⟨htip, ?_⟩
  rintro ⟨_, _⟩
  rw [htip]
  exact Int.bmod_eq_of_le (by omega) (by omega)

end Run

/-! ## A short run

Stand-ins for the hash functions take a transaction's id from its lock time and a block's hash
from its nonce, so that small blocks can be written down. -/

def sampleEnv : Env where
  txHash := fun tx => tx.nLockTime
  scryptBlockhash := fun h => h.nNonce
  hashPair := fun a b => a + b
  hashKernel := fun _ _ _ _ _ _ => 0
  fTestNet := false
  sigOpCount := fun _ => 0
  isPayToScriptHash := fun _ => false
  p2shSigOpCount := fun _ _ => 0
  verifyScript := fun _ _ _ _ _ => true
  checkBlockSignature := fun _ _ => true
  isStandardTx := fun _ _ _ => true
  areInputsStandard := fun _ _ => true
  hashGenesisBlock := 1
  hashSelection := fun hash _ => hash
  hashChecksum := fun _ _ _ _ => 0x0e00670b * 2 ^ 224
  hash160 := fun _ => 0
  checkpointsMode := .strict
  nScriptCheckThreads := 0
  nCheckpointDepth := 0
  fDynCheckpoint := true

def sampleTime : Nat := 1400000000

def sampleCoinbase (id : Uint256) (nValue : Int) : CTransaction where
  nVersion := 1
  nTime := sampleTime
  vin := [⟨COutPoint.null, [1, 1], uint32Max⟩]
  vout := [⟨nValue, [0x51]⟩]
  nLockTime := id

def sampleBlock (hash hashPrev : Uint256) (vtx : List CTransaction) : CBlock where
  nVersion := 4
  hashPrevBlock := hashPrev
  hashMerkleRoot := (merkleLevels sampleEnv.toCrypto vtx.length (vtx.map (·.nLockTime))).getLastD 0
  nTime := sampleTime
  nBits := 0x1e0fffff
  nNonce := hash
  vtx := vtx
  vchBlockSig := []

def sampleIndex (hash : Uint256) (pprev : Option Uint256) (nHeight nChainTrust : Nat) :
    CBlockIndex :=
  { lineEntry false hash with
    pprev, nBlockPos := 1000 * hash, nChainTrust, nHeight, hashMerkleRoot := 0
    nTime := sampleTime, nBits := 0x1e0fffff, nNonce := hash }

def sampleDisk (blocks : List CBlock) : Disk where
  block := fun nFile pos =>
    if nFile = 1 then blocks.find? (fun b => 1000 * b.nNonce == pos) else none
  tx := fun nFile pos =>
    if nFile = 1 then
      ((blocks.flatMap fun b =>
        (txPositions (firstTxPos (1000 * b.nNonce) b) b.vtx).zip b.vtx).find?
        (fun e => e.1 == pos)).map Prod.snd
    else none

def sampleWorld (blocks : List CBlock) : World where
  disk := sampleDisk blocks
  readOk := fun _ => true
  blockReadOk := fun _ => true
  txnBeginOk := fun _ => true
  txnCommitOk := fun _ => true
  nAdjustedTime := sampleTime
  nBlocksOfPeers := 0
  fDiskSpace := true
  writeToDisk := none

def sampleTree (entries : List CBlockIndex) : BlockMap :=
  fun h => entries.find? (fun b => b.hashBlock == h)

theorem mem_of_sampleTree {entries : List CBlockIndex} {h : Uint256} {b : CBlockIndex}
    (hb : sampleTree entries h = some b) : h ∈ entries.map CBlockIndex.hashBlock := by
  have hhash := find?_some hb
  rw [← beq_iff_eq.mp hhash]
  exact mem_map_of_mem (mem_of_find?_eq_some hb)

def sampleState (entries : List CBlockIndex) : ChainState :=
  let best := entries.headD default
  { ChainState.initial with
    mapBlockIndex := sampleTree entries
    pindexGenesisBlock := some best.hashBlock
    pindexBest := some best.hashBlock
    hashBestChain := best.hashBlock
    nBestHeight := 0
    nBestChainTrust := best.nChainTrust
    hashSyncCheckpoint := 1
    db := ⟨(∅ : Table DbVal).insert .hashBestChain best.hashBlock, some []⟩ }

def supplyBlock : CBlock := sampleBlock 2 1 [sampleCoinbase 100 (5 * coin)]

def supplyTree : List CBlockIndex := [sampleIndex 1 none 0 1, sampleIndex 2 (some 1) 1 2]

/-! Blocks 2 to 8 follow the genesis block, and block 9 spends the coinbase of block 2. -/

def minedBlock (hash hashPrev : Uint256) (nHeight : Nat) : CBlock :=
  let nTime := sampleTime + 60 * nHeight
  { sampleBlock hash hashPrev [{ sampleCoinbase hash coin with
      nTime, vin := [⟨COutPoint.null, scriptOfHeight nHeight ++ [0], uint32Max⟩] }] with
    hashMerkleRoot := hash, nTime }

def chainBlock (hash : Uint256) : CBlock := minedBlock hash (hash - 1) (hash - 1)

def chainEntry (hash : Uint256) : CBlockIndex :=
  { sampleIndex hash (if hash = 1 then none else some (hash - 1)) (hash - 1) hash with
    nTime := sampleTime + 60 * (hash - 1)
    hashMerkleRoot := hash
    nFlags := if hash = 1 then 4 else 0 }

def spendCoinbase (id hash : Uint256) : CTransaction where
  nVersion := 1
  nTime := sampleTime + 60 * 7
  vin := [⟨⟨hash, 0⟩, [], uint32Max⟩]
  vout := [⟨coin - cent, [0x51]⟩]
  nLockTime := id

def blockNine (tx : CTransaction) : CBlock :=
  { chainBlock 9 with
    vtx := (chainBlock 9).vtx ++ [tx]
    hashMerkleRoot := 9 + tx.nLockTime }

def nineWorld (tx : CTransaction) : World :=
  { sampleWorld ([1, 2, 3, 4, 5, 6, 7, 8].map chainBlock ++ [blockNine tx]) with
    nAdjustedTime := sampleTime + 600
    writeToDisk := some (1, 9000) }

def chainTree : List CBlockIndex := [1, 2, 3, 4, 5, 6, 7, 8, 9].map chainEntry

def supplyPath : List Connected := [8, 7, 6, 5, 4, 3, 2].map fun k => (chainEntry k, chainBlock k)

def connectPath (env : Env) (w : World) (s : ChainState) : List Connected → Option ChainState
  | [] => some s
  | e :: path => (connectPath env w s path).bind fun s =>
    if ∀ tx ∈ e.2.vtx, s.db.readTxIndex (env.txHash tx) = none then
      (s.connectBlock env w (fun _ => none) e.2 e.1).toOption
    else none

theorem SupplyRun.of_path {env : Env} {w : World} {m : BlockMap} {genesis : CBlockIndex}
    {s s' : ChainState} {path : List Connected} (hstart : SupplyRun env w.disk m genesis s [])
    (htree : OnTree m genesis path) (hdisk : ∀ e ∈ path, w.disk.HoldsBlock e.2 e.1)
    (h : connectPath env w s path = some s') : SupplyRun env w.disk m genesis s' path := by
  induction path generalizing s' with
  | nil =>
    cases h
    exact hstart
  | cons e path ih =>
    obtain ⟨s₁, h₁, h⟩ := Option.bind_eq_some_iff.mp h
    obtain ⟨hidx, hprev, htree⟩ := htree
    rw [forall_mem_cons] at hdisk
    split at h
    next hfresh =>
      cases hconn : s₁.connectBlock env w (fun _ => none) e.2 e.1 with
      | error => rw [hconn] at h; cases h
      | ok s₂ =>
        rw [hconn] at h
        cases h
        exact .connect w _ e.2 e.1 (ih htree hdisk.2 h₁) rfl hidx hprev hdisk.1 hfresh hconn
    next => cases h

theorem nMoneySupply_eq_unspentTotal_nine :
    let w := nineWorld (spendCoinbase 100 2)
    let Run := SupplyRun sampleEnv w.disk (sampleTree chainTree) (chainEntry 1)
    ∃ s s', Run s ((chainEntry 9, blockNine (spendCoinbase 100 2)) :: supplyPath) ∧
      s.nMoneySupply 9 = 8 * coin - cent ∧ s.nMoneySupply 9 = int64 (s.db.unspentTotal w.disk) ∧
      Run s' supplyPath ∧ s'.nMoneySupply 8 = 7 * coin ∧
      s'.nMoneySupply 8 = int64 (s'.db.unspentTotal w.disk) := by
  intro w Run
  have wf : (sampleTree chainTree).WellFormed :=
    BlockMap.wellFormed_of_hashes _ mem_of_sampleTree (by decide +kernel)
  have hstored : ∀ k ∈ [8, 7, 6, 5, 4, 3, 2], w.disk.tx 1 (firstTxPos (1000 * k) (chainBlock k))
      = (chainBlock k).vtx.head? := by decide +kernel
  have hmade : (connectPath sampleEnv w (sampleState chainTree)
      ((chainEntry 9, blockNine (spendCoinbase 100 2)) :: supplyPath)).map (fun s =>
        (s.nMoneySupply 9, (s.disconnectBlock sampleEnv (blockNine (spendCoinbase 100 2))
          (chainEntry 9)).map (·.nMoneySupply 8)))
      = some (8 * coin - cent, .ok (7 * coin)) := by decide +kernel
  obtain ⟨s, hpath, hsupply⟩ := Option.map_eq_some_iff.mp hmade
  obtain ⟨hsupply, hdisc⟩ := Prod.mk.inj hsupply
  obtain ⟨s', hdisc, hsupply'⟩ := map_eq_ok.mp hdisc
  have hrun : Run s ((chainEntry 9, blockNine (spendCoinbase 100 2)) :: supplyPath) := by
    refine .of_path (.start (fun _ => rfl) rfl) ?_ ?_ hpath
    · exact ⟨rfl, rfl, rfl, rfl, rfl, rfl, rfl, rfl, rfl, rfl, rfl, rfl, rfl, rfl, rfl, rfl,
        trivial⟩
    · rw [forall_mem_cons, supplyPath, forall_mem_map]
      exact ⟨⟨rfl, by decide +kernel, by decide +kernel, trivial⟩,
        fun k hk => ⟨rfl, hstored k hk, trivial⟩⟩
  have hrun' : Run s' supplyPath := hrun.disconnect _ _ hdisc
  have hgenesis : (sampleTree chainTree).Indexed (chainEntry 1) := rfl
  exact ⟨s, s', hrun, hsupply, (nMoneySupply_eq_unspentTotal wf hgenesis hrun).1, hrun', hsupply',
    (nMoneySupply_eq_unspentTotal wf hgenesis hrun').1⟩

end HoboNickels

import HoboNickels.Accept
import HoboNickels.MoneySupply

/-!
# Loading the block index

`CTxDB::LoadBlockIndex` and `Checkpoints::VerifyHardenedInChain`, which `AppInit2` calls after it
when a snapshot has been applied. The database may come from a peer, so nothing is assumed of its
records. Inputs are the outcome of the checks of the transaction index above level 1, and whether
`SetBestChain` succeeds when the best block is moved back.

`VerifyHardenedInChain` looks for the hardened checkpoints in the whole index, so a database that
holds them on a side branch passes (`side_branch_verified`). A passed check pins the best chain for
databases without side branches at checkpoint heights (`verifyHardenedInChain_pins_iff`).
-/

namespace HoboNickels

structure BlockRecord where
  hashNext : Uint256
  nFile : Nat
  nBlockPos : Nat
  nHeight : Int
  nMint : Int
  nMoneySupply : Int
  nFlags : Nat
  nStakeModifier : Nat
  prevoutStake : COutPoint
  nStakeTime : Nat
  hashProofOfStake : Uint256
  nVersion : Int
  hashPrev : Uint256
  hashMerkleRoot : Uint256
  nTime : Nat
  nBits : Nat
  nNonce : Nat
  blockHash : Uint256
  deriving DecidableEq, Repr

namespace BlockRecord

def null : BlockRecord where
  hashNext := 0
  nFile := 0
  nBlockPos := 0
  nHeight := 0
  nMint := 0
  nMoneySupply := 0
  nFlags := 0
  nStakeModifier := 0
  prevoutStake := COutPoint.null
  nStakeTime := 0
  hashProofOfStake := 0
  nVersion := 0
  hashPrev := 0
  hashMerkleRoot := 0
  nTime := 0
  nBits := 0
  nNonce := 0
  blockHash := 0

def isProofOfStake (r : BlockRecord) : Bool := r.nFlags.testBit 0

/-- The fields of a proof-of-stake are stored for such blocks only. -/
def unserialize (r : BlockRecord) : BlockRecord :=
  if r.isProofOfStake then r
  else { r with prevoutStake := COutPoint.null, nStakeTime := 0, hashProofOfStake := 0 }

def header (r : BlockRecord) : CBlockHeader where
  nVersion := r.nVersion
  hashPrevBlock := r.hashPrev
  hashMerkleRoot := r.hashMerkleRoot
  nTime := r.nTime
  nBits := r.nBits
  nNonce := r.nNonce

/-- `CDiskBlockIndex::GetBlockHash`. With `-fastindex` the hash of a record older than a day is
not computed again. -/
def getBlockHash (r : BlockRecord) (c : Crypto) (fUseFastIndex : Bool) (nAdjustedTime : Int) :
    Uint256 :=
  if fUseFastIndex && decide ((r.nTime : Int) < nAdjustedTime - 24 * 60 * 60) && r.blockHash != 0
  then r.blockHash
  else c.scryptBlockhash r.header

end BlockRecord

/-- What `LoadBlockIndex` reads of the database; a record that cannot be deserialized is
`none`. -/
structure BlockDb where
  records : List (Option BlockRecord)
  hashBestChain : Option Uint256
  hashSyncCheckpoint : Option Uint256

structure LoadedIndex where
  pprev : Option Uint256
  pnext : Option Uint256
  record : BlockRecord
  nChainTrust : Nat
  nStakeModifierChecksum : Nat
  deriving DecidableEq, Repr

namespace LoadedIndex

def null : LoadedIndex := ⟨none, none, .null, 0, 0⟩

def nHeight (p : LoadedIndex) : Int := p.record.nHeight

def toCBlockIndex (p : LoadedIndex) (hashBlock : Uint256) : CBlockIndex where
  hashBlock := hashBlock
  pprev := p.pprev
  nFile := p.record.nFile
  nBlockPos := p.record.nBlockPos
  nChainTrust := p.nChainTrust
  nHeight := p.record.nHeight.toNat
  nFlags := p.record.nFlags
  nStakeModifier := p.record.nStakeModifier
  nStakeModifierChecksum := p.nStakeModifierChecksum
  prevoutStake := p.record.prevoutStake
  nStakeTime := p.record.nStakeTime
  hashProofOfStake := p.record.hashProofOfStake
  nVersion := p.record.nVersion
  hashMerkleRoot := p.record.hashMerkleRoot
  nTime := p.record.nTime
  nBits := p.record.nBits
  nNonce := p.record.nNonce

end LoadedIndex

abbrev LoadMap := AList (fun _ : Uint256 => LoadedIndex)

/-- `InsertBlockIndex`: the entry of a hash, made when it is missing; zero stands for no
block. -/
def insertBlockIndex (m : LoadMap) (hash : Uint256) : LoadMap × Option Uint256 :=
  if hash = 0 then (m, none)
  else if (m.lookup hash).isSome then (m, some hash)
  else (m.insert hash .null, some hash)

/-! ## The first loop -/

structure LoadInput where
  world : World
  fUseFastIndex : Bool
  /-- The address of an entry, by which `sort` orders blocks of one height. -/
  address : Uint256 → Nat
  /-- How many records, and how many blocks of the best chain, are read before a shutdown is
  requested. -/
  nShutdownLoading : Option Nat
  nShutdownVerifying : Option Nat
  nCheckLevel : Int
  nCheckBlocks : Int
  deepCheckOk : Uint256 → Bool
  setBestOk : Bool

structure LoadState where
  mapBlockIndex : LoadMap
  pindexGenesisBlock : Option Uint256
  setStakeSeen : List (COutPoint × Nat)

def LoadState.initial : LoadState := ⟨∅, none, []⟩

/-- One round; `none` when the null pointer of hash zero is followed. -/
def loadRecord (env : Env) (i : LoadInput) (st : LoadState) (stored : BlockRecord) :
    Option LoadState :=
  let r := stored.unserialize
  let blockHash := r.getBlockHash env.toCrypto i.fUseFastIndex i.world.nAdjustedTime
  let pindexNew := insertBlockIndex st.mapBlockIndex blockHash
  if pindexNew.2 = none then none
  else
    let pprev := insertBlockIndex pindexNew.1 r.hashPrev
    let pnext := insertBlockIndex pprev.1 r.hashNext
    some {
      mapBlockIndex := pnext.1.insert blockHash ⟨pprev.2, pnext.2, r, 0, 0⟩
      pindexGenesisBlock := if st.pindexGenesisBlock = none ∧ blockHash = env.hashGenesisBlock
        then some blockHash else st.pindexGenesisBlock
      setStakeSeen := if r.isProofOfStake then (r.prevoutStake, r.nStakeTime) :: st.setStakeSeen
        else st.setStakeSeen }

/-- The loop over the records, with the flag of a requested shutdown. -/
def loadRecords (env : Env) (i : LoadInput) :
    Option Nat → List (Option BlockRecord) → LoadState → Option (LoadState × Bool)
  | some 0, _, st => some (st, true)
  | _, [], st => some (st, false)
  | _, none :: _, _ => none
  | n, some r :: rest, st =>
    match loadRecord env i st r with
    | none => none
    | some st' => loadRecords env i (n.map (· - 1)) rest st'

def LoadMap.nHeight (m : LoadMap) (h : Uint256) : Int := ((m.lookup h).map (·.nHeight)).getD 0

def sortedByHeight (i : LoadInput) (m : LoadMap) : List Uint256 :=
  m.keys.insertionSort (fun a b => LoadMap.nHeight m a < LoadMap.nHeight m b ∨
    LoadMap.nHeight m a = LoadMap.nHeight m b ∧ i.address a ≤ i.address b)

/-- `CheckStakeModifierCheckpoints` at a height that may be negative. -/
def checkLoadedModifier (fTestNet : Bool) (nHeight : Int) (nChecksum : Nat) : Bool :=
  decide (nHeight < 0) || checkStakeModifierCheckpoints fTestNet nHeight.toNat nChecksum

/-- The trust and the checksum of one entry; `none` when an assertion or the check of the
checksum fails. -/
def addTrust (env : Env) (m : LoadMap) (h : Uint256) : Option LoadMap :=
  match m.lookup h with
  | none => none
  | some p =>
    let pprev := p.pprev.bind (fun q => m.lookup q)
    if pprev.isNone && h != env.hashGenesisBlock then none
    else
      let nTrust := (pprev.map (·.nChainTrust)).getD 0
        + getBlockTrust env.fTestNet p.record.isProofOfStake p.record.nBits
      let nChecksum := getStakeModifierChecksum env (pprev.map (·.nStakeModifierChecksum))
        p.record.nFlags p.record.hashProofOfStake p.record.nStakeModifier
      if checkLoadedModifier env.fTestNet p.nHeight nChecksum then
        some (m.insert h { p with
          nChainTrust := nTrust % 2 ^ 256, nStakeModifierChecksum := nChecksum })
      else none

/-! ## The best chain -/

structure LoadedChain where
  mapBlockIndex : LoadMap
  pindexGenesisBlock : Option Uint256
  pindexBest : Option Uint256
  hashBestChain : Uint256
  nBestHeight : Int
  nBestChainTrust : Nat
  hashSyncCheckpoint : Uint256
  setStakeSeen : List (COutPoint × Nat)

def LoadState.withoutBest (st : LoadState) : LoadedChain where
  mapBlockIndex := st.mapBlockIndex
  pindexGenesisBlock := st.pindexGenesisBlock
  pindexBest := none
  hashBestChain := 0
  nBestHeight := -1
  nBestChainTrust := 0
  hashSyncCheckpoint := 0
  setStakeSeen := st.setStakeSeen

/-- Whether a block of the best chain passes; `none` when `CheckBlock` throws. -/
def blockPasses (env : Env) (i : LoadInput) (h : Uint256) (block : CBlock) : Option Bool :=
  if i.nCheckLevel > 0 then
    match block.checkBlock env i.world.nAdjustedTime true true (decide (i.nCheckLevel > 6)) with
    | .error (.throw _) => none
    | .error (.reject _ _) => some false
    | .ok () => some (!decide (i.nCheckLevel > 1) || i.deepCheckOk h)
  else some true

/-- The verification of the last blocks, from block `h` down: the parent of the last bad block, and
whether a shutdown was requested. `none` when a block cannot be read, on an exception, and when the
links run in a circle. -/
def verifyBlocks (env : Env) (i : LoadInput) (m : LoadMap) (nFloor : Int) :
    Nat → Option Nat → Option Uint256 → Uint256 → Option (Option Uint256 × Bool)
  | 0, _, _, _ => none
  | fuel + 1, nShutdown, pindexFork, h =>
    match m.lookup h with
    | none => none
    | some p =>
      match p.pprev with
      | none => some (pindexFork, nShutdown == some 0)
      | some pprev =>
        if nShutdown = some 0 then some (pindexFork, true)
        else if p.nHeight < nFloor then some (pindexFork, false)
        else
          match (i.world.readBlock env (p.toCBlockIndex h)).bind (blockPasses env i h) with
          | none => none
          | some fPass =>
            verifyBlocks env i m nFloor fuel (nShutdown.map (· - 1))
              (if fPass then pindexFork else some pprev) pprev

def verifyFloor (nCheckBlocks nBestHeight : Int) : Int :=
  let nCheckDepth := if nCheckBlocks = 0 then 1000000000 else nCheckBlocks
  nBestHeight - min nCheckDepth nBestHeight

namespace LoadedChain

def setBest (L : LoadedChain) (h : Uint256) (p : LoadedIndex) : LoadedChain :=
  { L with
    pindexBest := some h
    hashBestChain := h
    nBestHeight := p.nHeight
    nBestChainTrust := p.nChainTrust }

def moveBack (env : Env) (i : LoadInput) (L : LoadedChain) (pindexFork : Uint256) :
    Option LoadedChain :=
  match L.mapBlockIndex.lookup pindexFork with
  | none => none
  | some p =>
    match i.world.readBlock env (p.toCBlockIndex pindexFork) with
    | none => none
    | some _ => if i.setBestOk then some (L.setBest pindexFork p) else some L

end LoadedChain

/-- The part of `LoadBlockIndex` after the index: `none` when it fails. -/
def loadBest (env : Env) (i : LoadInput) (db : BlockDb) (st : LoadState) : Option LoadedChain :=
  match db.hashBestChain with
  | none => if st.pindexGenesisBlock = none then some st.withoutBest else none
  | some hashBestChain =>
    match st.mapBlockIndex.lookup hashBestChain, db.hashSyncCheckpoint with
    | some pindexBest, some hashSyncCheckpoint =>
      let L := { st.withoutBest.setBest hashBestChain pindexBest with
        hashSyncCheckpoint := hashSyncCheckpoint }
      match verifyBlocks env i st.mapBlockIndex (verifyFloor i.nCheckBlocks L.nBestHeight)
          (st.mapBlockIndex.keys.length + i.nShutdownVerifying.getD 0 + 1) i.nShutdownVerifying none
          hashBestChain with
      | none => none
      | some (some pindexFork, false) => L.moveBack env i pindexFork
      | some _ => some L
    | _, _ => none

/-- `CTxDB::LoadBlockIndex`: the globals when it returns true. -/
def loadBlockIndex (env : Env) (i : LoadInput) (db : BlockDb) : Option LoadedChain :=
  match loadRecords env i i.nShutdownLoading db.records .initial with
  | none => none
  | some (st, true) => some st.withoutBest
  | some (st, false) =>
    match (sortedByHeight i st.mapBlockIndex).foldlM (addTrust env) st.mapBlockIndex with
    | none => none
    | some m => loadBest env i db { st with mapBlockIndex := m }

def hardenedCheckpoints (env : Env) : List (Nat × Uint256) :=
  (0, env.hashGenesisBlock) :: if env.fTestNet then [] else mapCheckpoints

/-- `VerifyHardenedInChain` on a table of checkpoints: how many were found, or the error. -/
def verifyHardenedInChain (m : LoadMap) (nBestHeight : Int) :
    Nat → List (Nat × Uint256) → Except String Nat
  | nChecked, [] => .ok nChecked
  | nChecked, i :: rest =>
    if i.1 = 0 ∨ (i.1 : Int) > nBestHeight then verifyHardenedInChain m nBestHeight nChecked rest
    else if (m.lookup i.2).map (·.nHeight) = some (i.1 : Int) then
      verifyHardenedInChain m nBestHeight (nChecked + 1) rest
    else .error ("missing/mismatched hardcoded checkpoint at height " ++ toString i.1)

theorem verifyHardenedInChain_ok {m : LoadMap} {nBestHeight : Int} :
    ∀ (checkpoints : List (Nat × Uint256)) (nChecked : Nat),
      (verifyHardenedInChain m nBestHeight nChecked checkpoints).isOk = true ↔
        ∀ i ∈ checkpoints, 0 < i.1 → (i.1 : Int) ≤ nBestHeight →
          (m.lookup i.2).map (·.nHeight) = some (i.1 : Int) := by
  intro checkpoints
  induction checkpoints with
  | nil => simp [verifyHardenedInChain, Except.isOk, Except.toBool]
  | cons i rest ih =>
    intro nChecked
    rw [verifyHardenedInChain, List.forall_mem_cons]
    split
    next hskip =>
      rw [ih]
      constructor
      · intro hrest
        refine ⟨fun hpos hle => ?_, hrest⟩
        omega
      · exact fun h => h.2
    next hchecked =>
      split
      next hfound =>
        rw [ih]
        exact ⟨fun hrest => ⟨fun _ _ => hfound, hrest⟩, fun h => h.2⟩
      rename_i hmissing
      constructor
      · intro h
        cases h
      · intro h
        exact absurd (h.1 (by omega) (by omega)) hmissing

/-! ## What a passed check says about the best chain -/

namespace LoadedChain

variable (L : LoadedChain)

def heightOf (h : Uint256) : Option Int := (L.mapBlockIndex.lookup h).map (·.nHeight)

def prevOf (h : Uint256) : Option Uint256 := (L.mapBlockIndex.lookup h).bind (·.pprev)

def IsAncestor (a : Uint256) : Prop :=
  ∃ best, L.pindexBest = some best ∧ Relation.ReflTransGen (fun x y => L.prevOf x = some y) best a

def AncestorAt (nHeight : Nat) (hash : Uint256) : Prop :=
  ∀ a, (L.IsAncestor a ∧ L.heightOf a = some (nHeight : Int)) ↔ a = hash

/-- A passed check means that the ancestors of the best block at the heights of the checkpoints
are the checkpoints. -/
def Pins (checkpoints : List (Nat × Uint256)) : Prop :=
  (verifyHardenedInChain L.mapBlockIndex L.nBestHeight 0 checkpoints).isOk = true →
    ∀ i ∈ checkpoints, 0 < i.1 → (i.1 : Int) ≤ L.nBestHeight → L.AncestorAt i.1 i.2

def Checked (heights : List Nat) (nHeight : Nat) : Prop :=
  nHeight ∈ heights ∧ 0 < nHeight ∧ (nHeight : Int) ≤ L.nBestHeight

/-- At a checked height there is one block, and it belongs to the best chain. -/
def Unforked (heights : List Nat) : Prop :=
  ∀ nHeight, L.Checked heights nHeight → ∀ a b, L.heightOf a = some (nHeight : Int) →
    L.heightOf b = some (nHeight : Int) → L.IsAncestor a ∧ a = b

def Gap (heights : List Nat) : Prop :=
  ∃ nHeight, L.Checked heights nHeight ∧ ∀ a, L.heightOf a ≠ some (nHeight : Int)

variable {L} {heights : List Nat} {checkpoints : List (Nat × Uint256)}

theorem pins_of_unforked (h : L.Unforked (checkpoints.map Prod.fst)) : L.Pins checkpoints := by
  intro hverified i hi hpos hle
  have hheight := (verifyHardenedInChain_ok checkpoints 0).mp hverified i hi hpos hle
  have hchecked : L.Checked (checkpoints.map Prod.fst) i.1 := ⟨List.mem_map_of_mem hi, hpos, hle⟩
  intro a
  constructor
  · rintro ⟨-, ha⟩
    exact (h i.1 hchecked a i.2 ha hheight).2
  · rintro rfl
    exact ⟨(h i.1 hchecked i.2 i.2 hheight hheight).1, hheight⟩

theorem pins_of_gap (h : L.Gap (checkpoints.map Prod.fst)) : L.Pins checkpoints := by
  intro hverified
  obtain ⟨_, ⟨hin, hpos, hle⟩, hnone⟩ := h
  obtain ⟨i, hi, rfl⟩ := List.mem_map.mp hin
  exact absurd ((verifyHardenedInChain_ok checkpoints 0).mp hverified i hi hpos hle) (hnone i.2)

/-- Where every table of hashes pins the best chain, a block at a checked height is the only one:
take a table that names it. -/
theorem unforked_of_pins (hgap : ¬ L.Gap heights)
    (hpins : ∀ hash : Nat → Uint256, L.Pins (heights.map (fun h => (h, hash h)))) :
    L.Unforked heights := by
  have hthere : ∀ nHeight, ∃ a, L.Checked heights nHeight →
      L.heightOf a = some (nHeight : Int) := by
    intro nHeight
    by_cases hchecked : L.Checked heights nHeight
    · by_contra hnone
      refine hgap ⟨nHeight, hchecked, fun a ha => hnone ⟨a, fun _ => ha⟩⟩
    · exact ⟨0, fun h => absurd h hchecked⟩
  choose other hother using hthere
  have hnamed : ∀ nHeight a, L.Checked heights nHeight → L.heightOf a = some (nHeight : Int) →
      L.AncestorAt nHeight a := by
    intro nHeight a hchecked ha
    have hancestor := hpins (Function.update other nHeight a) ?_ (nHeight, a)
      (List.mem_map.mpr ⟨nHeight, hchecked.1, by simp⟩) hchecked.2.1 hchecked.2.2
    · exact hancestor
    rw [verifyHardenedInChain_ok]
    intro i hi hpos hle
    obtain ⟨h, hh, rfl⟩ := List.mem_map.mp hi
    by_cases heq : h = nHeight
    · subst heq
      rw [Function.update_self]
      exact ha
    · rw [Function.update_of_ne heq]
      exact hother h ⟨hh, hpos, hle⟩
  intro nHeight hchecked a b ha hb
  have hself := (hnamed nHeight a hchecked ha a).mpr rfl
  exact ⟨hself.1, (hnamed nHeight b hchecked hb a).mp hself⟩

end LoadedChain

def checkpointHeights (env : Env) : List Nat := (hardenedCheckpoints env).map Prod.fst

/-- **Which databases a passed check pins.** For every choice of the checkpoints' hashes a passed
`VerifyHardenedInChain` means that the ancestors of the best block at their heights are the
checkpoints, if and only if at some height that is checked there is no block, or at every such
height exactly one, of the best chain. -/
theorem verifyHardenedInChain_pins_iff {env : Env} {i : LoadInput} {db : BlockDb} {L : LoadedChain}
    (_hload : loadBlockIndex env i db = some L) :
    ((∀ hash : Nat → Uint256, L.Pins ((checkpointHeights env).map (fun h => (h, hash h)))) ↔
        L.Gap (checkpointHeights env) ∨ L.Unforked (checkpointHeights env)) ∧
      (L.Gap (checkpointHeights env) ∨ L.Unforked (checkpointHeights env) →
        L.Pins (hardenedCheckpoints env)) := by
  constructor
  · constructor
    · intro hpins
      by_cases hgap : L.Gap (checkpointHeights env)
      · exact .inl hgap
      · exact .inr (LoadedChain.unforked_of_pins hgap hpins)
    · intro h hash
      have hheights : ((checkpointHeights env).map (fun h => (h, hash h))).map Prod.fst
          = checkpointHeights env := by
        rw [List.map_map]
        exact List.map_id _
      rw [← hheights] at h
      rcases h with hgap | hunforked
      · exact LoadedChain.pins_of_gap hgap
      · exact LoadedChain.pins_of_unforked hunforked
  · rintro (hgap | hunforked)
    · exact LoadedChain.pins_of_gap hgap
    · exact LoadedChain.pins_of_unforked hunforked

/-! ## A checkpoint on a side branch -/

def sampleRecord (blockHash hashPrev : Uint256) (nHeight : Int) : BlockRecord :=
  { BlockRecord.null with
    nFile := 1
    nBlockPos := 1000 * blockHash
    nHeight := nHeight
    hashPrev := hashPrev
    nTime := sampleTime
    nBits := 0x1e0fffff
    nNonce := blockHash
    blockHash := blockHash }

def sampleLoad (blocks : List CBlock) : LoadInput where
  world := { sampleWorld blocks with nAdjustedTime := sampleTime + 2 * 24 * 60 * 60 }
  fUseFastIndex := true
  address := fun h => h
  nShutdownLoading := none
  nShutdownVerifying := none
  nCheckLevel := 1
  nCheckBlocks := 250
  deepCheckOk := fun _ => true
  setBestOk := true

def firstCheckpoint : Uint256 := 0x00000002751f54b06ffac8da64d221babf48e9d82365c08c20e82585d674e6b6

def checkpointDb (more : List BlockRecord) (hashBestChain : Uint256) : BlockDb where
  records := ([sampleRecord 1 0 0, sampleRecord firstCheckpoint 1 50000] ++ more).map some
  hashBestChain := some hashBestChain
  hashSyncCheckpoint := some 1

def forgedBlock : CBlock := sampleBlock 7 1 [sampleCoinbase 100 (5 * coin)]

/-- The checkpoint and the forged block are two branches, and the forged one is the best. -/
def forgedDb : BlockDb := checkpointDb [sampleRecord 7 1 50000] 7

/-- The check passes, and the ancestor of the best block at the first checkpoint's height is not the
checkpoint. -/
theorem side_branch_verified :
    ∃ L, loadBlockIndex sampleEnv (sampleLoad [forgedBlock]) forgedDb = some L ∧
      verifyHardenedInChain L.mapBlockIndex L.nBestHeight 0 (hardenedCheckpoints sampleEnv)
        = .ok 1 ∧
      ¬ L.Pins (hardenedCheckpoints sampleEnv) := by
  have hloads : (loadBlockIndex sampleEnv (sampleLoad [forgedBlock]) forgedDb).map (fun L =>
      (L.pindexBest, L.nBestHeight, L.heightOf 7, verifyHardenedInChain L.mapBlockIndex
        L.nBestHeight 0 (hardenedCheckpoints sampleEnv)))
      = some (some 7, 50000, some 50000, .ok 1) := by
    decide +kernel
  obtain ⟨L, hload, hfields⟩ := Option.map_eq_some_iff.mp hloads
  simp only [Prod.mk.injEq] at hfields
  obtain ⟨hbest, hheight, hseven, hverified⟩ := hfields
  refine ⟨L, hload, hverified, ?_⟩
  intro hpins
  have hat := hpins (by rw [hverified]; rfl) (50000, firstCheckpoint) (by decide) (by decide)
    (by rw [hheight]; decide)
  exact absurd ((hat 7).mp ⟨⟨7, hbest, .refl⟩, hseven⟩) (by decide)

def checkpointBlock : CBlock := sampleBlock firstCheckpoint 1 [sampleCoinbase 100 (5 * coin)]

theorem verifyHardenedInChain_pins_iff_single :
    ∃ L, loadBlockIndex sampleEnv (sampleLoad [checkpointBlock]) (checkpointDb [] firstCheckpoint)
        = some L ∧
      (verifyHardenedInChain L.mapBlockIndex L.nBestHeight 0 (hardenedCheckpoints sampleEnv)).isOk
        = true ∧
      L.Pins (hardenedCheckpoints sampleEnv) := by
  have hloads : (loadBlockIndex sampleEnv (sampleLoad [checkpointBlock])
      (checkpointDb [] firstCheckpoint)).map (fun L => (L.pindexBest, L.mapBlockIndex.keys,
        L.heightOf 1, (verifyHardenedInChain L.mapBlockIndex L.nBestHeight 0
          (hardenedCheckpoints sampleEnv)).isOk))
      = some (some firstCheckpoint, [firstCheckpoint, 1], some 0, true) := by
    decide +kernel
  obtain ⟨L, hload, hfields⟩ := Option.map_eq_some_iff.mp hloads
  simp only [Prod.mk.injEq] at hfields
  obtain ⟨hbest, hkeys, hone, hchecks⟩ := hfields
  -- the genesis block is below every height that is checked
  have hsingle : ∀ nHeight : Nat, 0 < nHeight → ∀ a, L.heightOf a = some (nHeight : Int) →
      a = firstCheckpoint := by
    intro nHeight hpos a ha
    obtain ⟨p, hp, -⟩ := Option.map_eq_some_iff.mp ha
    have hin : a ∈ L.mapBlockIndex.keys := AList.lookup_isSome.mp (by rw [hp]; rfl)
    rw [hkeys, List.mem_cons, List.mem_singleton] at hin
    rcases hin with rfl | rfl
    · rfl
    · rw [hone] at ha
      have := Option.some.inj ha
      omega
  refine ⟨L, hload, hchecks, (verifyHardenedInChain_pins_iff hload).2 (.inr ?_)⟩
  intro nHeight hchecked a b ha hb
  rw [hsingle nHeight hchecked.2.1 a ha, hsingle nHeight hchecked.2.1 b hb]
  exact ⟨⟨firstCheckpoint, hbest, .refl⟩, rfl⟩

end HoboNickels

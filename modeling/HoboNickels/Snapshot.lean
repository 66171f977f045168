import HoboNickels.Manifest
import HoboNickels.Lib.FileOps

/-!
# Applying a chain snapshot

`ApplySnapshotIfPresent`. A staged snapshot is parsed, every listed file is compared with its hash,
and only then is the old chain state removed and the staged files are moved into place. Paths are
normalised: two names of one file are one path.

A manifest that lists a file twice, or a file of the chain state itself, passes the check and fails
after the chain state is gone (`applySnapshot_loses_chain`). `applySnapshot_keepsChain_iff` says in
which directories that cannot happen: where the snapshot is refused before, and where the moves find
their sources when they are replayed on the names alone.
-/

namespace HoboNickels

open FileOps List

abbrev Path := List Str

/-- Descend into `comp`; `..` leads up, beyond the data directory if need be. -/
def pushComponent (p : Path) (comp : Str) : Path :=
  if comp = [] ∨ comp = ".".toList then p
  else if comp = "..".toList then
    match p.getLast? with
    | none => ["..".toList]
    | some last => if last = "..".toList then p ++ ["..".toList] else p.dropLast
  else p ++ [comp]

def components : Str → List Str
  | [] => [[]]
  | c :: s =>
    if c = '/' then [] :: components s
    else
      match components s with
      | [] => [[c]]
      | first :: rest => (c :: first) :: rest

def joinPath (dir : Path) (name : Str) : Path := (components name).foldl pushComponent dir

def snapshotDir : Path := ["snapshot".toList]
def txleveldbDir : Path := ["txleveldb".toList]
def manifestPath : Path := snapshotDir ++ ["manifest.txt".toList]
def readyPath : Path := snapshotDir ++ ["READY".toList]
def firstBlockFile : Path := ["blk0001.dat".toList]
def currentPath : Path := txleveldbDir ++ ["CURRENT".toList]

def isBlockFile : Path → Bool
  | [name] => decide (name.length > 4) && "blk".toList.isPrefixOf name
      && ".dat".toList.isSuffixOf name
  | _ => false

def underTxleveldb (p : Path) : Bool := p.head? == some "txleveldb".toList

def underSnapshot (p : Path) : Bool := p.head? == some "snapshot".toList

def isChainFile (p : Path) : Bool := isBlockFile p || underTxleveldb p

variable {p : Path} {d : DataDir} {text : Str}

theorem underSnapshot_not_chain (h : underSnapshot p = true) : isChainFile p = false := by
  rcases p with _ | ⟨first, rest⟩
  · cases h
  have hfirst : first = "snapshot".toList := by simpa [underSnapshot] using h
  rcases rest with _ | ⟨_, rest⟩
  · rw [hfirst]
    decide +kernel
  · rw [hfirst]
    rfl

/-! ## The check -/

abbrev DataDir := Volume Path Str

structure Reads where
  existsOk : Path → Bool
  openOk : Path → Bool

def fileExists (r : Reads) (d : DataDir) (p : Path) : Option Bool :=
  if r.existsOk p then some (d.files p).isSome else none

variable (sha256 : Str → Uint256)

variable (r : Reads) (d : DataDir)

/-- `HashSnapshotFile`: zero when the file cannot be opened. -/
def hashSnapshotFile (p : Path) : Uint256 :=
  match d.files p with
  | some contents => if r.openOk p then sha256 contents else 0
  | none => 0

def ManifestFile.source (f : ManifestFile) : Path := joinPath snapshotDir f.name

def ManifestFile.target (f : ManifestFile) : Path := joinPath [] f.name

inductive ApplyInfo where
  | manifestInvalid
  | integrityFailed (name : Str)
  | applyFailed
  | applied (nHeight : Int)
  deriving DecidableEq, Repr

inductive SnapCheck where
  | absent
  | escaped
  | threw
  | discard (info : ApplyInfo)
  | apply (fFetched : Bool) (m : Manifest)
  deriving DecidableEq, Repr

def checkIntegrity (sha256 : Str → Uint256) (r : Reads) (d : DataDir) (go : SnapCheck) :
    List ManifestFile → SnapCheck
  | [] => go
  | f :: rest =>
    match fileExists r d f.source with
    | none => .threw
    | some false => .discard (.integrityFailed f.name)
    | some true =>
      if hashSnapshotFile sha256 r d f.source ≠ f.hash then .discard (.integrityFailed f.name)
      else checkIntegrity sha256 r d go rest

/-- The text of the manifest, empty when the file cannot be opened. -/
def manifestText : Str :=
  match d.files manifestPath with
  | some text => if r.openOk manifestPath then text else []
  | none => []

def checkManifest (fFetched : Bool) : SnapCheck :=
  let m := parseManifest (manifestText r d)
  if !m.usable then .discard .manifestInvalid
  else checkIntegrity sha256 r d (.apply fFetched m) m.files

/-- `!fs::exists(blk0001.dat) && !fs::exists(txleveldb/CURRENT)`. -/
def emptyDatadir : Option Bool :=
  match fileExists r d firstBlockFile with
  | none => none
  | some true => some false
  | some false => (fileExists r d currentPath).map (!·)

def checkSnapshot : SnapCheck :=
  match fileExists r d manifestPath with
  | none => .escaped
  | some false => .absent
  | some true =>
    match fileExists r d readyPath, emptyDatadir r d with
    | some fFetched, some fEmptyDatadir =>
      if !fFetched && !fEmptyDatadir then .absent else checkManifest sha256 r d fFetched
    | _, _ => .escaped

variable {r d}

/-! ## The two phases -/

structure ApplyFaults where
  reads : Reads
  killedEarly : Bool
  discard : List (Fault Path)
  replace : List (Fault Path)
  move : List (Fault Path)
  clean : List (Fault Path)

def ApplyFaults.ideal : ApplyFaults where
  reads := ⟨fun _ => true, fun _ => true⟩
  killedEarly := false
  discard := []
  replace := []
  move := []
  clean := []

/-- Remove the old chain state, when the snapshot was fetched. -/
def replaceOps (fFetched : Bool) : List (Op Path Str) :=
  (if fFetched then [.removeAll isBlockFile, .removeAll underTxleveldb] else [])
    ++ [.createDirectories txleveldbDir]

def moveOps (files : List ManifestFile) : List (Op Path Str) :=
  files.map (fun f => .rename f.source f.target)

def removeStaging : List (Op Path Str) := [.removeAll underSnapshot]

inductive ApplyEnding where
  | returned (fApplied : Bool)
  | escaped
  | killed
  deriving DecidableEq, Repr

structure ApplyOutcome where
  ending : ApplyEnding
  info : Option ApplyInfo
  dir : DataDir

/-- Clear the staging directory, whether that succeeds or not, and return. -/
def finishApply (faults : List (Fault Path)) (fApplied : Bool) (info : ApplyInfo) (d : DataDir) :
    ApplyOutcome :=
  match run removeStaging faults d with
  | (.killed, d') => ⟨.killed, none, d'⟩
  | (_, d') => ⟨.returned fApplied, some info, d'⟩

/-- Run a phase and go on with `next` when it is done; an exception ends the function. -/
def applyPhase (ops : List (Op Path Str)) (faults : List (Fault Path)) (d : DataDir)
    (next : DataDir → ApplyOutcome) : ApplyOutcome :=
  match run ops faults d with
  | (.done, d') => next d'
  | (.threw, d') => ⟨.returned false, some .applyFailed, d'⟩
  | (.killed, d') => ⟨.killed, none, d'⟩

def applySnapshotIfPresent (e : ApplyFaults) (d : DataDir) : ApplyOutcome :=
  if e.killedEarly then ⟨.killed, none, d⟩
  else
    match checkSnapshot sha256 e.reads d with
    | .absent => ⟨.returned false, none, d⟩
    | .escaped => ⟨.escaped, none, d⟩
    | .threw => ⟨.returned false, some .applyFailed, d⟩
    | .discard info => finishApply e.discard false info d
    | .apply fFetched m =>
      applyPhase (replaceOps fFetched) e.replace d fun d =>
        applyPhase (moveOps m.files) e.move d fun d =>
          finishApply e.clean true (.applied m.nHeight) d

/-! ## The integrity check -/

def Intact (d : DataDir) (files : List ManifestFile) : Prop :=
  ∀ f ∈ files, ∃ contents, d.files f.source = some contents ∧ sha256 contents = f.hash

open ApplyFaults

theorem checkIntegrity_ideal (d : DataDir) (go : SnapCheck) (files : List ManifestFile) :
    (Intact sha256 d files ∧ checkIntegrity sha256 ideal.reads d go files = go) ∨
      (¬ Intact sha256 d files ∧ ∃ info,
        checkIntegrity sha256 ideal.reads d go files = .discard info) := by
  fun_induction checkIntegrity sha256 ideal.reads d go files with
  | case1 => exact .inl ⟨nofun, rfl⟩
  | case2 f rest hexists => cases hexists
  | case3 f rest hexists =>
    refine .inr ⟨fun hall => ?_, _, rfl⟩
    obtain ⟨c, hc, -⟩ := hall f mem_cons_self
    have hsome : (d.files f.source).isSome = false := Option.some.inj hexists
    simp [hc] at hsome
  | case4 f rest _ hhash =>
    refine .inr ⟨fun hall => ?_, _, rfl⟩
    obtain ⟨c, hc, hch⟩ := hall f mem_cons_self
    rw [hashSnapshotFile, hc] at hhash
    exact hhash hch
  | case5 f rest hexists hhash ih =>
    obtain ⟨c, hc⟩ := Option.isSome_iff_exists.mp (Option.some.inj hexists)
    rw [not_not, hashSnapshotFile, hc] at hhash
    rcases ih with ⟨hrest, hgo⟩ | ⟨hrest, hbad⟩
    · exact .inl ⟨forall_mem_cons.mpr ⟨⟨c, hc, hhash⟩, hrest⟩, hgo⟩
    · exact .inr ⟨fun hall => hrest (forall_mem_cons.mp hall).2, hbad⟩

/-- The snapshot is staged, and nothing is found that speaks against applying it. -/
structure Attempts (d : DataDir) (text : Str) : Prop where
  manifest : d.files manifestPath = some text
  allowed : (d.files readyPath).isSome = true ∨
    d.files firstBlockFile = none ∧ d.files currentPath = none
  usable : (parseManifest text).usable = true
  intact : Intact sha256 d (parseManifest text).files

theorem emptyDatadir_ideal (d : DataDir) : emptyDatadir ideal.reads d =
    some (decide (d.files firstBlockFile = none ∧ d.files currentPath = none)) := by
  have hexists : ∀ p, fileExists ideal.reads d p = some (d.files p).isSome := fun _ => rfl
  rw [emptyDatadir, hexists, hexists]
  cases d.files firstBlockFile <;> cases d.files currentPath <;> rfl

theorem checkSnapshot_ideal (d : DataDir) :
    ((checkSnapshot sha256 ideal.reads d = .absent ∨
        ∃ info, checkSnapshot sha256 ideal.reads d = .discard info) ∧
      ∀ text, ¬ Attempts sha256 d text) ∨
    ∃ text, Attempts sha256 d text ∧ checkSnapshot sha256 ideal.reads d
      = .apply (d.files readyPath).isSome (parseManifest text) := by
  have hexists : ∀ p, fileExists ideal.reads d p = some (d.files p).isSome := fun _ => rfl
  unfold checkSnapshot
  rw [hexists, hexists, emptyDatadir_ideal]
  rcases htext : d.files manifestPath with _ | text
  · exact .inl ⟨.inl rfl, fun _ h => by cases htext.symm.trans h.manifest⟩
  have honly : ∀ text', Attempts sha256 d text' → text' = text := fun _ h =>
    Option.some.inj (h.manifest.symm.trans htext)
  simp only [Option.isSome_some]
  split
  next hno =>
    refine .inl ⟨.inl rfl, fun text' h => ?_⟩
    simp only [Bool.and_eq_true, Bool.not_eq_true', decide_eq_false_iff_not] at hno
    rcases h.allowed with hready | hempty
    · rw [hno.1] at hready
      cases hready
    · exact hno.2 hempty
  next hgo =>
    have hread : manifestText ideal.reads d = text := by
      rw [manifestText, htext]
      rfl
    unfold checkManifest
    rw [hread]
    by_cases husable : (parseManifest text).usable = true
    · simp only [husable, Bool.not_true, Bool.false_eq_true, if_false]
      rcases checkIntegrity_ideal sha256 d
          (.apply (d.files readyPath).isSome (parseManifest text)) (parseManifest text).files with
        ⟨hintact, hgood⟩ | ⟨hbad, hdiscard⟩
      · refine .inr ⟨text, ⟨htext, ?_, husable, hintact⟩, hgood⟩
        simpa [or_iff_not_imp_left] using hgo
      · exact .inl ⟨.inr hdiscard, fun text' h => hbad (honly text' h ▸ h.intact)⟩
    · simp only [husable, Bool.not_false, if_true]
      exact .inl ⟨.inr ⟨_, rfl⟩, fun text' h => husable (honly text' h ▸ h.usable)⟩

/-! ## The moves -/

def movesFind (gone : Path → Bool) : List ManifestFile → Bool
  | [] => true
  | f :: rest =>
    !gone f.source && movesFind
      (fun p => if p = f.target then false else if p = f.source then true else gone p) rest

theorem run_moveOps (files : List ManifestFile) (gone : Path → Bool) (d : DataDir)
    (hgone : ∀ f ∈ files, (d.files f.source).isNone = gone f.source) :
    (run (moveOps files) [] d).1 = if movesFind gone files then .done else .threw := by
  induction files generalizing gone d with
  | nil => rfl
  | cons f rest ih =>
    obtain ⟨hfirst, hgone⟩ := forall_mem_cons.mp hgone
    change (run (Op.rename f.source f.target :: moveOps rest) [] d).1 = _
    rw [run, movesFind, Op.apply]
    rcases hsource : d.files f.source with _ | _
    · rw [hsource] at hfirst
      rw [← hfirst]
      rfl
    rw [hsource, Option.isNone_some] at hfirst
    rw [← hfirst, Bool.not_false]
    apply ih
    intro g hg
    by_cases ht : g.source = f.target
    · simp [Volume.put, ht]
    by_cases hs : g.source = f.source
    · have hmoved : f.source ≠ f.target := hs ▸ ht
      simp [Volume.put, Volume.drop, hs, hmoved]
    · simpa [Volume.put, Volume.drop, ht, hs] using hgone g hg

/-! ## What a failed application leaves behind -/

/-- A call that returns false leaves every file of the chain state as it was. -/
def KeepsChain (d : DataDir) : Prop :=
  (applySnapshotIfPresent sha256 .ideal d).ending = .returned false →
    ∀ p, isChainFile p = true →
      (applySnapshotIfPresent sha256 .ideal d).dir.files p = d.files p

theorem finishApply_files (fApplied : Bool) (info : ApplyInfo) (d : DataDir)
    (hp : isChainFile p = true) : (finishApply [] fApplied info d).dir.files p = d.files p := by
  have hout : underSnapshot p = false := by
    by_contra hin
    rw [underSnapshot_not_chain (by simpa using hin)] at hp
    cases hp
  change (d.drop underSnapshot).files p = d.files p
  simp [Volume.drop, hout]

def withoutChain (fFetched : Bool) (d : DataDir) : DataDir :=
  if fFetched then (d.drop isBlockFile).drop underTxleveldb else d

theorem run_replaceOps (fFetched : Bool) (d : DataDir) :
    run (replaceOps fFetched) [] d = (.done, withoutChain fFetched d) := by
  cases fFetched with
  | false => rfl
  | true => rfl

theorem withoutChain_files (d : DataDir) (p : Path) :
    (withoutChain true d).files p = if isChainFile p then none else d.files p := by
  simp only [withoutChain, if_true, Volume.drop, isChainFile]
  by_cases hb : isBlockFile p = true
  · by_cases ht : underTxleveldb p = true <;> simp [hb, ht]
  · by_cases ht : underTxleveldb p = true <;> simp [hb, ht]

theorem withoutChain_isNone {fFetched : Bool} (h : (d.files p).isSome = true) :
    ((withoutChain fFetched d).files p).isNone = (fFetched && isChainFile p) := by
  obtain ⟨c, hc⟩ := Option.isSome_iff_exists.mp h
  cases fFetched with
  | false => simp [withoutChain, hc]
  | true =>
    rw [withoutChain_files, hc]
    by_cases hchain : isChainFile p = true <;> simp [hchain]

variable {sha256 : Str → Uint256}

theorem apply_moves {fFetched : Bool} {m : Manifest}
    (hcheck : checkSnapshot sha256 ideal.reads d = .apply fFetched m)
    (hintact : Intact sha256 d m.files) :
    if movesFind (fun p => fFetched && isChainFile p) m.files then
      (applySnapshotIfPresent sha256 .ideal d).ending = .returned true
    else
      (applySnapshotIfPresent sha256 .ideal d).ending = .returned false ∧
        (applySnapshotIfPresent sha256 .ideal d).dir
          = (run (moveOps m.files) [] (withoutChain fFetched d)).2 := by
  have hgone : ∀ f ∈ m.files, ((withoutChain fFetched d).files f.source).isNone
      = (fFetched && isChainFile f.source) := by
    intro f hf
    obtain ⟨c, hc, -⟩ := hintact f hf
    exact withoutChain_isNone (by rw [hc]; rfl)
  have hmoves := run_moveOps m.files (fun p => fFetched && isChainFile p)
    (withoutChain fFetched d) hgone
  have hcall : applySnapshotIfPresent sha256 .ideal d
      = applyPhase (moveOps m.files) [] (withoutChain fFetched d)
          (finishApply [] true (.applied m.nHeight)) := by
    unfold applySnapshotIfPresent
    rw [hcheck]
    simp only [applyPhase]
    rw [show ideal.replace = [] from rfl, run_replaceOps]
    rfl
  rw [hcall]
  unfold applyPhase
  rcases hrun : run (moveOps m.files) [] (withoutChain fFetched d) with ⟨ending, _⟩
  rw [hrun] at hmoves
  split
  next hfind =>
    rw [if_pos hfind] at hmoves
    subst hmoves
    rfl
  rename_i hfind
  rw [if_neg hfind] at hmoves
  subst hmoves
  exact ⟨rfl, rfl⟩

/-- If the snapshot is going to be applied, every move will find its source. -/
def SafeToApply (sha256 : Str → Uint256) (d : DataDir) : Prop :=
  ∀ text, Attempts sha256 d text →
    movesFind (fun p => (d.files readyPath).isSome && isChainFile p) (parseManifest text).files
      = true

/-- A snapshot that was fetched lies beside a file of the chain state that it does not name. -/
def Exposed (d : DataDir) : Prop :=
  (d.files readyPath).isSome = true ∧ ∃ p, isChainFile p = true ∧ (d.files p).isSome = true ∧
    ∀ text, d.files manifestPath = some text → ∀ f ∈ (parseManifest text).files,
      p ≠ f.source ∧ p ≠ f.target

theorem SafeToApply.keepsChain (h : SafeToApply sha256 d) : KeepsChain sha256 d := by
  intro hending p hp
  rcases checkSnapshot_ideal sha256 d with ⟨hcheck | ⟨info, hcheck⟩, -⟩ | ⟨text, htext, hcheck⟩
  · simp only [applySnapshotIfPresent, hcheck]
    rfl
  · simp only [applySnapshotIfPresent, hcheck]
    exact finishApply_files false info d hp
  · have hmoves := apply_moves hcheck htext.intact
    rw [if_pos (h text htext)] at hmoves
    rw [hmoves] at hending
    cases hending

theorem Exposed.safeToApply (h : Exposed d) (hkeeps : KeepsChain sha256 d) :
    SafeToApply sha256 d := by
  obtain ⟨hready, p, hchain, hthere, hunnamed⟩ := h
  intro text htext
  by_contra hmoves
  rcases checkSnapshot_ideal sha256 d with ⟨-, hnone⟩ | ⟨text', htext', hcheck⟩
  · exact hnone text htext
  obtain rfl : text' = text := Option.some.inj (htext'.manifest.symm.trans htext.manifest)
  have houtcome := apply_moves hcheck htext.intact
  rw [if_neg hmoves, hready] at houtcome
  have hkept := hkeeps houtcome.1 p hchain
  -- the file was removed with the chain state, and no move makes it again
  have huntouched : ∀ op ∈ moveOps (parseManifest text').files, ¬ op.touches p := by
    intro op hop
    obtain ⟨f, hf, rfl⟩ := mem_map.mp hop
    obtain ⟨hsource, htarget⟩ := hunnamed text' htext.manifest f hf
    rintro (rfl | rfl)
    · exact hsource rfl
    · exact htarget rfl
  rw [houtcome.2, (run_files [] _ huntouched).1, withoutChain_files, if_pos hchain] at hkept
  rw [← hkept] at hthere
  cases hthere

/-- **Where a snapshot is safe to fail.** In every data directory where an attempt would find the
sources of its moves, a call that returns false leaves the chain state untouched. In a directory
with a chain state to lose, this is also necessary. -/
theorem applySnapshot_keepsChain_iff (sha256 : Str → Uint256) (d : DataDir) :
    (SafeToApply sha256 d → KeepsChain sha256 d) ∧
      (Exposed d → (KeepsChain sha256 d ↔ SafeToApply sha256 d)) :=
  ⟨SafeToApply.keepsChain, fun h => ⟨h.safeToApply, SafeToApply.keepsChain⟩⟩

def stagedDir (manifest : String) : DataDir where
  files := fun p =>
    if p = manifestPath then some manifest.toList
    else if p = readyPath then some "1".toList
    else if p = snapshotDir ++ ["blk0001.dat".toList] then some "new".toList
    else if p = firstBlockFile then some "old".toList
    else none
  moved := fun _ => false

def twiceDir : DataDir :=
  let d := stagedDir "height 5\nfile blk0001.dat 3 3\nfile blk0001.dat 3 3\n"
  { d with files := Function.update d.files currentPath (some "index".toList) }

/-- The call returns false, and the index is gone and the block file replaced. -/
theorem applySnapshot_loses_chain :
    let result := applySnapshotIfPresent List.length .ideal twiceDir
    result.ending = .returned false ∧ twiceDir.files currentPath = some "index".toList ∧
      result.dir.files currentPath = none ∧ result.dir.files firstBlockFile = some "new".toList ∧
      ¬ KeepsChain List.length twiceDir := by
  intro result
  have hending : result.ending = .returned false := by decide +kernel
  refine ⟨hending, by decide +kernel, by decide +kernel, by decide +kernel, ?_⟩
  intro hkeeps
  have hkept := hkeeps hending currentPath (by decide +kernel)
  revert hkept
  decide +kernel

end HoboNickels

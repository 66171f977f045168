import HoboNickels.Snapshot
import HoboNickels.LoadIndex

/-!
# Start-ups with a snapshot

The chain-loading step of `AppInit2`: a marker left by a rejected snapshot makes the node wipe its
chain state; then a staged snapshot is applied, the block index is loaded, and if a snapshot was
applied the hardened checkpoints are verified. A negative verdict leaves the marker. The step may be
killed between any two file operations, and any operation may fail.

That a snapshot was applied is known only to the process that applied it. When it is killed after
the moves and before the verdict is on disk, the next start-up uses the chain state unverified
(`killed_after_moves`); so after an exception between the moves, and a load or a wipe that fails.
Otherwise no unverified chain state is used (`startUp_verified`).
-/

namespace HoboNickels

open FileOps List

def rejectedMarker : Path := ["snapshot-rejected".toList]

def NoneUnverified (d : DataDir) : Prop := ∀ p, isChainFile p = true → d.moved p = false

structure Between (d d' : DataDir) : Prop where
  marker : (d.files rejectedMarker).isSome = true → (d'.files rejectedMarker).isSome = true
  chain : NoneUnverified d → NoneUnverified d'

/-- What a start-up finds: its options, and what fails or kills it. -/
structure StartInput where
  fLooks : Bool
  wipe : List (Fault Path)
  fSnapsync : Bool
  apply : ApplyFaults
  opened : DataDir → DataDir
  opened_between : ∀ d, Between d (opened d)
  fKilledLoading : Bool
  load : LoadInput
  mark : List (Fault Path)
  fLooksAgain : Bool
  discard : List (Fault Path)

inductive StartEnding where
  | passed
  | stopped (message : String)
  | threw
  | killed
  deriving DecidableEq, Repr

/-- Remove the chain state, the staging directory and, last, the marker. -/
def wipeFirst : List (Op Path Str) :=
  [.removeAll isBlockFile, .removeAll underTxleveldb, .removeAll underSnapshot]

def wipeOps : List (Op Path Str) := wipeFirst ++ [.remove rejectedMarker]

namespace StartInput

variable (env : Env) (sha256 : Str → Uint256) (readDb : (Path → Option Str) → Option BlockDb)
variable (i : StartInput)

def wiped (d : DataDir) : Ending × DataDir :=
  if (d.files rejectedMarker).isSome then run wipeOps i.wipe d else (.done, d)

/-- A snapshot that failed the verification: leave a marker, and discard the staging directory
once the marker is there. -/
def reject (strErr : String) (d : DataDir) : StartEnding × DataDir :=
  match run [.write rejectedMarker (strErr.toList ++ ['\n'])] i.mark d with
  | (.killed, d₁) => (.killed, d₁)
  | (_, d₁) =>
    if i.fLooksAgain && (d₁.files rejectedMarker).isSome then
      match run removeStaging i.discard d₁ with
      | (.killed, d₂) => (.killed, d₂)
      | (_, d₂) => (.stopped ("Chain snapshot failed checkpoint verification (" ++ strErr
          ++ "). It was discarded; restart to sync normally."), d₂)
    else (.stopped ("Chain snapshot failed checkpoint verification (" ++ strErr
      ++ "), and the cleanup marker could not be written. "
      ++ "Delete the data directory and restart to sync normally."), d₁)

def loaded (d : DataDir) : Option LoadedChain :=
  (readDb (i.opened d).files).bind (loadBlockIndex env i.load)

def verdict (L : LoadedChain) : Except String Nat :=
  verifyHardenedInChain L.mapBlockIndex L.nBestHeight 0 (hardenedCheckpoints env)

/-- Load the index, and verify it when a snapshot was applied; a positive verdict clears the
marks. -/
def loadAndVerify (fApplied : Bool) (d : DataDir) : StartEnding × DataDir :=
  if i.fKilledLoading then (.killed, i.opened d)
  else
    match i.loaded env readDb d with
    | none => (.stopped "Error loading blkindex.dat", i.opened d)
    | some L =>
      if fApplied then
        match verdict env L with
        | .ok _ => (.passed, { i.opened d with moved := fun _ => false })
        | .error strErr => i.reject strErr (i.opened d)
      else (.passed, i.opened d)

/-- Apply a staged snapshot, unless `-snapsync=0`, and go on. -/
def applyAndLoad (d : DataDir) : StartEnding × DataDir :=
  if i.fSnapsync then
    let a := applySnapshotIfPresent sha256 i.apply d
    match a.ending with
    | .killed => (.killed, a.dir)
    | .escaped => (.threw, a.dir)
    | .returned fApplied => i.loadAndVerify env readDb fApplied a.dir
  else i.loadAndVerify env readDb false d

def startUp (d : DataDir) : StartEnding × DataDir :=
  if !i.fLooks then (.threw, d)
  else
    match i.wiped d with
    | (.killed, d₁) => (.killed, d₁)
    | (_, d₁) => i.applyAndLoad env sha256 readDb d₁

end StartInput

section Run

variable (env : Env) (sha256 : Str → Uint256) (readDb : (Path → Option Str) → Option BlockDb)

inductive StartRun (ok : StartInput → DataDir → Prop) : DataDir → Prop
  | fresh {d : DataDir} : NoneUnverified d → StartRun ok d
  | startUp {d : DataDir} (i : StartInput) : StartRun ok d → ok i d →
      StartRun ok (i.startUp env sha256 readDb d).2
  | between {d d' : DataDir} : StartRun ok d → Between d d' → StartRun ok d'

/-- From the first move until the verdict is on disk nothing goes wrong. -/
structure StartInput.Uninterrupted (i : StartInput) (d : DataDir) (fFetched : Bool) (m : Manifest) :
    Prop where
  move : i.apply.move = []
  find : movesFind (fun p => fFetched && isChainFile p) m.files = true
  clean : ∀ f ∈ i.apply.clean, ∀ reached, f ≠ .kill reached
  load : i.fKilledLoading = false
  verify : ∃ L, i.loaded env readDb (applySnapshotIfPresent sha256 i.apply d).dir = some L ∧
    ((StartInput.verdict env L).isOk = false → i.mark = [])

/-- The wipe does not fail, though it may be killed, and a snapshot is applied and verified without
interruption. -/
structure StartInput.Spared (i : StartInput) (d : DataDir) : Prop where
  wipe : ∀ f ∈ i.wipe, ∀ reached, f ≠ .fail reached
  apply : ∀ fFetched m, checkSnapshot sha256 i.apply.reads (i.wiped d).2 = .apply fFetched m →
    i.Uninterrupted env sha256 readDb (i.wiped d).2 fFetched m

end Run

/-! ## Marks -/

variable {d : DataDir} {fFetched : Bool} {sha256 : Str → Uint256} {r : Reads} {m : Manifest}

theorem NoneUnverified.run (h : NoneUnverified d) {ops : List (Op Path Str)}
    (hops : ∀ op ∈ ops, ∀ src dst, op ≠ .rename src dst) (faults : List (Fault Path)) :
    NoneUnverified (run ops faults d).2 :=
  fun p hp => run_moved hops faults (h p hp)

theorem NoneUnverified.drop (h : NoneUnverified d) (under : Path → Bool) :
    NoneUnverified (d.drop under) := by
  intro p hp
  simp [Volume.drop, h p hp]

theorem replaceOps_no_rename (fFetched : Bool) :
    ∀ op ∈ replaceOps fFetched, ∀ src dst, op ≠ .rename src dst := by
  cases fFetched with
  | false => simp [replaceOps]
  | true => simp [replaceOps]

theorem removeStaging_no_rename : ∀ op ∈ removeStaging, ∀ src dst, op ≠ .rename src dst := by
  simp [removeStaging]

theorem NoneUnverified.finishApply (h : NoneUnverified d)
    (faults : List (Fault Path)) (fApplied : Bool) (info : ApplyInfo) :
    NoneUnverified (finishApply faults fApplied info d).dir := by
  have hrun := h.run removeStaging_no_rename faults
  unfold HoboNickels.finishApply
  rcases hr : FileOps.run removeStaging faults d with ⟨ending, _⟩
  rw [hr] at hrun
  cases ending with
  | killed => exact hrun
  | done => exact hrun
  | threw => exact hrun

theorem finishApply_returned {faults : List (Fault Path)}
    (h : ∀ f ∈ faults, ∀ reached, f ≠ .kill reached) (fApplied : Bool) (info : ApplyInfo)
    (d : DataDir) : (finishApply faults fApplied info d).ending = .returned fApplied := by
  have hkill := run_no_kill removeStaging d h
  unfold finishApply
  rcases hr : FileOps.run removeStaging faults d with ⟨ending, _⟩
  rw [hr] at hkill
  cases ending with
  | killed => exact absurd rfl hkill
  | done => rfl
  | threw => rfl

theorem checkIntegrity_apply {go : SnapCheck} {files : List ManifestFile}
    (h : checkIntegrity sha256 r d go files = .apply fFetched m) :
    go = .apply fFetched m ∧ ∀ f ∈ files, (d.files f.source).isSome = true := by
  fun_induction checkIntegrity sha256 r d go files with
  | case1 => exact ⟨h, forall_mem_nil _⟩
  | case5 g rest hexists _ ih =>
    obtain ⟨hgo, hrest⟩ := ih h
    refine ⟨hgo, forall_mem_cons.mpr ⟨?_, hrest⟩⟩
    rw [fileExists] at hexists
    split at hexists
    · exact Option.some.inj hexists
    · cases hexists
  | _ => cases h

theorem checkSnapshot_there (h : checkSnapshot sha256 r d = .apply fFetched m) :
    ∀ f ∈ m.files, (d.files f.source).isSome = true := by
  revert h
  fun_cases checkSnapshot sha256 r d with
  | case4 =>
    unfold checkManifest
    dsimp only
    split
    · nofun
    · intro h
      obtain ⟨hgo, hthere⟩ := checkIntegrity_apply h
      obtain ⟨rfl, rfl⟩ := SnapCheck.apply.inj hgo
      exact hthere
  | _ => nofun

theorem applySnapshot_moves {e : ApplyFaults} (hd : NoneUnverified d)
    (h : ∀ fFetched m, checkSnapshot sha256 e.reads d = .apply fFetched m → e.move = [] ∧
      movesFind (fun p => fFetched && isChainFile p) m.files = true ∧
        ∀ f ∈ e.clean, ∀ reached, f ≠ .kill reached) :
    NoneUnverified (applySnapshotIfPresent sha256 e d).dir ∨
      (∃ fFetched m, checkSnapshot sha256 e.reads d = .apply fFetched m) ∧
        (applySnapshotIfPresent sha256 e d).ending = .returned true := by
  unfold applySnapshotIfPresent
  split
  · exact .inl hd
  split
  · exact .inl hd
  · exact .inl hd
  · exact .inl hd
  · exact .inl (hd.finishApply e.discard _ _)
  rename_i fFetched m hcheck
  obtain ⟨hmove, hfind, hclean⟩ := h fFetched m hcheck
  have hreplaced := hd.run (replaceOps_no_rename fFetched) e.replace
  rcases hrep : FileOps.run (replaceOps fFetched) e.replace d with ⟨ending, d1⟩
  rw [hrep] at hreplaced
  unfold applyPhase
  rw [hrep]
  cases ending with
  | threw => exact .inl hreplaced
  | killed => exact .inl hreplaced
  | done =>
    have hd1 : d1 = withoutChain fFetched d := by
      have hideal := run_done hrep
      rw [run_replaceOps] at hideal
      exact (Prod.mk.inj hideal).2.symm
    have hmoves := run_moveOps m.files (fun p => fFetched && isChainFile p) d1 (by
      intro f hf
      rw [hd1]
      exact withoutChain_isNone (checkSnapshot_there hcheck f hf))
    rw [if_pos hfind] at hmoves
    rcases hmv : FileOps.run (moveOps m.files) [] d1 with ⟨ending, _⟩
    rw [hmv] at hmoves
    subst hmoves
    refine .inr ⟨⟨fFetched, m, hcheck⟩, ?_⟩
    simp only [hmove, hmv]
    exact finishApply_returned hclean _ _ _

/-! ## What a start-up keeps -/

def Safe (d : DataDir) : Prop :=
  NoneUnverified d ∨ (d.files rejectedMarker).isSome = true

theorem Safe.between {d' : DataDir} (h : Safe d) (hbetween : Between d d') : Safe d' :=
  h.imp hbetween.chain hbetween.marker

def Guarded (r : StartEnding × DataDir) : Prop :=
  Safe r.2 ∧ (r.1 = .passed → NoneUnverified r.2)

variable {r : StartEnding × DataDir}

theorem Guarded.of_none (h : NoneUnverified r.2) : Guarded r :=
  ⟨.inl h, fun _ => h⟩

theorem Guarded.of_ended (hended : r.1 ≠ .passed) (h : Safe r.2) : Guarded r :=
  ⟨h, fun hpassed => absurd hpassed hended⟩

theorem noneUnverified_without :
    NoneUnverified (((d.drop isBlockFile).drop underTxleveldb).drop underSnapshot) := by
  intro p hp
  simp only [isChainFile, Bool.or_eq_true] at hp
  rcases hp with hp | hp <;> simp [Volume.drop, hp]

theorem run_wipeOps (h : (d.files rejectedMarker).isSome = true) :
    ∃ d', run wipeOps [] d = (.done, d') ∧ NoneUnverified d' := by
  have hkept : ((((d.drop isBlockFile).drop underTxleveldb).drop underSnapshot).files
      rejectedMarker).isSome = true := by
    have hout : isBlockFile rejectedMarker = false ∧ underTxleveldb rejectedMarker = false ∧
        underSnapshot rejectedMarker = false := by decide +kernel
    simp [Volume.drop, hout, h]
  refine ⟨(((d.drop isBlockFile).drop underTxleveldb).drop underSnapshot).drop
    (fun q => decide (q = rejectedMarker)), ?_, ?_⟩
  · simp only [wipeOps, wipeFirst, cons_append, nil_append, run, headD_nil,
      tail_nil, Op.apply, hkept, if_true]
  · exact noneUnverified_without.drop _

theorem wipeFirst_marker : ∀ op ∈ wipeFirst, ¬ op.touches rejectedMarker := by
  simp only [wipeFirst, forall_mem_cons, Op.touches]
  exact ⟨by decide +kernel, by decide +kernel, by decide +kernel, forall_mem_nil _⟩

namespace StartInput

variable {env : Env} {sha256 : Str → Uint256} {readDb : (Path → Option Str) → Option BlockDb}
variable {i : StartInput} {d : DataDir}

theorem wiped_safe (hsafe : Safe d) (hwipe : ∀ f ∈ i.wipe, ∀ reached, f ≠ .fail reached) :
    NoneUnverified (i.wiped d).2 ∨ (i.wiped d).1 = .killed ∧ Safe (i.wiped d).2 := by
  unfold wiped
  split
  next hmarker =>
    obtain ⟨_, hdone, hnone⟩ := run_wipeOps hmarker
    rcases run_no_fail hwipe hdone with hrun | hkilled
    · rw [hrun]
      exact .inl hnone
    refine .inr ⟨hkilled, .inr ?_⟩
    have hkept : (run wipeOps i.wipe d).2.files rejectedMarker = d.files rejectedMarker := by
      apply run_remove_last wipeFirst_marker
      rw [← wipeOps, hkilled]
      decide
    rw [hkept]
    exact hmarker
  next hmarker => exact .inl (hsafe.resolve_right hmarker)

theorem reject_not_passed (strErr : String) : (i.reject strErr d).1 ≠ .passed := by
  fun_cases reject i strErr d <;> nofun

theorem reject_noneUnverified (h : NoneUnverified d) (strErr : String) :
    NoneUnverified (i.reject strErr d).2 := by
  have hmark : NoneUnverified
      (run [.write rejectedMarker (strErr.toList ++ ['\n'])] i.mark d).2 := by
    apply h.run
    simp
  have hdiscard := hmark.run removeStaging_no_rename i.discard
  fun_cases reject i strErr d with
  | case1 _ hrun | case4 _ _ _ hrun => rwa [hrun] at hmark
  | case2 _ _ _ hrun _ _ hrun' | case3 _ _ _ hrun _ _ _ _ hrun' => rwa [hrun, hrun'] at hdiscard

theorem reject_marked (hmark : i.mark = []) (strErr : String) :
    ((i.reject strErr d).2.files rejectedMarker).isSome = true := by
  have hout : ∀ op ∈ removeStaging, ¬ op.touches rejectedMarker := by
    simp only [removeStaging, forall_mem_cons, Op.touches]
    exact ⟨by decide +kernel, forall_mem_nil _⟩
  have hwritten : (((d.put rejectedMarker (strErr.toList ++ ['\n']) false)).files
      rejectedMarker).isSome = true := by
    simp [Volume.put]
  unfold reject
  rw [hmark]
  simp only [run, headD_nil, Op.apply, hwritten, Bool.and_true]
  split
  · have hkept := (run_files i.discard
      (d.put rejectedMarker (strErr.toList ++ ['\n']) false) hout).1
    split
    next hrun =>
      rw [hrun] at hkept
      rw [hkept]
      exact hwritten
    rename_i hrun
    rw [hrun] at hkept
    rw [hkept]
    exact hwritten
  · exact hwritten

theorem loadAndVerify_noneUnverified (h : NoneUnverified d) (fApplied : Bool) :
    NoneUnverified (i.loadAndVerify env readDb fApplied d).2 := by
  have hopened := (i.opened_between d).chain h
  fun_cases loadAndVerify env readDb i fApplied d with
  | case3 => exact fun _ _ => rfl
  | case4 => exact reject_noneUnverified hopened _
  | _ => exact hopened

theorem loadAndVerify_applied {L : LoadedChain} (hkilled : i.fKilledLoading = false)
    (hload : i.loaded env readDb d = some L) (hmark : (verdict env L).isOk = false → i.mark = []) :
    Guarded (i.loadAndVerify env readDb true d) := by
  unfold loadAndVerify
  rw [hkilled, hload]
  simp only [Bool.false_eq_true, if_false, if_true]
  cases hverdict : verdict env L with
  | ok nChecked => exact .of_none (fun _ _ => rfl)
  | error strErr =>
    rw [hverdict] at hmark
    exact .of_ended (reject_not_passed strErr) (.inr (reject_marked (hmark rfl) strErr))

theorem applyAndLoad_guarded (hnone : NoneUnverified d)
    (happly : ∀ fFetched m, checkSnapshot sha256 i.apply.reads d = .apply fFetched m →
      i.Uninterrupted env sha256 readDb d fFetched m) :
    Guarded (i.applyAndLoad env sha256 readDb d) := by
  have hmoves := applySnapshot_moves hnone (fun fFetched m hcheck =>
    ⟨(happly fFetched m hcheck).move, (happly fFetched m hcheck).find,
      (happly fFetched m hcheck).clean⟩)
  unfold applyAndLoad
  split
  · simp only
    rcases hmoves with hnone1 | ⟨⟨fFetched, m, hcheck⟩, hreturned⟩
    · split
      · exact .of_ended (by simp) (.inl hnone1)
      · exact .of_ended (by simp) (.inl hnone1)
      · exact .of_none (loadAndVerify_noneUnverified hnone1 _)
    · rw [hreturned]
      obtain ⟨L, hload, hmark⟩ := (happly fFetched m hcheck).verify
      exact loadAndVerify_applied (happly fFetched m hcheck).load hload hmark
  · exact .of_none (loadAndVerify_noneUnverified hnone false)

/-- **One start-up.** It keeps the invariant, and when it passes nothing that it uses is still to
be verified. -/
theorem startUp_guarded (hsafe : Safe d) (hspared : i.Spared env sha256 readDb d) :
    Guarded (i.startUp env sha256 readDb d) := by
  have happly := hspared.apply
  have hwiped := wiped_safe hsafe hspared.wipe
  unfold startUp
  rcases hw : i.wiped d with ⟨ending, _⟩
  rw [hw] at happly hwiped
  split
  · exact .of_ended (by simp) hsafe
  rcases hwiped with hnone | ⟨hkilled, hsafe1⟩
  · cases ending with
    | killed => exact .of_ended (by simp) (.inl hnone)
    | done => exact applyAndLoad_guarded hnone happly
    | threw => exact applyAndLoad_guarded hnone happly
  · change ending = .killed at hkilled
    rw [hkilled]
    exact .of_ended (by simp) hsafe1

end StartInput

section Run

variable {env : Env} {sha256 : Str → Uint256} {readDb : (Path → Option Str) → Option BlockDb}

theorem StartRun.safe
    (h : StartRun env sha256 readDb (fun i d => i.Spared env sha256 readDb d) d) : Safe d := by
  induction h with
  | fresh hnone => exact .inl hnone
  | startUp i _ hspared ih => exact (StartInput.startUp_guarded ih hspared).1
  | between _ hbetween ih => exact ih.between hbetween

/-- **No unverified snapshot is used.** Over any sequence of start-ups, each spared a failing wipe
and an interruption between the first move of a snapshot and the verdict on it, a start-up that
passes uses no chain state that was moved in and not verified. -/
theorem startUp_verified {d : DataDir} {i : StartInput}
    (hrun : StartRun env sha256 readDb (fun i d => i.Spared env sha256 readDb d) d)
    (hspared : i.Spared env sha256 readDb d)
    (hpassed : (i.startUp env sha256 readDb d).1 = .passed) :
    NoneUnverified (i.startUp env sha256 readDb d).2 :=
  (StartInput.startUp_guarded hrun.safe hspared).2 hpassed

end Run

/-! ## Killed after the moves -/

def onceDir : DataDir := stagedDir "height 5\nfile blk0001.dat 3 3\n"

def idealStart (blocks : List CBlock) : StartInput where
  fLooks := true
  wipe := []
  fSnapsync := true
  apply := .ideal
  opened := id
  opened_between := fun _ => ⟨id, id⟩
  fKilledLoading := false
  load := sampleLoad blocks
  mark := []
  fLooksAgain := true
  discard := []

def killedStart (blocks : List CBlock) : StartInput :=
  { idealStart blocks with apply := { ApplyFaults.ideal with clean := [.kill (fun _ => false)] } }

def wrongDb : BlockDb where
  records := [some (sampleRecord 1 0 0), some (sampleRecord 7 1 50000)]
  hashBestChain := some 7
  hashSyncCheckpoint := some 1

def killedDir : DataDir :=
  ((killedStart [forgedBlock]).startUp sampleEnv length (fun _ => some wrongDb) onceDir).2

/-- The next start-up passes on the moved block file, and its chain fails the verification that was
not made. -/
theorem killed_after_moves :
    let result := (idealStart [forgedBlock]).startUp sampleEnv length (fun _ => some wrongDb)
      killedDir
    StartRun sampleEnv length (fun _ => some wrongDb) (fun _ _ => True) killedDir ∧
      result.1 = .passed ∧
      (((idealStart [forgedBlock]).loaded sampleEnv (fun _ => some wrongDb) killedDir).map
        (fun L => (StartInput.verdict sampleEnv L).isOk)) = some false ∧
      ¬ NoneUnverified result.2 := by
  refine ⟨.startUp _ (.fresh fun _ _ => rfl) trivial, by decide +kernel, by decide +kernel, ?_⟩
  intro hnone
  have hmoved := hnone firstBlockFile (by decide +kernel)
  revert hmoved
  decide +kernel

theorem startUp_verified_staged :
    let dir := ((idealStart [checkpointBlock]).startUp sampleEnv length
      (fun _ => some (checkpointDb [] firstCheckpoint)) onceDir).2
    dir.files firstBlockFile = some "new".toList ∧ NoneUnverified dir := by
  refine ⟨by decide +kernel, startUp_verified (.fresh fun _ _ => rfl) ?_ (by decide +kernel)⟩
  constructor
  · exact fun f hf => absurd hf not_mem_nil
  intro fFetched m hcheck
  obtain ⟨rfl, rfl⟩ := SnapCheck.apply.inj hcheck
  constructor
  · rfl
  · decide +kernel
  · exact fun f hf => absurd hf not_mem_nil
  · rfl
  have hloads : ((idealStart [checkpointBlock]).loaded sampleEnv
      (fun _ => some (checkpointDb [] firstCheckpoint))
      (applySnapshotIfPresent length (idealStart [checkpointBlock]).apply
        ((idealStart [checkpointBlock]).wiped onceDir).2).dir).isSome = true := by
    decide +kernel
  obtain ⟨L, hload⟩ := Option.isSome_iff_exists.mp hloads
  exact ⟨L, hload, fun _ => rfl⟩

end HoboNickels

import HoboNickels.Snapshot

/-!
# Fetching a snapshot from a peer

The client of the snapshot protocol. The node commits to the first peer that offers a usable
manifest, asks for one chunk after the other, appends each to its file, compares the hash of a file
when it is complete, and writes the marker READY after the last one. A chunk is accepted when peer,
file name and offset are the expected ones.

Nothing asks that the names of a manifest differ: the second listing of a file overwrites what the
first one verified (`ready_unverified`). In every run in which the node commits only to manifests of
distinct files, none of them left over in the staging directory, the marker means that every hash
was met (`fetch_verified`).
-/

namespace HoboNickels

open FileOps List ManifestFile

def snapChunkBytes : Nat := 900000
def snapPeerTimeout : Int := 20
def snapGiveupSeconds : Int := 600

/-- `MAX_SIZE` of `serialize.h`; longer strings and vectors throw when they are read. -/
def maxSize : Nat := 0x02000000

structure CSnapFetch where
  fWanted : Bool
  fDone : Bool
  /-- The peer that the node has committed to; `-1` is `none`. -/
  nPeer : Option Nat
  nWantStart : Int
  nLastProgress : Int
  nHeight : Int
  strManifest : Str
  vFiles : List ManifestFile
  nCurFile : Nat
  nCurOffset : Nat
  setAsked : List Nat
  deriving DecidableEq, Repr

def CSnapFetch.initial : CSnapFetch where
  fWanted := false
  fDone := false
  nPeer := none
  nWantStart := 0
  nLastProgress := 0
  nHeight := -1
  strManifest := []
  vFiles := []
  nCurFile := 0
  nCurOffset := 0
  setAsked := []

inductive SnapRequest where
  | getsnapshot
  | getsnapchunk (strFile : Str) (nOffset : BitVec 32) (nLen : Nat)
  deriving DecidableEq, Repr

structure SnapClient where
  snap : CSnapFetch
  dir : DataDir
  sent : List (Nat × SnapRequest)

/-! ## The operations -/

namespace SnapClient

/-- `SnapReset`; the removal of the staging directory may fail after part of it. -/
def reset (reached : Path → Bool) (c : SnapClient) : SnapClient :=
  { c with
    snap := { c.snap with
      nPeer := none, nHeight := -1, strManifest := [], vFiles := [], nCurFile := 0
      nCurOffset := 0, setAsked := [] }
    dir := c.dir.drop (fun p => underSnapshot p && reached p) }

def want (now : Int) (c : SnapClient) : SnapClient :=
  if c.snap.fDone then c
  else { c with snap := { c.snap with fWanted := true, nWantStart := now } }

def requestChunk (peer : Nat) (c : SnapClient) : SnapClient :=
  match c.snap.vFiles[c.snap.nCurFile]? with
  | none => c
  | some f =>
    { c with sent := c.sent ++
        [(peer, .getsnapchunk f.name (BitVec.ofNat 32 c.snap.nCurOffset) snapChunkBytes)] }

end SnapClient

/-- The loop of `SnapParseManifest`: whether the manifest is accepted, and what has been stored
when it is left. -/
def snapParseFrom (m : Manifest) : List Str → Bool × Manifest
  | [] => (m.usable, m)
  | line :: rest =>
    if (getWord line).1 = "file".toList ∧ !snapNameOk (getFile (getWord line).2).name then
      (false, m)
    else snapParseFrom (m.addLine line) rest

def snapParseManifest (text : Str) : Bool × Manifest := snapParseFrom ⟨-1, []⟩ (getLines text)

/-- A message or a turn of the message loop, with the clock, whether directories and files can be
opened, and how far a removal comes. -/
inductive SnapEvent where
  | want (now : Int)
  | snapshot (peer : Nat) (strManifest : Str) (now : Int) (fCreated : Bool) (reached : Path → Bool)
  | snapchunk (peer : Nat) (strFile : Str) (nOffset : BitVec 32) (data : Str) (now : Int)
      (fOpened : Bool) (reached : Path → Bool)
  | send (peer : Nat) (fConnected fDisconnect : Bool) (now : Int) (reached : Path → Bool)

namespace SnapClient

def onSnapshot (peer : Nat) (strManifest : Str) (now : Int) (fCreated : Bool)
    (reached : Path → Bool) (c : SnapClient) : SnapClient :=
  if !c.snap.fWanted || c.snap.fDone || c.snap.nPeer.isSome then c
  else if strManifest.length > maxSize ∨ strManifest = [] then c
  else
    let parsed := snapParseManifest strManifest
    let c := { c with
      snap := { c.snap with vFiles := parsed.2.files, nHeight := parsed.2.nHeight } }
    if !parsed.1 then c
    else
      let c := { c with snap := { c.snap with nPeer := some peer, strManifest := strManifest } }
      if !fCreated then c.reset reached
      else
        requestChunk peer { c with
          snap := { c.snap with nCurFile := 0, nCurOffset := 0, nLastProgress := now } }

/-- All files fetched and verified: stage the manifest and the marker. -/
def stageReady (c : SnapClient) : SnapClient :=
  { c with
    snap := { c.snap with fDone := true }
    dir := (c.dir.put manifestPath c.snap.strManifest false).put readyPath "1".toList false }

/-- The end of a file: compare its hash and go on to the next one. -/
def finishFile (sha256 : Str → Uint256) (peer : Nat) (f : ManifestFile) (reached : Path → Bool)
    (c : SnapClient) : SnapClient :=
  if hashSnapshotFile sha256 ApplyFaults.ideal.reads c.dir f.source ≠ f.hash then c.reset reached
  else
    let c := { c with snap := { c.snap with nCurFile := c.snap.nCurFile + 1, nCurOffset := 0 } }
    if c.snap.nCurFile ≥ c.snap.vFiles.length then c.stageReady else c.requestChunk peer

/-- The chunk is written: at offset zero the file is created anew, and otherwise appended to. -/
def writeChunk (f : ManifestFile) (nOffset : BitVec 32) (data : Str) (now : Int) (c : SnapClient) :
    SnapClient :=
  let old := if nOffset.toInt = 0 then [] else (c.dir.files f.source).getD []
  { c with
    snap := { c.snap with
      nCurOffset := (c.snap.nCurOffset + data.length) % 2 ^ 64, nLastProgress := now }
    dir := c.dir.put f.source (old ++ data) false }

def onSnapchunk (sha256 : Str → Uint256) (peer : Nat) (strFile : Str) (nOffset : BitVec 32)
    (data : Str) (now : Int) (fOpened : Bool) (reached : Path → Bool) (c : SnapClient) :
    SnapClient :=
  if !c.snap.fWanted || c.snap.fDone || c.snap.nPeer != some peer then c
  else if strFile.length > maxSize ∨ data.length > maxSize then c
  else
    match c.snap.vFiles[c.snap.nCurFile]? with
    | none => c
    | some f =>
      -- not what we asked for; the offset is converted to 64 bits without a sign
      if strFile ≠ f.name ∨ (nOffset.toInt % 2 ^ 64).toNat ≠ c.snap.nCurOffset then c
      else if !fOpened then c.reset reached
      else
        let c := c.writeChunk f nOffset data now
        if data = [] ∨ c.snap.nCurOffset ≥ f.size then c.finishFile sha256 peer f reached
        else c.requestChunk peer

def onSend (peer : Nat) (fConnected fDisconnect : Bool) (now : Int) (reached : Path → Bool)
    (c : SnapClient) : SnapClient :=
  if !c.snap.fWanted || c.snap.fDone then c
  else
    match c.snap.nPeer with
    | none =>
      if c.snap.nWantStart > 0 ∧ now - c.snap.nWantStart > snapGiveupSeconds then
        let c := c.reset reached
        { c with snap := { c.snap with fWanted := false } }
      else if fConnected && !fDisconnect && !c.snap.setAsked.contains peer then
        { c with
          snap := { c.snap with setAsked := peer :: c.snap.setAsked }
          sent := c.sent ++ [(peer, .getsnapshot)] }
      else c
    | some committed =>
      if committed = peer ∧ now - c.snap.nLastProgress > snapPeerTimeout then c.reset reached
      else c

def step (sha256 : Str → Uint256) : SnapEvent → SnapClient → SnapClient
  | .want now, c => c.want now
  | .snapshot peer text now fCreated reached, c => c.onSnapshot peer text now fCreated reached
  | .snapchunk peer strFile nOffset data now fOpened reached, c =>
    c.onSnapchunk sha256 peer strFile nOffset data now fOpened reached
  | .send peer fConnected fDisconnect now reached, c =>
    c.onSend peer fConnected fDisconnect now reached

end SnapClient

/-! ## Names and paths -/

theorem components_ne_nil (s : Str) : components s ≠ [] := by
  fun_cases components s <;> simp

/-- The first part of a name starts the name. -/
theorem components_first {s first : Str} {a : Char} {rest : List Str}
    (h : components s = (a :: first) :: rest) :
    ∃ t, s = a :: t ∧ ∃ rest', components t = first :: rest' := by
  revert h
  fun_cases components s with
  | case3 _ s _ hnil => exact absurd hnil (components_ne_nil s)
  | case4 _ t _ _ _ ht =>
    rintro ⟨⟩
    exact ⟨t, rfl, _, ht⟩
  | _ => simp

theorem hasDotDot_cons {s : Str} (h : hasDotDot s = true) (c : Char) :
    hasDotDot (c :: s) = true := by
  unfold hasDotDot
  split <;> simp_all

theorem dotDot_of_mem_components {s : Str} (h : "..".toList ∈ components s) :
    hasDotDot s = true := by
  fun_induction components s with
  | case1 => simp at h
  | case2 s ih => exact hasDotDot_cons (ih (by simpa using h)) _
  | case3 _ s _ hnil => exact absurd hnil (components_ne_nil s)
  | case4 c s _ first rest hs ih =>
    rcases mem_cons.mp h with hdots | hrest
    · cases (hdots : ['.', '.'] = c :: first)
      obtain ⟨_, rfl, -⟩ := components_first hs
      rfl
    · rw [hs] at ih
      exact hasDotDot_cons (ih (mem_cons_of_mem _ hrest)) _

theorem foldl_pushComponent : ∀ (comps : List Str) (p : Path), "..".toList ∉ comps →
    ∃ rest, comps.foldl pushComponent p = p ++ rest := by
  intro comps
  induction comps with
  | nil => intro p _; exact ⟨[], by simp⟩
  | cons comp comps ih =>
    intro p hup
    rw [mem_cons, not_or] at hup
    obtain ⟨rest, hrest⟩ := ih (pushComponent p comp) hup.2
    rw [foldl_cons, hrest, pushComponent]
    split
    · exact ⟨rest, rfl⟩
    · rw [if_neg (Ne.symm hup.1)]
      exact ⟨comp :: rest, by simp⟩

theorem source_of_snapNameOk {f : ManifestFile} (h : snapNameOk f.name = true) :
    f.source ≠ manifestPath ∧ f.source ≠ readyPath := by
  simp only [snapNameOk, Bool.and_eq_true, Bool.not_eq_true', Bool.or_eq_true,
    isPrefixOf_iff_prefix] at h
  obtain ⟨⟨⟨-, hdots⟩, -⟩, hstart⟩ := h
  have hup : "..".toList ∉ components f.name := by
    intro hin
    rw [dotDot_of_mem_components hin] at hdots
    cases hdots
  -- the first part is the index directory or starts with `blk`
  obtain ⟨first, rest, hcomp, hkind⟩ : ∃ first rest, components f.name = first :: rest ∧
      (("blk".toList <+: first) ∨ first = "txleveldb".toList) := by
    rcases hstart with ⟨t, ht⟩ | ⟨t, ht⟩
    · rcases hct : components t with _ | ⟨a, r⟩
      · exact absurd hct (components_ne_nil t)
      refine ⟨"blk".toList ++ a, r, ?_, .inl (prefix_append _ _)⟩
      rw [← ht]
      simp [components, hct]
    · refine ⟨"txleveldb".toList, components t, ?_, .inr rfl⟩
      rw [← ht]
      simp [components]
  rw [hcomp, mem_cons, not_or] at hup
  have hpush : pushComponent snapshotDir first = snapshotDir ++ [first] := by
    have hne : ¬ (first = [] ∨ first = ".".toList) := by
      rintro (rfl | rfl)
      all_goals
        rcases hkind with hblk | htx
        · exact absurd hblk (by decide)
        · exact absurd htx (by decide)
    rw [pushComponent, if_neg hne, if_neg (Ne.symm hup.1)]
  obtain ⟨more, hmore⟩ := foldl_pushComponent rest (snapshotDir ++ [first]) hup.2
  have hsource : f.source = "snapshot".toList :: first :: more := by
    rw [source, joinPath, hcomp, foldl_cons, hpush, hmore]
    rfl
  rw [hsource]
  constructor
  all_goals
    intro heq
    obtain ⟨rfl, -⟩ := cons.inj (cons.inj heq).2
    rcases hkind with hblk | htx
    · exact absurd hblk (by decide)
    · exact absurd htx (by decide)

theorem snapParseFrom_accepts (lines : List Str) {m m' : Manifest}
    (hm : (∀ f ∈ m.files, snapNameOk f.name = true)) (h : snapParseFrom m lines = (true, m')) :
    m' = lines.foldl Manifest.addLine m ∧ m'.usable = true ∧ ∀ f ∈ m'.files, snapNameOk f.name =
      true := by
  fun_induction snapParseFrom with
  | case1 =>
    obtain ⟨husable, rfl⟩ := Prod.mk.inj h
    exact ⟨rfl, husable, hm⟩
  | case2 => cases h
  | case3 m line rest hname ih =>
    apply ih _ h
    intro f
    fun_cases Manifest.addLine with
    | case2 s hword =>
      intro hf
      rcases mem_append.mp hf with hf | hf
      · exact hm f hf
      · rw [mem_singleton.mp hf]
        by_contra hbad
        rw [hword] at hname
        exact hname ⟨rfl, by simpa using hbad⟩
    | _ => exact hm f

theorem snapParseManifest_accepts {text : Str} (h : (snapParseManifest text).1 = true) :
    (snapParseManifest text).2 = parseManifest text ∧ (parseManifest text).files ≠ [] ∧
      ∀ f ∈ (parseManifest text).files, snapNameOk f.name = true := by
  obtain ⟨heq, husable, hnames⟩ := snapParseFrom_accepts (getLines text)
    (fun f hf => absurd hf not_mem_nil)
    (show snapParseFrom ⟨-1, []⟩ (getLines text) = (true, (snapParseManifest text).2) from
      Prod.ext h rfl)
  have hsame : (snapParseManifest text).2 = parseManifest text := heq
  rw [hsame] at husable hnames
  refine ⟨hsame, ?_, hnames⟩
  intro hnil
  simp [Manifest.usable, hnil] at husable

structure SnapChunk where
  peer : Nat
  strFile : Str
  nOffset : BitVec 32
  data : Str

def SnapEvent.commits (c : SnapClient) : SnapEvent → Bool
  | .snapshot _ text _ fCreated _ =>
    c.snap.fWanted && !c.snap.fDone && !c.snap.nPeer.isSome
      && decide (text.length ≤ maxSize) && text != [] && (snapParseManifest text).1 && fCreated
  | _ => false

def SnapEvent.log (c : SnapClient) (ev : SnapEvent) (chunks : List SnapChunk) : List SnapChunk :=
  if ev.commits c then []
  else
    match ev with
    | .snapchunk peer strFile nOffset data _ _ _ => chunks ++ [⟨peer, strFile, nOffset, data⟩]
    | _ => chunks

inductive SnapRun (sha256 : Str → Uint256) (ok : SnapClient → SnapEvent → Prop) :
    SnapClient → List SnapChunk → Prop
  | start (dir : DataDir) : SnapRun sha256 ok ⟨.initial, dir, []⟩ []
  | step {c : SnapClient} {chunks : List SnapChunk} (ev : SnapEvent) :
      SnapRun sha256 ok c chunks → ok c ev → SnapRun sha256 ok (c.step sha256 ev) (ev.log c chunks)

section

variable (sha256 : Str → Uint256) (c : SnapClient) (chunks : List SnapChunk)

def FreshManifest (dir : DataDir) (text : Str) : Prop :=
  ((parseManifest text).files.map source).Nodup ∧
    ∀ f ∈ (parseManifest text).files, dir.files f.source = none

def CommitsFresh : SnapEvent → Prop
  | .snapshot peer text now fCreated reached =>
    (SnapEvent.snapshot peer text now fCreated reached).commits c = true → FreshManifest c.dir text
  | _ => True

/-! ## What holds along a run -/

def InOrder : Nat → List SnapChunk → Prop
  | _, [] => True
  | offset, k :: rest => k.nOffset.toInt = offset ∧ InOrder (offset + k.data.length) rest

theorem inOrder_append (offset : Nat) (k : SnapChunk) (horder : InOrder offset chunks)
    (hk : k.nOffset.toInt = (offset + (chunks.flatMap SnapChunk.data).length : Nat)) : InOrder
    offset (chunks ++ [k]) := by
  induction chunks generalizing offset k with
  | nil => exact ⟨hk, trivial⟩
  | cons first rest ih =>
    refine ⟨horder.1, ih _ k horder.2 ?_⟩
    rw [hk, flatMap_cons, length_append, Nat.add_assoc]

def staged (dir : DataDir) (f : ManifestFile) : Str := (dir.files f.source).getD []

def FetchedFrom (dir : DataDir) (chunks : List SnapChunk) (peer : Nat) (f : ManifestFile) : Prop :=
  ∃ taken : List SnapChunk, taken.Sublist chunks ∧
    (∀ k ∈ taken, k.peer = peer ∧ k.strFile = f.name) ∧ InOrder 0 taken ∧
    staged dir f = taken.flatMap SnapChunk.data

def Verified (dir : DataDir) (f : ManifestFile) : Prop :=
  ∃ contents, dir.files f.source = some contents ∧ sha256 contents = f.hash

structure SnapClient.Committed (peer : Nat) : Prop where
  manifest : c.snap.vFiles = (parseManifest c.snap.strManifest).files
  names : ∀ f ∈ c.snap.vFiles, snapNameOk f.name = true
  distinct : (c.snap.vFiles.map source).Nodup
  verified : ∀ i f, i < c.snap.nCurFile → c.snap.vFiles[i]? = some f → Verified sha256 c.dir f
  untouched : ∀ i f, c.snap.nCurFile < i → c.snap.vFiles[i]? = some f →
    c.dir.files f.source = none
  current : ∃ f, c.snap.vFiles[c.snap.nCurFile]? = some f ∧ FetchedFrom c.dir chunks peer f ∧
    (staged c.dir f).length = c.snap.nCurOffset
  offset : c.snap.nCurOffset < 2 ^ 31 + maxSize

structure SnapClient.Ready : Prop where
  manifest : c.snap.vFiles = (parseManifest c.snap.strManifest).files
  staged_manifest : c.dir.files manifestPath = some c.snap.strManifest
  marker : (c.dir.files readyPath).isSome = true
  verified : ∀ f ∈ c.snap.vFiles, Verified sha256 c.dir f

structure SnapClient.FetchOk : Prop where
  committed : ∀ peer, c.snap.fDone = false → c.snap.nPeer = some peer →
    c.Committed sha256 chunks peer
  ready : c.snap.fDone = true → c.Ready sha256

end

namespace SnapClient

variable {sha256 : Str → Uint256} {c c' : SnapClient} {chunks chunks' : List SnapChunk}

theorem FetchOk.of_uncommitted (hdone : c.snap.fDone = false) (hpeer : c.snap.nPeer = none) :
    c.FetchOk sha256 chunks := by
  constructor
  · intro peer _ hp
    rw [hpeer] at hp
    cases hp
  · intro hd
    rw [hdone] at hd
    cases hd

variable {peer : Nat} {f : ManifestFile}

theorem FetchOk.of_committed (hdone : c.snap.fDone = false)
    (hpeer : c.snap.nPeer = some peer) (h : c.Committed sha256 chunks peer) :
    c.FetchOk sha256 chunks := by
  constructor
  · intro q _ hq
    rw [hpeer] at hq
    cases hq
    exact h
  · intro hd
    rw [hdone] at hd
    cases hd

theorem FetchedFrom.of_empty {dir : DataDir}
    (hempty : staged dir f = []) : FetchedFrom dir chunks peer f :=
  ⟨[], nil_sublist _, fun _ hk => absurd hk not_mem_nil, trivial, hempty⟩

theorem FetchOk.congr (h : c.FetchOk sha256 chunks) (hmore : chunks.Sublist chunks')
    (hdir : c'.dir = c.dir) (hdone : c'.snap.fDone = c.snap.fDone)
    (hpeer : c'.snap.nPeer = c.snap.nPeer)
    (hfile : c.snap.nPeer.isSome = true ∨ c.snap.fDone = true →
      c'.snap.vFiles = c.snap.vFiles ∧ c'.snap.strManifest = c.snap.strManifest ∧
        c'.snap.nCurFile = c.snap.nCurFile ∧ c'.snap.nCurOffset = c.snap.nCurOffset) :
    c'.FetchOk sha256 chunks' := by
  constructor
  · intro peer hd hp
    rw [hdone] at hd
    rw [hpeer] at hp
    obtain ⟨hv, hm, hf, ho⟩ := hfile (.inl (by simp [hp]))
    have hc := h.committed peer hd hp
    obtain ⟨f, hcur, ⟨taken, hsub, hfrom, horder, hdata⟩, hlen⟩ := hc.current
    constructor
    · rw [hv, hm]; exact hc.manifest
    · rw [hv]; exact hc.names
    · rw [hv]; exact hc.distinct
    · rw [hv, hf, hdir]; exact hc.verified
    · rw [hv, hf, hdir]; exact hc.untouched
    · rw [hv, hf, hdir, ho]
      exact ⟨f, hcur, ⟨taken, hsub.trans hmore, hfrom, horder, hdata⟩, hlen⟩
    · rw [ho]; exact hc.offset
  · intro hd
    rw [hdone] at hd
    obtain ⟨hv, hm, -, -⟩ := hfile (.inr hd)
    have hr := h.ready hd
    constructor
    · rw [hv, hm]; exact hr.manifest
    · rw [hdir, hm]; exact hr.staged_manifest
    · rw [hdir]; exact hr.marker
    · rw [hv, hdir]; exact hr.verified

theorem FetchOk.requestChunk (h : c.FetchOk sha256 chunks) (peer : Nat) :
    (c.requestChunk peer).FetchOk sha256 chunks := by
  unfold SnapClient.requestChunk
  split
  · exact h
  · exact h.congr (Sublist.refl _) rfl rfl rfl (fun _ => ⟨rfl, rfl, rfl, rfl⟩)

theorem FetchOk.reset (reached : Path → Bool) (hdone : c.snap.fDone = false) :
    (c.reset reached).FetchOk sha256 chunks :=
  FetchOk.of_uncommitted hdone rfl

theorem FetchOk.onSend (h : c.FetchOk sha256 chunks) (peer : Nat) (fConnected fDisconnect : Bool)
    (now : Int) (reached : Path → Bool) :
    (c.onSend peer fConnected fDisconnect now reached).FetchOk sha256 chunks := by
  have hdone : ¬ (!c.snap.fWanted || c.snap.fDone) = true → c.snap.fDone = false := by simp
  fun_cases SnapClient.onSend with
  | case2 hactive => exact FetchOk.of_uncommitted (hdone hactive) rfl
  | case3 hactive hpeer => exact FetchOk.of_uncommitted (hdone hactive) hpeer
  | case5 hactive => exact FetchOk.reset reached (hdone hactive)
  | _ => exact h

theorem FetchOk.onSnapshot (h : c.FetchOk sha256 chunks) {text : Str} {now : Int} {fCreated : Bool}
    {reached : Path → Bool} (hfresh : CommitsFresh c (.snapshot peer text now fCreated reached)) :
    (c.onSnapshot peer text now fCreated reached).FetchOk sha256
      ((SnapEvent.snapshot peer text now fCreated reached).log c chunks) := by
  unfold SnapClient.onSnapshot SnapEvent.log
  split
  next hidle =>
    have hno : (SnapEvent.snapshot peer text now fCreated reached).commits c = false := by
      grind [SnapEvent.commits]
    simp only [hno, Bool.false_eq_true, if_false]
    exact h
  next hactive =>
    simp only [Bool.or_eq_true, Bool.not_eq_true', not_or, Bool.not_eq_true,
      Option.isSome_eq_false_iff, Option.isNone_iff_eq_none, Bool.not_eq_false] at hactive
    obtain ⟨⟨hwanted, hdone⟩, hpeer⟩ := hactive
    split
    · exact FetchOk.of_uncommitted hdone hpeer
    rename_i htext
    simp only
    split
    · exact FetchOk.of_uncommitted hdone hpeer
    rename_i hparsed
    simp only [Bool.not_eq_true', Bool.not_eq_false] at hparsed
    split
    · exact FetchOk.reset reached hdone
    rename_i hcreated
    simp only [Bool.not_eq_true', Bool.not_eq_false] at hcreated
    rw [not_or, not_lt] at htext
    have hcommits : (SnapEvent.snapshot peer text now fCreated reached).commits c = true := by
      simp [SnapEvent.commits, hwanted, hdone, hpeer, htext.1, htext.2, hparsed, hcreated]
    obtain ⟨hdistinct, hnone⟩ := hfresh hcommits
    obtain ⟨hsame, hsome, hnames⟩ := snapParseManifest_accepts hparsed
    apply FetchOk.requestChunk
    refine FetchOk.of_committed hdone rfl ?_
    rcases hfiles : (parseManifest text).files with _ | ⟨f, _⟩
    · exact absurd hfiles hsome
    have hf : f ∈ (parseManifest text).files := by
      rw [hfiles]
      exact mem_cons_self
    have hempty : staged c.dir f = [] := by
      rw [staged, hnone f hf]
      rfl
    constructor
    · rw [hsame]
    · rw [hsame]; exact hnames
    · rw [hsame]; exact hdistinct
    · intro i g hi _
      exact absurd hi (Nat.not_lt_zero i)
    · intro i g _ hg
      rw [hsame] at hg
      exact hnone g (mem_of_getElem? hg)
    · refine ⟨f, ?_, FetchedFrom.of_empty hempty, ?_⟩
      · rw [hsame, hfiles]
        rfl
      · rw [hempty]
        rfl
    · exact Nat.add_pos_left (by decide) _

theorem Committed.source_ne (h : c.Committed sha256 chunks peer) {i j : Nat}
    {g : ManifestFile} (hf : c.snap.vFiles[i]? = some f) (hg : c.snap.vFiles[j]? = some g)
    (hne : i ≠ j) : f.source ≠ g.source := by
  intro heq
  have hlen := (List.getElem?_eq_some_iff.mp hf).1
  refine hne ((List.getElem?_inj (by simpa using hlen) h.distinct).mp ?_)
  simp [hf, hg, heq]

theorem Committed.writeChunk (h : c.Committed sha256 chunks peer)
    (hcur : c.snap.vFiles[c.snap.nCurFile]? = some f) {nOffset : BitVec 32} {data : Str} (now : Int)
    (hsize : data.length ≤ maxSize) (hoffset : (nOffset.toInt % 2 ^ 64).toNat = c.snap.nCurOffset) :
    (c.writeChunk f nOffset data now).Committed sha256 (chunks ++ [⟨peer, f.name, nOffset, data⟩])
      peer := by
  obtain ⟨_, hcur', ⟨taken, hsub, hfrom, horder, hdata⟩, hlen⟩ := h.current
  rw [hcur] at hcur'
  cases hcur'
  have hbound := h.offset
  have hmax : maxSize = 2 ^ 25 := rfl
  have hsmall : nOffset.toInt < 2 ^ 31 := BitVec.toInt_lt
  have hlarge : -2 ^ 31 ≤ nOffset.toInt := BitVec.le_toInt nOffset
  -- a negative offset is far beyond what has been fetched
  have hexact : nOffset.toInt = c.snap.nCurOffset := by omega
  have hcontents : (if nOffset.toInt = 0 then [] else (c.dir.files f.source).getD []) ++ data
      = staged c.dir f ++ data := by
    split
    next hzero =>
      have hnil : staged c.dir f = [] := length_eq_zero_iff.mp (by omega)
      rw [hnil]
    · rfl
  have hstaged : staged (c.writeChunk f nOffset data now).dir f = staged c.dir f ++ data := by
    rw [← hcontents]
    simp [staged, SnapClient.writeChunk, Volume.put]
  have hother : ∀ g : ManifestFile, g.source ≠ f.source →
      (c.writeChunk f nOffset data now).dir.files g.source = c.dir.files g.source := by
    intro g hg
    simp [SnapClient.writeChunk, Volume.put, hg]
  have hnew : (c.writeChunk f nOffset data now).snap.nCurOffset
      = c.snap.nCurOffset + data.length := by
    change (c.snap.nCurOffset + data.length) % 2 ^ 64 = _
    omega
  constructor
  · exact h.manifest
  · exact h.names
  · exact h.distinct
  · intro i g hi hg
    obtain ⟨contents, hfile, hhash⟩ := h.verified i g hi hg
    refine ⟨contents, ?_, hhash⟩
    rw [hother g (h.source_ne hg hcur (Nat.ne_of_lt hi))]
    exact hfile
  · intro i g hi hg
    rw [hother g (h.source_ne hg hcur (Nat.ne_of_gt hi))]
    exact h.untouched i g hi hg
  · refine ⟨f, hcur, ⟨taken ++ [⟨peer, f.name, nOffset, data⟩], ?_, ?_, ?_, ?_⟩, ?_⟩
    · exact hsub.append (Sublist.refl _)
    · intro k hk
      rcases mem_append.mp hk with hk | hk
      · exact hfrom k hk
      · rw [mem_singleton.mp hk]
        exact ⟨rfl, rfl⟩
    · apply inOrder_append taken 0 _ horder
      rw [← hdata, Nat.zero_add, hlen]
      exact hexact
    · rw [hstaged, hdata]
      simp
    · rw [hstaged, hnew, length_append, hlen]
  · omega

theorem ready_stageReady (hmanifest : c.snap.vFiles = (parseManifest c.snap.strManifest).files)
    (hnames : ∀ f ∈ c.snap.vFiles, snapNameOk f.name = true)
    (hall : ∀ f ∈ c.snap.vFiles, Verified sha256 c.dir f) : c.stageReady.Ready sha256 := by
  constructor
  · exact hmanifest
  · have hne : manifestPath ≠ readyPath := by decide
    simp [SnapClient.stageReady, Volume.put, hne]
  · simp [SnapClient.stageReady, Volume.put]
  intro f hf
  obtain ⟨hm, hr⟩ := source_of_snapNameOk (hnames f hf)
  obtain ⟨contents, hfile, hhash⟩ := hall f hf
  refine ⟨contents, ?_, hhash⟩
  simp only [SnapClient.stageReady, Volume.put]
  rw [Function.update_of_ne hr, Function.update_of_ne hm]
  exact hfile

theorem Committed.nextFile (h : c.Committed sha256 chunks peer) {g : ManifestFile}
    (hupto : ∀ i f, i < c.snap.nCurFile + 1 → c.snap.vFiles[i]? = some f →
      Verified sha256 c.dir f) (hnext : c.snap.vFiles[c.snap.nCurFile + 1]? = some g) :
    { c with snap := { c.snap with nCurFile := c.snap.nCurFile + 1, nCurOffset := 0 } }.Committed
      sha256 chunks peer := by
  have hempty : staged c.dir g = [] := by
    rw [staged, h.untouched _ g (Nat.lt_succ_self _) hnext]
    rfl
  constructor
  · exact h.manifest
  · exact h.names
  · exact h.distinct
  · exact hupto
  · intro i k hi hk
    exact h.untouched i k (Nat.lt_of_succ_lt hi) hk
  · refine ⟨g, hnext, FetchedFrom.of_empty hempty, ?_⟩
    rw [hempty]
    rfl
  · exact Nat.add_pos_left (by decide) _

theorem FetchOk.finishFile (h : c.Committed sha256 chunks peer) (hdone : c.snap.fDone = false)
    (hpeer : c.snap.nPeer = some peer) (hcur : c.snap.vFiles[c.snap.nCurFile]? = some f)
    (hthere : (c.dir.files f.source).isSome = true) (reached : Path → Bool) :
    (c.finishFile sha256 peer f reached).FetchOk sha256 chunks := by
  unfold SnapClient.finishFile
  split
  · exact FetchOk.reset reached hdone
  rename_i hhash
  obtain ⟨contents, hfile⟩ := Option.isSome_iff_exists.mp hthere
  have hthis : Verified sha256 c.dir f := by
    refine ⟨contents, hfile, ?_⟩
    rw [not_not, hashSnapshotFile, hfile] at hhash
    exact hhash
  have hupto : ∀ i g, i < c.snap.nCurFile + 1 → c.snap.vFiles[i]? = some g →
      Verified sha256 c.dir g := by
    intro i g hi hg
    rcases Nat.lt_succ_iff_lt_or_eq.mp hi with hlt | heq
    · exact h.verified i g hlt hg
    · rw [heq, hcur] at hg
      cases hg
      exact hthis
  simp only
  split
  next hlast =>
    constructor
    · intro q hd _
      cases hd
    intro _
    refine ready_stageReady h.manifest h.names fun g hg => ?_
    obtain ⟨i, hi⟩ := List.getElem?_of_mem hg
    have hlt : i < c.snap.vFiles.length := (List.getElem?_eq_some_iff.mp hi).1
    exact hupto i g (by omega) hi
  next hmore =>
    obtain ⟨g, hg⟩ : ∃ g, c.snap.vFiles[c.snap.nCurFile + 1]? = some g :=
      ⟨_, List.getElem?_eq_getElem (not_le.mp hmore)⟩
    apply FetchOk.requestChunk
    exact FetchOk.of_committed hdone hpeer (h.nextFile hupto hg)

theorem FetchOk.onSnapchunk (h : c.FetchOk sha256 chunks) (peer : Nat) (strFile : Str)
    (nOffset : BitVec 32) (data : Str) (now : Int) (fOpened : Bool) (reached : Path → Bool) :
    (c.onSnapchunk sha256 peer strFile nOffset data now fOpened reached).FetchOk sha256
      (chunks ++ [⟨peer, strFile, nOffset, data⟩]) := by
  have hignored : c.FetchOk sha256 (chunks ++ [⟨peer, strFile, nOffset, data⟩]) :=
    h.congr (sublist_append_left _ _) rfl rfl rfl (fun _ => ⟨rfl, rfl, rfl, rfl⟩)
  have hactive : ¬ (!c.snap.fWanted || c.snap.fDone || c.snap.nPeer != some peer) = true →
      c.snap.fDone = false ∧ c.snap.nPeer = some peer := by
    simp
    tauto
  fun_cases SnapClient.onSnapchunk with
  | case5 hbusy => exact FetchOk.reset reached (hactive hbusy).1
  | case6 hbusy hsize f hcur hexpected | case7 hbusy hsize f hcur hexpected =>
    obtain ⟨hdone, hpeer⟩ := hactive hbusy
    rw [not_or, not_not, not_not] at hexpected
    obtain ⟨rfl, hoffset⟩ := hexpected
    rw [not_or, not_lt, not_lt] at hsize
    have hwritten := (h.committed peer hdone hpeer).writeChunk hcur now hsize.2 hoffset
    first
    | exact FetchOk.finishFile hwritten hdone hpeer hcur
        (by simp [SnapClient.writeChunk, Volume.put]) reached
    | exact (FetchOk.of_committed (c := c.writeChunk ..) hdone hpeer hwritten).requestChunk peer
  | _ => exact hignored

theorem FetchOk.want (h : c.FetchOk sha256 chunks) (now : Int) :
    (c.want now).FetchOk sha256 chunks := by
  unfold SnapClient.want
  split
  · exact h
  · exact h.congr (Sublist.refl _) rfl rfl rfl (fun _ => ⟨rfl, rfl, rfl, rfl⟩)

theorem FetchOk.step (h : c.FetchOk sha256 chunks) {ev : SnapEvent} (hok : CommitsFresh c ev) :
    (c.step sha256 ev).FetchOk sha256 (ev.log c chunks) := by
  cases ev with
  | want now => exact h.want now
  | snapshot peer text now fCreated reached => exact h.onSnapshot hok
  | snapchunk peer strFile nOffset data now fOpened reached =>
    exact h.onSnapchunk peer strFile nOffset data now fOpened reached
  | send peer fConnected fDisconnect now reached =>
    exact h.onSend peer fConnected fDisconnect now reached

/-- The file being fetched is what the committed peer has sent of it, and a marker stands for a
snapshot whose hashes were met. -/
structure StagesVerified (sha256 : Str → Uint256) (c : SnapClient) (chunks : List SnapChunk) :
    Prop where
  current : ∀ peer, c.snap.fDone = false → c.snap.nPeer = some peer →
    ∃ f, c.snap.vFiles[c.snap.nCurFile]? = some f ∧ FetchedFrom c.dir chunks peer f ∧
      (staged c.dir f).length = c.snap.nCurOffset
  ready : c.snap.fDone = true → c.Ready sha256

end SnapClient

/-- **The fetch stages what it verified**, in every run in which the node commits only to manifests
of distinct files that are not there yet. -/
theorem fetch_verified {sha256 : Str → Uint256} {c : SnapClient} {chunks : List SnapChunk}
    (h : SnapRun sha256 CommitsFresh c chunks) : c.StagesVerified sha256 chunks := by
  have hok : c.FetchOk sha256 chunks := by
    induction h with
    | start dir => exact SnapClient.FetchOk.of_uncommitted rfl rfl
    | step ev _ hfresh ih => exact ih.step hfresh
  constructor
  · intro peer hdone hpeer
    exact (hok.committed peer hdone hpeer).current
  · exact hok.ready

/-! ## A manifest that names a file twice -/

def bytesHash (contents : Str) : Uint256 := contents.foldl (fun h b => 256 * h + b.toNat) 0

def offer (text : Str) : SnapEvent := .snapshot 7 text 100 true (fun _ => true)

def chunk (name : String) (offset : BitVec 32) (data : String) : SnapEvent :=
  .snapchunk 7 name.toList offset data.toList 101 true (fun _ => true)

def emptyDir : DataDir := ⟨fun _ => none, fun _ => false⟩

def fetchRun (events : List SnapEvent) : SnapClient × List SnapChunk :=
  events.foldl (fun s ev => (s.1.step bytesHash ev, ev.log s.1 s.2)) (⟨.initial, emptyDir, []⟩, [])

def twoManifest : Str := "height 1\nfile blk1 2 6162\nfile blk2 1 63\n".toList

def doubleManifest : Str := "height 1\nfile blk1 1 61\nfile blk1 1 62\n".toList

def twoFetch : List SnapEvent :=
  [.want 99, offer twoManifest, chunk "blk1" 0 "a", chunk "blk1" 1 "b", chunk "blk2" 0 "c"]

def doubleFetch : List SnapEvent :=
  [.want 99, offer doubleManifest, chunk "blk1" 0 "a", chunk "blk1" 0 "b"]

theorem fetch_verified_two :
    (fetchRun twoFetch).1.snap.fDone = true ∧
      (fetchRun twoFetch).1.StagesVerified bytesHash (fetchRun twoFetch).2 := by
  refine ⟨by decide +kernel, fetch_verified ?_⟩
  have hwanted : SnapRun bytesHash CommitsFresh (fetchRun [.want 99]).1 (fetchRun [.want 99]).2 :=
    .step (.want 99) (.start emptyDir) trivial
  have hoffered : SnapRun bytesHash CommitsFresh (fetchRun [.want 99, offer twoManifest]).1
      (fetchRun [.want 99, offer twoManifest]).2 := by
    apply SnapRun.step (offer twoManifest) hwanted
    intro _
    exact ⟨by decide +kernel, fun f _ => rfl⟩
  exact .step (chunk "blk2" 0 "c") (.step (chunk "blk1" 1 "b") (.step (chunk "blk1" 0 "a") hoffered
    trivial) trivial) trivial

/-- The second listing has overwritten what was fetched and verified for the first. -/
theorem ready_unverified :
    SnapRun bytesHash (fun _ _ => True) (fetchRun doubleFetch).1 (fetchRun doubleFetch).2 ∧
      ¬ (fetchRun doubleFetch).1.StagesVerified bytesHash (fetchRun doubleFetch).2 := by
  constructor
  · exact .step (chunk "blk1" 0 "b") (.step (chunk "blk1" 0 "a") (.step (offer doubleManifest)
      (.step (.want 99) (.start emptyDir) trivial) trivial) trivial) trivial
  intro h
  obtain ⟨_, hfile, hhash⟩ := (h.ready (by decide +kernel)).verified
    ⟨"blk1".toList, 1, 0x61⟩ (by decide +kernel)
  cases hfile
  exact absurd hhash (by decide +kernel)

end HoboNickels

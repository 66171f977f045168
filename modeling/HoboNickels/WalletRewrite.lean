import HoboNickels.TxDb
import HoboNickels.Lib.OrdMap

/-!
# Rewriting a wallet file

`CDB::Rewrite` copies the records of a Berkeley DB file into `strFile.rewrite`, leaving out those
that `pszSkip` names, removes the file and renames the copy.

It asks for `ret > 0` after opening the copy and after `put`, while Berkeley DB's own errors are
negative; it takes a file without a cursor for an empty one; it opens the copy without truncating
it, and `put` with `DB_NOOVERWRITE` keeps the values of an earlier run. `stale_copy_replaces_wallet`
shows runs that lose records; `rewrite_nothingLost_iff` says exactly which calls and files are safe.
-/

namespace HoboNickels

open OrdMap Option OrdMap

instance linearOrderUInt8 : LinearOrder UInt8 where
  le_refl := UInt8.le_refl
  le_trans _ _ _ := UInt8.le_trans
  le_antisymm _ _ := UInt8.le_antisymm
  le_total := UInt8.le_total
  lt_iff_le_not_ge a b := by simp [UInt8.lt_iff_toNat_lt, UInt8.le_iff_toNat_le]; omega
  toDecidableLE := fun a b => inferInstanceAs (Decidable (a ≤ b))

abbrev Records := OrdMap Bytes Bytes

/-- Opening the copy, and `put`, return one of these, or another code. -/
def DB_KEYEXIST : Int := -30995

def EINVAL : Int := 22

/-- What the calls return. One that does not report success has no effect. Reads and puts are told
apart by their key. -/
structure RewriteCalls where
  fShutdown : Bool
  openFile : Bool
  openCopy : Int
  cursorOk : Bool
  readOk : Bytes → Bool
  endOk : Bool
  put : Bytes → Int
  closeOk : Bool
  removeOk : Bool
  renameOk : Bool
  /-- The memory behind a key. -/
  beyond : Bytes → Bytes

structure RewriteFiles where
  strFile : Option Records
  strFileRes : Option Records

/-- `strncmp(a, b, n) == 0`, for a text `b` without a NUL among the bytes compared. -/
def strncmpEq (a b : Bytes) (n : Nat) : Bool := a.take n == b.take n

def versionKey : Bytes := [7, 118, 101, 114, 115, 105, 111, 110]

def clientVersion : Bytes := [0x08, 0xFC, 0x1E, 0x00]

def skips (pszSkip : Option Bytes) (ssKey : Bytes) : Bool :=
  match pszSkip with
  | none => false
  | some skip => strncmpEq ssKey skip (min ssKey.length skip.length)

namespace RewriteCalls

variable (pszSkip : Option Bytes) (calls : RewriteCalls)

/-- The test for the version record. It reads eight bytes, also of a shorter key. -/
def isVersion (ssKey : Bytes) : Bool := strncmpEq (ssKey ++ calls.beyond ssKey) versionKey 8

def newValue (ssKey ssValue : Bytes) : Bytes :=
  if calls.isVersion ssKey then clientVersion else ssValue

/-- What `put` returns: a handle that is not open takes nothing, and a key that is there is kept. -/
def putCode (copy : Records) (ssKey : Bytes) : Int :=
  if calls.openCopy ≠ 0 then EINVAL
  else if calls.put ssKey ≠ 0 then calls.put ssKey
  else if copy.contains ssKey then DB_KEYEXIST
  else 0

def copyRecords : List (Bytes × Bytes) → Records → Records × Bool
  | [], copy => (copy, calls.endOk)
  | (ssKey, ssValue) :: rest, copy =>
    if calls.readOk ssKey = false then (copy, false)
    else if skips pszSkip ssKey then copyRecords rest copy
    else
      let ret2 := calls.putCode copy ssKey
      let copy := if ret2 = 0 then copy.insert ssKey (calls.newValue ssKey ssValue) else copy
      if ret2 > 0 then (copy, false) else copyRecords rest copy

def makeCopy (records copy : Records) : Records × Bool :=
  if calls.openCopy > 0 then (copy, false)
  else if calls.cursorOk then calls.copyRecords pszSkip records.entries copy
  else (copy, true)

def swap (files : RewriteFiles) : RewriteFiles × Bool :=
  match calls.renameOk, files.strFileRes with
  | true, some copy => (⟨some copy, none⟩, calls.removeOk)
  | _, strFileRes => (⟨if calls.removeOk then none else files.strFile, strFileRes⟩, false)

def rewrite (files : RewriteFiles) : RewriteFiles × Option Bool :=
  if calls.fShutdown then (files, some false)
  else match files.strFile, calls.openFile with
    | some records, true =>
      let (copy, fSuccess) := calls.makeCopy pszSkip records (files.strFileRes.getD empty)
      let files := if calls.openCopy = 0 then { files with strFileRes := some copy } else files
      if fSuccess && calls.closeOk then
        let (files, fSuccess) := calls.swap files
        (files, some fSuccess)
      else (files, some false)
    | _, _ => (files, none)

end RewriteCalls

def StartsWith (pszSkip : Option Bytes) (key : Bytes) : Prop :=
  ∃ skip, pszSkip = some skip ∧ skip <+: key

instance (pszSkip : Option Bytes) (key : Bytes) : Decidable (StartsWith pszSkip key) :=
  match pszSkip with
  | none => isFalse (by simp [StartsWith])
  | some skip => decidable_of_iff (skip <+: key) (by simp [StartsWith])

def rewritten (pszSkip : Option Bytes) (records : Records) (key : Bytes) : Option Bytes :=
  match records.find? key with
  | none => none
  | some value =>
    if StartsWith pszSkip key then none
    else some (if key = versionKey then clientVersion else value)

/-- A rewrite that returns true leaves the rewritten records, one that returns false loses none. -/
def NothingLost (pszSkip : Option Bytes) (records : Records) (r : RewriteFiles × Option Bool) :
    Prop :=
  (r.2 = some true → ∃ file, r.1.strFile = some file ∧
    ∀ key, file.find? key = rewritten pszSkip records key) ∧
  (r.2 = some false → ∀ key value, records.find? key = some value →
    ∃ file, r.1.strFile = some file ∧ file.find? key = some value)

theorem skips_of_startsWith {pszSkip : Option Bytes} {key : Bytes}
    (h : StartsWith pszSkip key) : skips pszSkip key = true := by
  obtain ⟨_, rfl, _, rfl⟩ := h
  simp [skips, strncmpEq]

/-! ## When it holds -/

namespace RewriteCalls

variable (pszSkip : Option Bytes) (calls : RewriteCalls) (records stale : Records)
  (strFileRes : Option Records)

/-- Reading the record or putting it into the copy reports an error that ends the loop. -/
def Fails (key : Bytes) : Prop :=
  calls.readOk key = false ∨
    (skips pszSkip key = false ∧ (calls.openCopy ≠ 0 ∨ 0 < calls.put key))

def Copies (key : Bytes) : Prop :=
  calls.cursorOk = true ∧ skips pszSkip key = false ∧ calls.openCopy = 0 ∧ calls.put key = 0

instance (key : Bytes) : Decidable (Copies pszSkip calls key) :=
  inferInstanceAs (Decidable (_ ∧ _ ∧ _ ∧ _))

def Noticed : Prop :=
  0 < calls.openCopy ∨ calls.closeOk = false ∨
    (calls.cursorOk = true ∧ (calls.endOk = false ∨
      ∃ key value, records.find? key = some value ∧ Fails pszSkip calls key))

/-- An earlier run has left nothing else, and every record that is not to be skipped gets into the
copy with the right value. -/
def CopyExact : Prop :=
  (∀ key value, stale.find? key = some value → rewritten pszSkip records key = some value) ∧
  ∀ key value, records.find? key = some value → stale.find? key = none →
    ¬ StartsWith pszSkip key → Copies pszSkip calls key ∧
      (calls.isVersion key = true → key = versionKey ∨ value = clientVersion)

def CopyKeeps : Prop :=
  ∀ key value, records.find? key = some value → stale.find? key = some value ∨
    (stale.find? key = none ∧ Copies pszSkip calls key ∧
      (calls.isVersion key = true → value = clientVersion))

def Renames : Prop :=
  calls.renameOk = true ∧ (calls.openCopy = 0 ∨ strFileRes ≠ none)

/-- Something stops the rewrite in time; or the copy is right and takes the place of the file, or
the file stays. -/
def Safe : Prop :=
  calls.fShutdown = true ∨ calls.openFile = false ∨ Noticed pszSkip calls records ∨
  (Renames calls strFileRes ∧ calls.removeOk = true ∧
    CopyExact pszSkip calls records (strFileRes.getD empty)) ∨
  (Renames calls strFileRes ∧ calls.removeOk = false ∧
    CopyKeeps pszSkip calls records (strFileRes.getD empty)) ∨
  (¬ Renames calls strFileRes ∧ (calls.removeOk = false ∨ records.isEmpty = true))

def copied (key : Bytes) : Option Bytes :=
  match stale.find? key with
  | some value => some value
  | none =>
    if Copies pszSkip calls key then (records.find? key).map (calls.newValue key) else none

def copyFile : Option Records :=
  if calls.openCopy = 0 then
    some (calls.makeCopy pszSkip records (strFileRes.getD empty)).1
  else strFileRes

variable {pszSkip calls records stale strFileRes}

theorem putCode_pos_iff (copy : Records) (key : Bytes) :
    0 < calls.putCode copy key ↔ calls.openCopy ≠ 0 ∨ 0 < calls.put key := by
  simp only [putCode, EINVAL, DB_KEYEXIST]
  split
  · simp [*]
  · split
    · simp [*]
    · split <;> simp_all

theorem putCode_eq_zero_iff (copy : Records) (key : Bytes) : calls.putCode copy key = 0 ↔
      calls.openCopy = 0 ∧ calls.put key = 0 ∧ copy.find? key = none := by
  have hcontains : copy.contains key = true ↔ copy.find? key ≠ none := isSome_iff_ne_none
  simp only [putCode, EINVAL, DB_KEYEXIST]
  split
  · simp [*]
  · split
    · simp [*]
    · split <;> simp_all

theorem copyRecords_ok_iff (l : List (Bytes × Bytes)) :
    ∀ copy, (calls.copyRecords pszSkip l copy).2 = true ↔
      calls.endOk = true ∧ ∀ e ∈ l, ¬ Fails pszSkip calls e.1 := by
  induction l with
  | nil => simp [copyRecords]
  | cons e rest ih =>
    intro copy
    obtain ⟨key, _⟩ := e
    simp only [copyRecords, List.forall_mem_cons]
    by_cases hread : calls.readOk key = false
    · simp [hread, Fails]
    cases hskip : skips pszSkip key with
    | true => simp [hread, hskip, Fails, ih]
    | false =>
      by_cases hput : 0 < calls.putCode copy key
      · have hfails : Fails pszSkip calls key :=
          .inr ⟨hskip, (putCode_pos_iff copy key).mp hput⟩
        simp [hread, hput, hfails]
      have hfine : ¬ Fails pszSkip calls key := by
        rintro (h | ⟨-, h⟩)
        · exact hread h
        · exact hput ((putCode_pos_iff copy key).mpr h)
      simp [hread, hput, hfine, ih]

/-- The copy after a loop that got through: the records that were there, and those that are put. -/
theorem copyRecords_find? (hcursor : calls.cursorOk = true) (k : Bytes) (l : List (Bytes × Bytes)) :
    ∀ copy (hsorted : l.Pairwise (fun a b => a.1 < b.1)),
      (calls.copyRecords pszSkip l copy).2 = true →
      (calls.copyRecords pszSkip l copy).1.find? k =
        match copy.find? k with
        | some value => some value
        | none =>
          if Copies pszSkip calls k then ((⟨l, hsorted⟩ : Records).find? k).map (calls.newValue k)
          else none := by
  induction l with
  | nil =>
    intro copy hsorted _
    have hempty : (⟨[], hsorted⟩ : Records).find? k = none := rfl
    cases hfind : copy.find? k <;> simp [copyRecords, hfind, hempty]
  | cons e rest ih =>
    intro copy hsorted hok
    obtain ⟨key, value⟩ := e
    obtain ⟨-, hrest⟩ := List.pairwise_cons.mp hsorted
    have hfine := ((copyRecords_ok_iff _ copy).mp hok).2 (key, value) List.mem_cons_self
    have hread : calls.readOk key = true := by
      simpa using fun h => hfine (.inl h)
    simp only [copyRecords, hread, Bool.true_eq_false, if_false] at hok ⊢
    rw [find?_cons]
    cases hskip : skips pszSkip key with
    | true =>
      simp only [hskip, if_true] at hok ⊢
      rw [ih copy hrest hok]
      by_cases hk : k = key
      · subst hk
        simp [Copies, hskip]
      · simp [hk]
    | false =>
      have hput : ¬ 0 < calls.putCode copy key := fun h =>
        hfine (.inr ⟨hskip, (putCode_pos_iff copy key).mp h⟩)
      simp only [hskip, Bool.false_eq_true, if_false, gt_iff_lt, hput] at hok ⊢
      rw [ih _ hrest hok]
      by_cases hk : k = key
      · subst hk
        by_cases hzero : calls.putCode copy k = 0
        · obtain ⟨hopen, hput0, hfind⟩ := (putCode_eq_zero_iff copy k).mp hzero
          have hcopies : Copies pszSkip calls k := ⟨hcursor, hskip, hopen, hput0⟩
          simp [hzero, find?_insert, hfind, hcopies]
        simp only [hzero, if_false]
        cases hfind : copy.find? k with
        | some v => rfl
        | none =>
          have hnot : ¬ Copies pszSkip calls k := fun h =>
            hzero ((putCode_eq_zero_iff copy k).mpr ⟨h.2.2.1, h.2.2.2, hfind⟩)
          simp [hnot]
      · by_cases hzero : calls.putCode copy key = 0
        · simp [hzero, find?_insert, hk]
        · simp [hzero, hk]

theorem makeCopy_find? (hok : (calls.makeCopy pszSkip records stale).2 = true) (key : Bytes) :
    (calls.makeCopy pszSkip records stale).1.find? key =
      copied pszSkip calls records stale key := by
  by_cases hopen : calls.openCopy > 0
  · simp [makeCopy, hopen] at hok
  cases hcursor : calls.cursorOk with
  | true =>
    simp only [makeCopy, hopen, hcursor, if_true, if_false] at hok ⊢
    exact copyRecords_find? hcursor key records.entries stale records.sorted hok
  | false =>
    have hnot : ¬ Copies pszSkip calls key := by simp [Copies, hcursor]
    simp only [makeCopy, hopen, hcursor, Bool.false_eq_true, if_false, copied, hnot]
    cases stale.find? key <;> rfl

theorem makeCopy_ok_iff (stale : Records) :
    ((calls.makeCopy pszSkip records stale).2 && calls.closeOk) = true ↔
      ¬ Noticed pszSkip calls records := by
  have hentries : (∀ e ∈ records.entries, ¬ Fails pszSkip calls e.1) ↔
      ¬ ∃ key value, records.find? key = some value ∧ Fails pszSkip calls key := by
    constructor
    · rintro h ⟨key, value, hfind, hfails⟩
      exact h (key, value) (records.mem_entries_iff.mpr hfind) hfails
    · intro h e he hfails
      exact h ⟨e.1, e.2, records.mem_entries_iff.mp he, hfails⟩
  by_cases hopen : calls.openCopy > 0
  · simp [makeCopy, hopen, Noticed]
  cases hcursor : calls.cursorOk with
  | true =>
    simp only [makeCopy, hopen, hcursor, if_true, if_false, Bool.and_eq_true,
      copyRecords_ok_iff, hentries, Noticed]
    simp only [true_and, not_or, Bool.not_eq_false]
    tauto
  | false =>
    simp [makeCopy, hopen, hcursor, Noticed]

theorem isVersion_versionKey : calls.isVersion versionKey = true := by
  simp [isVersion, strncmpEq, versionKey]

theorem copyExact_iff : (∀ key, copied pszSkip calls records stale key =
    rewritten pszSkip records key) ↔ CopyExact pszSkip calls records stale := by
  constructor
  · intro h
    refine ⟨fun key value hstale => ?_, fun key value hfind hstale hstarts => ?_⟩
    · rw [← h key]
      simp [copied, hstale]
    have hkey := h key
    simp only [copied, hstale, rewritten, hfind, hstarts, if_false] at hkey
    split at hkey
    next hcopies =>
      refine ⟨hcopies, fun hversion => ?_⟩
      by_cases hk : key = versionKey
      · exact .inl hk
      · simp only [newValue, hversion, hk, if_true, if_false, map_some, some.injEq] at hkey
        exact .inr hkey.symm
    · cases hkey
  · rintro ⟨hleft, hall⟩ key
    cases hstale : stale.find? key with
    | some value => simp [copied, hstale, hleft key value hstale]
    | none =>
      cases hfind : records.find? key with
      | none => simp [copied, hstale, rewritten, hfind]
      | some value =>
        simp only [copied, hstale, rewritten, hfind, map_some]
        by_cases hstarts : StartsWith pszSkip key
        · have hnot : ¬ Copies pszSkip calls key := by
            simp [Copies, skips_of_startsWith hstarts]
          simp [hnot, hstarts]
        obtain ⟨hcopies, hversion⟩ := hall key value hfind hstale hstarts
        simp only [hcopies, hstarts, if_true, if_false, newValue, some.injEq]
        by_cases hk : key = versionKey
        · simp [hk, isVersion_versionKey]
        · cases htest : calls.isVersion key with
          | false => simp [hk]
          | true => simpa [hk, eq_comm] using hversion htest

theorem copyKeeps_iff : (∀ key value, records.find? key = some value →
    copied pszSkip calls records stale key = some value) ↔
      CopyKeeps pszSkip calls records stale := by
  apply forall_congr'
  intro key
  apply forall_congr'
  intro value
  apply imp_congr_right
  intro hfind
  cases hstale : stale.find? key with
  | some v => simp [copied, hstale]
  | none =>
    by_cases hcopies : Copies pszSkip calls key
    · cases htest : calls.isVersion key <;>
        simp [copied, hstale, hfind, hcopies, newValue, htest, eq_comm]
    · simp [copied, hstale, hcopies]

structure Succeed (calls : RewriteCalls) : Prop where
  fShutdown : calls.fShutdown = false
  openFile : calls.openFile = true
  openCopy : calls.openCopy = 0
  cursorOk : calls.cursorOk = true
  readOk : ∀ key, calls.readOk key = true
  endOk : calls.endOk = true
  put : ∀ key, calls.put key = 0
  closeOk : calls.closeOk = true
  removeOk : calls.removeOk = true
  renameOk : calls.renameOk = true

theorem nothingLost_unchanged (records : Records) (strFileRes : Option Records) :
    NothingLost pszSkip records (⟨some records, strFileRes⟩, some false) := by
  refine ⟨nofun, fun _ key value hfind => ⟨records, rfl, hfind⟩⟩

theorem copyFile_ne_none_iff : calls.copyFile pszSkip records strFileRes ≠ none ↔
      calls.openCopy = 0 ∨ strFileRes ≠ none := by
  by_cases hopen : calls.openCopy = 0 <;> simp [copyFile, hopen]

theorem copyFile_find? {copy : Records}
    (hok : (calls.makeCopy pszSkip records (strFileRes.getD empty)).2 = true)
    (hcopy : calls.copyFile pszSkip records strFileRes = some copy) (key : Bytes) :
    copy.find? key = copied pszSkip calls records (strFileRes.getD empty) key := by
  by_cases hopen : calls.openCopy = 0
  · simp only [copyFile, hopen, if_true, some.injEq] at hcopy
    rw [← hcopy]
    exact makeCopy_find? hok key
  simp only [copyFile, hopen, if_false] at hcopy
  have hnot : ¬ Copies pszSkip calls key := by simp [Copies, hopen]
  simp only [hcopy, copied, getD_some, hnot, if_false]
  cases copy.find? key <;> rfl

theorem rewrite_eq (hshutdown : calls.fShutdown = false) (hfile : calls.openFile = true) :
    calls.rewrite pszSkip ⟨some records, strFileRes⟩ =
      if (calls.makeCopy pszSkip records (strFileRes.getD empty)).2 && calls.closeOk then
        ((calls.swap ⟨some records, calls.copyFile pszSkip records strFileRes⟩).1,
          some (calls.swap ⟨some records, calls.copyFile pszSkip records strFileRes⟩).2)
      else (⟨some records, calls.copyFile pszSkip records strFileRes⟩, some false) := by
  by_cases hopen : calls.openCopy = 0 <;> simp [rewrite, copyFile, hshutdown, hfile, hopen]

theorem swap_of_renames {copy : Records} (hrename : calls.renameOk = true) :
    calls.swap ⟨some records, some copy⟩ = (⟨some copy, none⟩, calls.removeOk) := by
  simp [swap, hrename]

theorem swap_of_not_renames {copy? : Option Records}
    (hrename : ¬ (calls.renameOk = true ∧ copy? ≠ none)) :
    calls.swap ⟨some records, copy?⟩ =
      (⟨if calls.removeOk then none else some records, copy?⟩, false) := by
  cases hok : calls.renameOk with
  | false => simp [swap, hok]
  | true =>
    obtain rfl : copy? = none := by simpa [hok] using hrename
    simp [swap, hok]

theorem nothingLost_replaced_iff {copy : Records} {fRemoved : Bool}
    (hcopy : ∀ key, copy.find? key = copied pszSkip calls records stale key) :
    NothingLost pszSkip records (⟨some copy, none⟩, some fRemoved) ↔
      (fRemoved = true ∧ CopyExact pszSkip calls records stale) ∨
      (fRemoved = false ∧ CopyKeeps pszSkip calls records stale) := by
  cases fRemoved with
  | true => simp [NothingLost, hcopy, copyExact_iff]
  | false => simp [NothingLost, hcopy, copyKeeps_iff]

theorem nothingLost_removed_iff {copy? : Option Records} :
    NothingLost pszSkip records (⟨none, copy?⟩, some false) ↔ records.isEmpty = true := by
  simp [NothingLost, OrdMap.isEmpty_iff, eq_none_iff_forall_ne_some]

theorem Succeed.rewrite (h : calls.Succeed) (pszSkip : Option Bytes) (records : Records) :
    ∃ copy, calls.rewrite pszSkip ⟨some records, none⟩ = (⟨some copy, none⟩, some true) ∧
      ∀ key, copy.find? key = if skips pszSkip key then none
        else (records.find? key).map (calls.newValue key) := by
  have hquiet : ¬ Noticed pszSkip calls records := by
    simp [Noticed, Fails, h.openCopy, h.closeOk, h.endOk, h.readOk, h.put]
  have hok : ((calls.makeCopy pszSkip records empty).2 && calls.closeOk) = true :=
    (makeCopy_ok_iff empty).mpr hquiet
  have hcopy : calls.copyFile pszSkip records none =
      some (calls.makeCopy pszSkip records empty).1 := by
    simp [copyFile, h.openCopy]
  refine ⟨(calls.makeCopy pszSkip records empty).1, ?_, fun key => ?_⟩
  · rw [rewrite_eq h.fShutdown h.openFile, getD_none, if_pos hok, hcopy,
      swap_of_renames h.renameOk, h.removeOk]
  · rw [makeCopy_find? (Bool.and_eq_true_iff.mp hok).1 key]
    cases hskip : skips pszSkip key <;>
      simp [copied, Copies, hskip, h.cursorOk, h.openCopy, h.put]

end RewriteCalls

open RewriteCalls

/-- A rewrite loses nothing exactly if it is safe. -/
theorem rewrite_nothingLost_iff (pszSkip : Option Bytes) (calls : RewriteCalls)
    (records : Records) (strFileRes : Option Records) :
    NothingLost pszSkip records (calls.rewrite pszSkip ⟨some records, strFileRes⟩) ↔
      calls.Safe pszSkip records strFileRes := by
  cases hshutdown : calls.fShutdown with
  | true =>
    simpa [rewrite, hshutdown, RewriteCalls.Safe] using nothingLost_unchanged records strFileRes
  | false =>
    cases hfile : calls.openFile with
    | false => simp [rewrite, hshutdown, hfile, RewriteCalls.Safe, NothingLost]
    | true =>
      simp only [RewriteCalls.Safe, hshutdown, hfile, Bool.false_eq_true, Bool.true_eq_false,
        false_or]
      rw [rewrite_eq hshutdown hfile]
      by_cases hnoticed : Noticed pszSkip calls records
      · rw [if_neg fun hok => (makeCopy_ok_iff _).mp hok hnoticed]
        exact iff_of_true (nothingLost_unchanged records _) (.inl hnoticed)
      have hok := (makeCopy_ok_iff (strFileRes.getD empty)).mpr hnoticed
      rw [if_pos hok]
      simp only [hnoticed, false_or]
      by_cases hrename : Renames calls strFileRes
      · obtain ⟨_, hcopy⟩ := Option.ne_none_iff_exists'.mp (copyFile_ne_none_iff.mpr hrename.2)
        rw [hcopy, swap_of_renames hrename.1, nothingLost_replaced_iff
          (copyFile_find? (Bool.and_eq_true_iff.mp hok).1 hcopy)]
        simp [hrename]
      rw [swap_of_not_renames (by rwa [copyFile_ne_none_iff])]
      cases hremove : calls.removeOk with
      | true => simpa [hrename] using nothingLost_removed_iff
      | false => simpa [hrename] using nothingLost_unchanged records _

def allSucceed : RewriteCalls :=
  ⟨false, true, 0, true, fun _ => true, true, fun _ => 0, true, true, true, fun _ => []⟩

def oneRecord (key value : Bytes) : Records := empty.insert key value

def staleRun : RewriteFiles × Option Bool :=
  allSucceed.rewrite none ⟨some (oneRecord [1] [20]), some (oneRecord [1] [10])⟩

def cursorlessRun : RewriteFiles × Option Bool :=
  { allSucceed with cursorOk := false }.rewrite none ⟨some (oneRecord [1] [20]), none⟩

def unrenamedRun : RewriteFiles × Option Bool :=
  { allSucceed with renameOk := false }.rewrite none ⟨some (oneRecord [1] [20]), none⟩

/-- The old value is back; the file is empty; there is no file. -/
theorem stale_copy_replaces_wallet :
    (staleRun.2 = some true ∧ staleRun.1.strFile.map entries = some [([1], [10])]) ∧
    (cursorlessRun.2 = some true ∧ cursorlessRun.1.strFile.map entries = some []) ∧
    (unrenamedRun.2 = some false ∧ unrenamedRun.1.strFile.map entries = none) := by
  decide +kernel

end HoboNickels

import HoboNickels.Primitives
import HoboNickels.WalletZap

/-!
# Alerts

`CAlert::ProcessAlert`. A signed message is unserialized into an alert, which cancels the stored
alerts it names, drops the expired ones, and is stored itself unless a stored alert cancels it. The
highest `nID` is reserved for the case that the alert key is compromised, and no alert should
override such an alert.

The scan that cancels stored alerts comes first and does not spare the final alert, so a newcomer
that names the highest `nID` removes it (`finalAlert_overridden`).
-/

namespace HoboNickels.Alerts

open Bool OrdMap

def maxInt : Int := 2 ^ 31 - 1

structure CUnsignedAlert where
  nExpiration : Int
  nID : Int
  nCancel : Int
  setCancel : List Int
  nMinVer : Int
  nMaxVer : Int
  setSubVer : List Bytes
  nPriority : Int
  strStatusBar : Bytes
  nID_le : nID ≤ maxInt
  deriving DecidableEq

structure CAlert extends CUnsignedAlert where
  vchMsg : Bytes
  vchSig : Bytes
  deriving DecidableEq

/-- The double hash of a message, and the verification of a signature with the alert key. -/
structure AlertKey where
  hash : Bytes → Uint256
  verify : Uint256 → Bytes → Bool

/-! ## Reading a message -/

def textBytes (text : String) : Bytes := text.toList.map fun ch => UInt8.ofNat ch.toNat

def toInt (v : Nat) : Int := Int.bmod v (2 ^ 32)

theorem toInt_le (v : Nat) : toInt v ≤ maxInt := by
  have h := Int.bmod_lt (x := (v : Int)) (m := 4294967296) (by omega)
  change Int.bmod v 4294967296 ≤ 2147483647
  omega

def readInt (s : Bytes) : Option (Int × Bytes) :=
  (readUInt 4 s).map fun (v, rest) => (toInt v, rest)

def readInt64 (s : Bytes) : Option (Int × Bytes) :=
  (readUInt 8 s).map fun (v, rest) => (int64 v, rest)

def readMany {α : Type} (read : Bytes → Option (α × Bytes)) :
    Nat → Bytes → Option (List α × Bytes)
  | 0, s => some ([], s)
  | n + 1, s => do
    let (x, s) ← read s
    let (xs, s) ← readMany read n s
    return (x :: xs, s)

def readSet {α : Type} (read : Bytes → Option (α × Bytes)) (s : Bytes) :
    Option (List α × Bytes) := do
  let (nSize, s) ← readCompactSize s
  readMany read nSize s

/-- The message as an alert; no value stands for an exception. What follows is not read. -/
def unserialize (vchMsg : Bytes) : Option CUnsignedAlert := do
  let (_, s) ← readInt vchMsg -- nVersion
  let (_, s) ← readInt64 s -- nRelayUntil
  let (nExpiration, s) ← readInt64 s
  let (nID, s) ← readUInt 4 s
  let (nCancel, s) ← readInt s
  let (setCancel, s) ← readSet readInt s
  let (nMinVer, s) ← readInt s
  let (nMaxVer, s) ← readInt s
  let (setSubVer, s) ← readSet readString s
  let (nPriority, s) ← readInt s
  let (_, s) ← readString s -- strComment
  let (strStatusBar, s) ← readString s
  let _ ← readString s -- strReserved
  return { nExpiration, nID := toInt nID, nCancel, setCancel, nMinVer, nMaxVer, setSubVer,
           nPriority, strStatusBar, nID_le := toInt_le nID }

/-! ## ProcessAlert -/

namespace CUnsignedAlert

def isInEffect (nNow : Int) (a : CUnsignedAlert) : Bool := decide (nNow < a.nExpiration)

def cancels (nNow : Int) (a alert : CUnsignedAlert) : Bool :=
  if !a.isInEffect nNow then false
  else decide (alert.nID ≤ a.nCancel) || a.setCancel.contains alert.nID

def finalForm (a : CUnsignedAlert) : Bool :=
  a.nExpiration == maxInt && a.nCancel == maxInt - 1 && a.nMinVer == 0 && a.nMaxVer == maxInt &&
    a.setSubVer.isEmpty && a.nPriority == maxInt &&
    a.strStatusBar == textBytes "URGENT: Alert key compromised, upgrade required"

end CUnsignedAlert

open CUnsignedAlert

abbrev AlertMap := OrdMap Uint256 CAlert

inductive Answer where
  | returned (ok : Bool)
  | threw
  deriving DecidableEq, Repr

def remaining (nNow : Int) (m : AlertMap) (alert : CAlert) : AlertMap :=
  m.filter fun e =>
    !cancels nNow alert.toCUnsignedAlert e.2.toCUnsignedAlert && e.2.isInEffect nNow

def storeAlert (k : AlertKey) (nNow : Int) (mapAlerts : AlertMap) (alert : CAlert) :
    AlertMap × Answer :=
  -- cancel previous alerts
  let kept := remaining nNow mapAlerts alert
  -- check if this alert has been cancelled
  if kept.entries.any fun e => cancels nNow e.2.toCUnsignedAlert alert.toCUnsignedAlert then
    (kept, .returned false)
  else (kept.insertNew (k.hash alert.vchMsg) alert, .returned true)

/-- The adjusted time, which the source reads in each test, is taken not to change within a call. -/
structure AlertCall where
  nNow : Int
  vchMsg : Bytes
  vchSig : Bytes
  deriving DecidableEq

def processAlert (k : AlertKey) (mapAlerts : AlertMap) (c : AlertCall) : AlertMap × Answer :=
  if !k.verify (k.hash c.vchMsg) c.vchSig then (mapAlerts, .returned false)
  else match unserialize c.vchMsg with
  | none => (mapAlerts, .threw)
  | some u =>
    if !u.isInEffect c.nNow then (mapAlerts, .returned false)
    else if u.nID == maxInt && !u.finalForm then (mapAlerts, .returned false)
    else storeAlert k c.nNow mapAlerts ⟨u, c.vchMsg, c.vchSig⟩

def runAlerts (k : AlertKey) (calls : List AlertCall) : AlertMap :=
  calls.foldl (fun m c => (processAlert k m c).1) empty

variable {k : AlertKey}

/-! ## What one call does -/

def screened (k : AlertKey) (c : AlertCall) : Option CAlert :=
  if k.verify (k.hash c.vchMsg) c.vchSig then
    (unserialize c.vchMsg).bind fun u =>
      if u.isInEffect c.nNow && !(u.nID == maxInt && !u.finalForm) then
        some ⟨u, c.vchMsg, c.vchSig⟩
      else none
  else none

variable {m : AlertMap} {c : AlertCall} {alert : CAlert} {h : Uint256} {nNow : Int}
  {a : CUnsignedAlert}

theorem processAlert_of_screened
    (h : screened k c = some alert) : processAlert k m c = storeAlert k c.nNow m alert := by
  unfold screened at h
  split at h
  next hverify =>
    obtain ⟨u, hu, hform⟩ := Option.bind_eq_some_iff.mp h
    split at hform
    next hpass =>
      obtain ⟨heffect, hid⟩ := (and_eq_true _ _).mp hpass
      cases hform
      simp only [processAlert, hverify, hu, heffect, Bool.not_true]
      rw [Bool.not_eq_true'] at hid
      simp [hid]
    · cases hform
  · cases h

theorem processAlert_of_not_screened (h : screened k c = none) :
    (processAlert k m c).1 = m ∧ (processAlert k m c).2 ≠ .returned true := by
  unfold screened at h
  unfold processAlert
  split
  · simp
  rename_i hverify
  rw [if_pos (by simpa using hverify)] at h
  split
  · simp
  rename_i u hu
  rw [hu, Option.bind_some] at h
  split
  · simp
  rename_i heffect
  split
  · simp
  rename_i hid
  rw [not_eq_true, not_eq_false'] at heffect
  simp [heffect, hid] at h

theorem screened_spec (h : screened k c = some alert) :
    c.nNow < alert.nExpiration ∧ (alert.nID = maxInt → alert.finalForm = true) ∧
      alert.vchMsg = c.vchMsg := by
  unfold screened at h
  split at h
  · obtain ⟨u, -, hform⟩ := Option.bind_eq_some_iff.mp h
    split at hform
    next hpass =>
      cases hform
      simp only [isInEffect, and_eq_true, decide_eq_true_eq, not_eq_true',
        and_eq_false_iff, beq_eq_false_iff_ne, not_eq_false'] at hpass
      refine ⟨hpass.1, ?_, rfl⟩
      intro hmax
      exact hpass.2.resolve_left (fun hne => hne hmax)
    · cases hform
  · cases h

theorem cancels_iff {b : CUnsignedAlert} : cancels nNow a b = true ↔
      nNow < a.nExpiration ∧ (b.nID ≤ a.nCancel ∨ b.nID ∈ a.setCancel) := by
  by_cases h : nNow < a.nExpiration
  · simp [cancels, isInEffect, h]
  · simp [cancels, isInEffect, h]

theorem finalForm_spec (h : a.finalForm = true) :
    a.nExpiration = maxInt ∧ a.nCancel = maxInt - 1 := by
  simp only [finalForm, and_eq_true, beq_iff_eq] at h
  exact ⟨h.1.1.1.1.1.1, h.1.1.1.1.1.2⟩

def namesFinal (a : CUnsignedAlert) : Bool :=
  decide (maxInt ≤ a.nCancel) || a.setCancel.contains maxInt

theorem namesFinal_iff : namesFinal a = true ↔ maxInt ≤ a.nCancel ∨ maxInt ∈ a.setCancel := by
  simp [namesFinal]

/-! ## The final alert in the map -/

def HoldsFinal (m : AlertMap) (h : Uint256) : Prop := ∃ e, m.find? h = some e ∧ e.nID = maxInt

def FinalForms (m : AlertMap) : Prop :=
  ∀ h e, m.find? h = some e → e.nID = maxInt → e.finalForm = true

theorem find?_remaining {e : CAlert} : (remaining nNow m alert).find? h = some e ↔
      m.find? h = some e ∧ cancels nNow alert.toCUnsignedAlert e.toCUnsignedAlert = false ∧
        nNow < e.nExpiration := by
  unfold remaining
  rw [find?_filter_eq_some]
  simp [isInEffect]

theorem storeAlert_cases (k : AlertKey) (nNow : Int) (m : AlertMap) (alert : CAlert) :
    (storeAlert k nNow m alert = (remaining nNow m alert, .returned false) ∧
      ∃ h e, (remaining nNow m alert).find? h = some e ∧
        cancels nNow e.toCUnsignedAlert alert.toCUnsignedAlert = true) ∨
    (storeAlert k nNow m alert
        = ((remaining nNow m alert).insertNew (k.hash alert.vchMsg) alert, .returned true) ∧
      ∀ h e, (remaining nNow m alert).find? h = some e →
        cancels nNow e.toCUnsignedAlert alert.toCUnsignedAlert = false) := by
  by_cases hany : (remaining nNow m alert).entries.any
      (fun e => cancels nNow e.2.toCUnsignedAlert alert.toCUnsignedAlert) = true
  · left
    refine ⟨if_pos hany, ?_⟩
    obtain ⟨⟨h, e⟩, hmem, hcancels⟩ := List.any_eq_true.mp hany
    exact ⟨h, e, (mem_entries_iff _).mp hmem, hcancels⟩
  right
  refine ⟨if_neg hany, ?_⟩
  intro h e hfind
  rw [not_eq_true, List.any_eq_false] at hany
  exact not_eq_true _ ▸ hany (h, e) ((mem_entries_iff _).mpr hfind)

theorem FinalForms.remaining (hm : FinalForms m) (nNow : Int) (alert : CAlert) :
    FinalForms (remaining nNow m alert) :=
  fun h e hfind => hm h e (find?_remaining.mp hfind).1

theorem FinalForms.processAlert (hm : FinalForms m) (c : AlertCall) :
    FinalForms (processAlert k m c).1 := by
  rcases hs : screened k c with _ | alert
  · rw [(processAlert_of_not_screened hs).1]
    exact hm
  rw [processAlert_of_screened hs]
  rcases storeAlert_cases k c.nNow m alert with ⟨heq, -⟩ | ⟨heq, -⟩
  · rw [heq]
    exact hm.remaining _ _
  rw [heq]
  intro h e hfind hmax
  rw [find?_insertNew] at hfind
  split at hfind
  · rcases hold : (Alerts.remaining c.nNow m alert).find? (k.hash alert.vchMsg) with _ | _
    · rw [hold] at hfind
      cases hfind
      exact (screened_spec hs).2.1 hmax
    · rw [hold] at hfind
      cases hfind
      exact hm.remaining _ _ _ _ hold hmax
  · exact hm.remaining _ _ _ _ hfind hmax

/-- A final alert that is accepted is stored, or the one already stored under its hash is final
too: it cancels every other alert. -/
theorem holdsFinal_of_accepted (hs : screened k c = some alert) (hmax : alert.nID = maxInt)
    (hacc : (processAlert k m c).2 = .returned true) :
    HoldsFinal (processAlert k m c).1 (k.hash c.vchMsg) := by
  obtain ⟨_, hform, hmsg⟩ := screened_spec hs
  rw [processAlert_of_screened hs] at hacc ⊢
  rcases storeAlert_cases k c.nNow m alert with ⟨heq, -⟩ | ⟨heq, -⟩
  · rw [heq] at hacc
    cases hacc
  rw [heq, ← hmsg]
  rcases hold : (remaining c.nNow m alert).find? (k.hash alert.vchMsg) with _ | old
  · refine ⟨alert, ?_, hmax⟩
    rw [find?_insertNew, if_pos rfl, hold]
    rfl
  refine ⟨old, ?_, ?_⟩
  · rw [find?_insertNew, if_pos rfl, hold]
    rfl
  obtain ⟨-, hspared, -⟩ := find?_remaining.mp hold
  have hnot : ¬ (c.nNow < alert.nExpiration ∧
      (old.nID ≤ alert.nCancel ∨ old.nID ∈ alert.setCancel)) := by
    rw [← cancels_iff, hspared]
    exact false_ne_true
  have hcancel := (finalForm_spec (hform hmax)).2
  have hle := old.nID_le
  omega

/-! ## Calls after the final alert -/

/-- The final alert has not expired, and the alert of the call, if it gets past the first checks,
does not name the highest `nID` or is that final alert once more. -/
def Harmless (k : AlertKey) (h : Uint256) (c : AlertCall) : Prop :=
  ∀ alert, screened k c = some alert → c.nNow < maxInt ∧
    (namesFinal alert.toCUnsignedAlert = false ∨
      alert.nID = maxInt ∧ k.hash c.vchMsg = h)

instance (k : AlertKey) (h : Uint256) (c : AlertCall) : Decidable (Harmless k h c) :=
  match hs : screened k c with
  | none => isTrue fun _ hnone => by cases hs.symm.trans hnone
  | some alert => decidable_of_iff (c.nNow < maxInt ∧
      (namesFinal alert.toCUnsignedAlert = false ∨ alert.nID = maxInt ∧ k.hash c.vchMsg = h))
    ⟨fun hok _ heq => Option.some.inj (hs.symm.trans heq) ▸ hok, fun hall => hall alert hs⟩

theorem remaining_of_spares (hm : FinalForms m) (hfinal : HoldsFinal m h) (hnow : nNow < maxInt)
    (hspares : namesFinal alert.toCUnsignedAlert = false) :
    ∃ e, (remaining nNow m alert).find? h = some e ∧ e.nID = maxInt ∧ e.finalForm = true := by
  obtain ⟨e, he, hemax⟩ := hfinal
  have hform := hm h e he hemax
  refine ⟨e, find?_remaining.mpr ⟨he, ?_, ?_⟩, hemax, hform⟩
  · rw [← not_eq_true, cancels_iff, hemax]
    rw [← not_eq_true, namesFinal_iff] at hspares
    exact fun hcancels => hspares hcancels.2
  · rw [(finalForm_spec hform).1]
    exact hnow

section

variable (hm : FinalForms m) (hfinal : HoldsFinal m h) (hs : screened k c = some alert)
    (hnow : c.nNow < maxInt) (hspares : namesFinal alert.toCUnsignedAlert = false)
include hm hfinal hs hnow hspares

theorem nID_of_accepted (hacc : (processAlert k m c).2 = .returned true) : alert.nID = maxInt := by
  obtain ⟨e, hkept, _, hform⟩ := remaining_of_spares hm hfinal hnow hspares
  obtain ⟨_, _⟩ := finalForm_spec hform
  rw [processAlert_of_screened hs] at hacc
  rcases storeAlert_cases k c.nNow m alert with ⟨heq, -⟩ | ⟨-, hnone⟩
  · rw [heq] at hacc
    cases hacc
  have hnot := hnone h e hkept
  rw [← not_eq_true, cancels_iff] at hnot
  have hle := alert.nID_le
  omega

theorem holdsFinal_of_spares : HoldsFinal (processAlert k m c).1 h := by
  obtain ⟨e, hkept, hemax, -⟩ := remaining_of_spares hm hfinal hnow hspares
  rw [processAlert_of_screened hs]
  refine ⟨e, ?_, hemax⟩
  rcases storeAlert_cases k c.nNow m alert with ⟨heq, -⟩ | ⟨heq, -⟩
  · rw [heq]
    exact hkept
  rw [heq, find?_insertNew]
  split
  next hh =>
    rw [← hh, hkept]
    rfl
  · exact hkept

end

theorem accepted_of_names (hs : screened k c = some alert) (hmax : alert.nID = maxInt)
    (hnames : namesFinal alert.toCUnsignedAlert = true) :
    (processAlert k m c).2 = .returned true := by
  obtain ⟨heffect, hform, -⟩ := screened_spec hs
  rw [processAlert_of_screened hs]
  rcases storeAlert_cases k c.nNow m alert with ⟨-, h, e, hkept, -⟩ | ⟨heq, -⟩
  · obtain ⟨-, hspared, -⟩ := find?_remaining.mp hkept
    have hnot : ¬ (e.nID ≤ alert.nCancel ∨ e.nID ∈ alert.setCancel) := by
      intro hid
      rw [cancels_iff.mpr ⟨heffect, hid⟩] at hspared
      cases hspared
    have hcan := (finalForm_spec (hform hmax)).2
    have hle := e.nID_le
    have hemax : e.nID = maxInt := by
      omega
    rw [hemax] at hnot
    exact absurd (namesFinal_iff.mp hnames) hnot
  · rw [heq]

theorem Harmless.keeps (hc : Harmless k h c) (hm : FinalForms m) (hfinal : HoldsFinal m h) :
    HoldsFinal (processAlert k m c).1 h ∧
      ∀ alert, screened k c = some alert → (processAlert k m c).2 = .returned true →
        alert.nID = maxInt := by
  rcases hs : screened k c with _ | alert
  · refine ⟨?_, fun alert hnone => by cases hnone⟩
    rw [(processAlert_of_not_screened hs).1]
    exact hfinal
  obtain ⟨hnow, hcase⟩ := hc alert hs
  by_cases hspares : namesFinal alert.toCUnsignedAlert = false
  · refine ⟨holdsFinal_of_spares hm hfinal hs hnow hspares, ?_⟩
    rintro _ ⟨⟩ hacc
    exact nID_of_accepted hm hfinal hs hnow hspares hacc
  obtain ⟨hmax, rfl⟩ := hcase.resolve_left hspares
  rw [not_eq_false] at hspares
  refine ⟨holdsFinal_of_accepted hs hmax (accepted_of_names hs hmax hspares), ?_⟩
  rintro _ ⟨⟩ _
  exact hmax

theorem harmless_of_keeps (hm : FinalForms m)
    (hkeeps : HoldsFinal (processAlert k m c).1 h) : Harmless k h c := by
  intro alert hs
  obtain ⟨heffect, hform, hmsg⟩ := screened_spec hs
  rw [processAlert_of_screened hs] at hkeeps
  obtain ⟨e, he, hemax⟩ := hkeeps
  -- the final alert was there all along, or has just been stored
  have hold : (remaining c.nNow m alert).find? h = some e ∨
      (alert.nID = maxInt ∧ k.hash c.vchMsg = h) := by
    rcases storeAlert_cases k c.nNow m alert with ⟨heq, -⟩ | ⟨heq, -⟩
    · rw [heq] at he
      exact .inl he
    rw [heq, find?_insertNew] at he
    split at he
    next hh =>
      rcases hprev : (remaining c.nNow m alert).find? (k.hash alert.vchMsg) with _ | _
      · rw [hprev] at he
        cases he
        exact .inr ⟨hemax, by rw [hh, hmsg]⟩
      · rw [hprev] at he
        cases he
        exact .inl (hh ▸ hprev)
    · exact .inl he
  rcases hold with hkept | hagain
  · obtain ⟨hin, hspared, hexp⟩ := find?_remaining.mp hkept
    refine ⟨(finalForm_spec (hm h e hin hemax)).1 ▸ hexp, .inl ?_⟩
    rw [← not_eq_true, namesFinal_iff, ← hemax]
    intro hid
    rw [cancels_iff.mpr ⟨heffect, hid⟩] at hspared
    cases hspared
  · exact ⟨(finalForm_spec (hform hagain.1)).1 ▸ heffect, .inr hagain⟩

/-! ## Whole runs -/

theorem finalForms_runAlerts (k : AlertKey) (calls : List AlertCall) :
    FinalForms (runAlerts k calls) := by
  induction calls using List.reverseRecOn with
  | nil =>
    intro h e hfind
    cases hfind
  | append_singleton calls c ih =>
    rw [runAlerts, List.foldl_concat]
    exact ih.processAlert c

theorem runAlerts_concat (k : AlertKey) (calls : List AlertCall) (c : AlertCall) :
    runAlerts k (calls ++ [c]) = (processAlert k (runAlerts k calls) c).1 :=
  List.foldl_concat _ _ _ _

theorem holdsFinal_runAlerts {before after : List AlertCall}
    (hfinal : HoldsFinal (runAlerts k before) h) (hafter : ∀ c ∈ after, Harmless k h c) :
    HoldsFinal (runAlerts k (before ++ after)) h := by
  induction after using List.reverseRecOn with
  | nil =>
    rw [List.append_nil]
    exact hfinal
  | append_singleton after c ih =>
    have hrest := ih (fun d hd => hafter d (List.mem_append_left _ hd))
    rw [← List.append_assoc, runAlerts_concat]
    exact ((hafter c (by simp)).keeps (finalForms_runAlerts k _) hrest).1

/-- **The final alert is final** once it is accepted, as long as all further calls are harmless: it
is stored, and an accepted call carries an alert with the highest `nID`. The call that is not
harmless removes it, all its tests being made at one time. -/
theorem finalAlert_stays (k : AlertKey) (before : List AlertCall) (cFinal : AlertCall)
    (aFinal : CAlert) (after : List AlertCall)
    (hscreened : screened k cFinal = some aFinal) (hmax : aFinal.nID = maxInt)
    (haccepted : (processAlert k (runAlerts k before) cFinal).2 = .returned true)
    (hafter : ∀ c ∈ after, Harmless k (k.hash cFinal.vchMsg) c) :
    HoldsFinal (runAlerts k (before ++ cFinal :: after)) (k.hash cFinal.vchMsg) ∧
      (∀ (pre post : List AlertCall) (c : AlertCall) (alert : CAlert),
        after = pre ++ c :: post → screened k c = some alert →
        (processAlert k (runAlerts k (before ++ cFinal :: pre)) c).2 = .returned true →
        alert.nID = maxInt) ∧
      ∀ c, HoldsFinal (runAlerts k (before ++ cFinal :: after ++ [c])) (k.hash cFinal.vchMsg) ↔
        Harmless k (k.hash cFinal.vchMsg) c := by
  have hstored : HoldsFinal (runAlerts k (before ++ [cFinal])) (k.hash cFinal.vchMsg) := by
    rw [runAlerts_concat]
    exact holdsFinal_of_accepted hscreened hmax haccepted
  have happend : ∀ l, before ++ cFinal :: l = before ++ [cFinal] ++ l := by simp
  have hforms := finalForms_runAlerts k
  refine ⟨?_, ?_, ?_⟩
  · rw [happend]
    exact holdsFinal_runAlerts hstored hafter
  · rintro pre post c alert rfl hs hacc
    rw [happend] at hacc
    have hpre := holdsFinal_runAlerts hstored (fun d hd => hafter d (List.mem_append_left _ hd))
    exact ((hafter c (by simp)).keeps (hforms _) hpre).2 alert hs hacc
  · intro c
    have hall := holdsFinal_runAlerts hstored hafter
    rw [runAlerts_concat, happend]
    constructor
    · exact harmless_of_keeps (hforms _)
    · exact fun hc => (hc.keeps (hforms _) hall).1

/-! ## No alert cancels another -/

def Independent (m : AlertMap) : Prop :=
  ∀ h e h' e', m.find? h = some e → m.find? h' = some e' → h ≠ h' →
    ∀ nNow, cancels nNow e.toCUnsignedAlert e'.toCUnsignedAlert = false

theorem cancels_never {b : CUnsignedAlert} (heffect : nNow < a.nExpiration)
    (h : cancels nNow a b = false) (t : Int) : cancels t a b = false := by
  rw [← not_eq_true, cancels_iff] at h ⊢
  exact fun hc => h ⟨heffect, hc.2⟩

theorem Independent.processAlert (hm : Independent m) (c : AlertCall) :
    Independent (processAlert k m c).1 := by
  rcases hs : screened k c with _ | alert
  · rwa [(processAlert_of_not_screened hs).1]
  have hkept : Independent (remaining c.nNow m alert) := fun h e h' e' he he' =>
    hm h e h' e' (find?_remaining.mp he).1 (find?_remaining.mp he').1
  rw [processAlert_of_screened hs]
  rcases storeAlert_cases k c.nNow m alert with ⟨heq, -⟩ | ⟨heq, hnone⟩
  · rwa [heq]
  have hcases : ∀ h e, (storeAlert k c.nNow m alert).1.find? h = some e →
      (remaining c.nNow m alert).find? h = some e ∨ h = k.hash alert.vchMsg ∧ e = alert := by
    intro h e he
    rw [heq, find?_insertNew] at he
    split at he
    next hh =>
      subst hh
      cases hprev : (remaining c.nNow m alert).find? (k.hash alert.vchMsg) <;> simp_all
    next => exact .inl he
  intro h e h' e' he he' hne t
  rcases hcases h e he with hold | ⟨rfl, rfl⟩ <;> rcases hcases h' e' he' with hold' | ⟨rfl, rfl⟩
  · exact hkept h e h' e' hold hold' hne t
  · exact cancels_never (find?_remaining.mp hold).2.2 (hnone h e hold) t
  · exact cancels_never (screened_spec hs).1 (find?_remaining.mp hold').2.1 t
  · exact absurd rfl hne

/-- **No stored alert cancels another**, whatever alerts were processed and however late it is. -/
theorem independent_runAlerts (k : AlertKey) (calls : List AlertCall) :
    Independent (runAlerts k calls) := by
  induction calls using List.reverseRecOn with
  | nil =>
    intro h e h' e' he
    cases he
  | append_singleton calls c ih =>
    rw [runAlerts_concat]
    exact ih.processAlert c

/-! ## A run that overrides it -/

def sampleKey : AlertKey where
  hash := littleEndian
  verify _ _ := true

def finalMsg : Bytes :=
  [1, 0, 0, 0] ++ [255, 255, 255, 127, 0, 0, 0, 0] ++ [255, 255, 255, 127, 0, 0, 0, 0] ++
    [255, 255, 255, 127] ++ [254, 255, 255, 127] ++ [0] ++ [0, 0, 0, 0] ++ [255, 255, 255, 127] ++
    [0] ++ [255, 255, 255, 127] ++ [0] ++
    47 :: textBytes "URGENT: Alert key compromised, upgrade required" ++ [0]

def otherMsg (nCancel : Bytes) : Bytes :=
  [1, 0, 0, 0] ++ [255, 255, 255, 127, 0, 0, 0, 0] ++ [255, 255, 255, 127, 0, 0, 0, 0] ++
    [1, 0, 0, 0] ++ nCancel ++ [0] ++ [0, 0, 0, 0] ++ [255, 255, 255, 127] ++
    [0] ++ [0, 0, 0, 0] ++ [0] ++ [2, 79, 75] ++ [0]

def callAt (vchMsg : Bytes) : AlertCall := ⟨1500000000, vchMsg, []⟩

def finalAlert : CAlert where
  nExpiration := maxInt
  nID := maxInt
  nCancel := maxInt - 1
  setCancel := []
  nMinVer := 0
  nMaxVer := maxInt
  setSubVer := []
  nPriority := maxInt
  strStatusBar := textBytes "URGENT: Alert key compromised, upgrade required"
  nID_le := le_refl _
  vchMsg := finalMsg
  vchSig := []

theorem finalAlert_stays_sample :
    (processAlert sampleKey (runAlerts sampleKey []) (callAt (otherMsg [0, 0, 0, 0]))).2
        = .returned true ∧
      HoldsFinal (runAlerts sampleKey ([callAt (otherMsg [0, 0, 0, 0])] ++
        callAt finalMsg :: [callAt (otherMsg [0, 0, 0, 0])])) (sampleKey.hash finalMsg) :=
  ⟨by decide +kernel,
    (finalAlert_stays sampleKey [callAt (otherMsg [0, 0, 0, 0])] (callAt finalMsg) finalAlert
      [callAt (otherMsg [0, 0, 0, 0])] (by decide +kernel) rfl (by decide +kernel)
      (by decide +kernel)).1⟩

/-- The other alert, which cancels every number up to the highest. -/
def overriding : AlertCall := callAt (otherMsg [255, 255, 255, 127])

/-- An alert that cancels every number up to the highest is accepted after the final alert, which is
gone. -/
theorem finalAlert_overridden :
    (screened sampleKey (callAt finalMsg)).map (fun a => a.nID) = some maxInt ∧
      (processAlert sampleKey (runAlerts sampleKey []) (callAt finalMsg)).2 = .returned true ∧
      (screened sampleKey overriding).map (fun a => a.nID) = some 1 ∧
      (processAlert sampleKey (runAlerts sampleKey [callAt finalMsg]) overriding).2
        = .returned true ∧
      ((runAlerts sampleKey [callAt finalMsg, overriding]).find? (sampleKey.hash finalMsg)).isSome
        = false := by
  decide +kernel

end HoboNickels.Alerts

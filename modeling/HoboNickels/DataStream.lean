import HoboNickels.TxDb

/-!
# `CDataStream` as a queue of bytes

The stream is a vector with the position up to which it has been read. Reading to the end clears it,
and an insertion at the front may overwrite what has been read. For its callers it is a queue of the
bytes that are left, as long as positions fit an `unsigned int` and no stream is appended with `<<`
that has been read from: that appends the bytes already read as well.
-/

namespace HoboNickels

open List

structure CDataStream where
  vch : Bytes
  nReadPos : Nat
  deriving DecidableEq

namespace CDataStream

def Valid (s : CDataStream) : Prop := s.nReadPos ≤ s.vch.length ∧ s.nReadPos < 2 ^ 32

/-- From `begin()` to `end()`. -/
def unread (s : CDataStream) : Bytes := s.vch.drop s.nReadPos

def size (s : CDataStream) : Nat := s.vch.length - s.nReadPos

def empty (s : CDataStream) : Bool := s.vch.length == s.nReadPos

/-- The operations with their arguments; a size is an `int`. `insert` with `fRange` is the one that
takes a range, and `erase` is given a prefix of the unread bytes. -/
inductive Op where
  | write (pch : Bytes) (hsize : pch.length < 2 ^ 31)
  | read (nSize : Fin (2 ^ 31))
  | ignore (nSize : Fin (2 ^ 31))
  | insert (fBegin fRange : Bool) (chars : Bytes)
  | eraseFirst
  | erase (n : Nat)
  | compact
  | append (b : { b : CDataStream // b.Valid })
  | shift (b : { b : CDataStream // b.Valid })

/-- `stopped` is a failed assertion or an access outside of the vector. -/
inductive Result where
  | done (pch : Bytes)
  | threw
  | stopped
  deriving DecidableEq

variable (s : CDataStream)

/-- `read` and `ignore`, of which only the first copies the bytes. -/
def advance (nSize : Nat) (copied : Result) : Result × CDataStream :=
  let nReadPosNext := (s.nReadPos + nSize) % 2 ^ 32
  if nReadPosNext ≥ s.vch.length then
    if nReadPosNext > s.vch.length then (.threw, s) else (copied, ⟨[], 0⟩)
  else (copied, { s with nReadPos := nReadPosNext })

/-- `memcpy` from the read position. -/
def copied (nSize : Nat) : Result :=
  if s.nReadPos + nSize ≤ s.vch.length then .done (s.unread.take nSize) else .stopped

def insert (it : Nat) (fRange : Bool) (chars : Bytes) : Result × CDataStream :=
  if fRange ∧ it = s.nReadPos ∧ chars.length % 2 ^ 32 ≤ s.nReadPos then
    let nReadPos := s.nReadPos - chars.length % 2 ^ 32
    if s.vch.length < nReadPos + chars.length then (.stopped, s)
    else (.done [],
      ⟨s.vch.take nReadPos ++ (chars ++ s.vch.drop (nReadPos + chars.length)), nReadPos⟩)
  else (.done [], { s with vch := s.vch.take it ++ (chars ++ s.vch.drop it) })

def eraseFirst : CDataStream :=
  let nReadPos := (s.nReadPos + 1) % 2 ^ 32
  if nReadPos ≥ s.vch.length then ⟨[], 0⟩ else { s with nReadPos }

def erase (n : Nat) : CDataStream :=
  let last := min (s.nReadPos + n) s.vch.length
  if last = s.vch.length then ⟨[], 0⟩ else { s with nReadPos := last % 2 ^ 32 }

/-- `Serialize` of `b`: `write` of the whole vector. -/
def shift (b : CDataStream) : Result × CDataStream :=
  let nSize := b.vch.length % 2 ^ 32
  if nSize ≥ 2 ^ 31 then (.stopped, s)
  else (.done [], { s with vch := s.vch ++ b.vch.take nSize })

def step : Op → Result × CDataStream
  | .write pch _ => (.done [], { s with vch := s.vch ++ pch })
  | .read nSize => s.advance nSize (s.copied nSize)
  | .ignore nSize => s.advance nSize (.done [])
  | .insert fBegin fRange chars =>
    s.insert (if fBegin then s.nReadPos else s.vch.length) fRange chars
  | .eraseFirst => (.done [], s.eraseFirst)
  | .erase n => (.done [], s.erase n)
  | .compact => (.done [], ⟨s.unread, 0⟩)
  | .append b => (.done [], { s with vch := s.vch ++ b.1.unread })
  | .shift b => s.shift b.1

/-! ## The queue -/

def taken (q : Bytes) (nSize : Nat) (copied : Result) : Result × Bytes :=
  if nSize ≤ q.length then (copied, q.drop nSize) else (.threw, q)

def Op.onQueue (q : Bytes) : Op → Result × Bytes
  | .write pch _ => (.done [], q ++ pch)
  | .read nSize => taken q nSize (.done (q.take nSize))
  | .ignore nSize => taken q nSize (.done [])
  | .insert fBegin _ chars => (.done [], if fBegin then chars ++ q else q ++ chars)
  | .eraseFirst => (.done [], q.drop 1)
  | .erase n => (.done [], q.drop n)
  | .compact => (.done [], q)
  | .append b | .shift b => (.done [], q ++ b.1.unread)

/-- What the code relies on. -/
def Safe : Op → Prop
  | .read nSize | .ignore nSize => s.nReadPos + nSize < 2 ^ 32
  | .insert fBegin fRange chars => fRange = true → fBegin = true ∨ s.size = 0 →
    chars.length < 2 ^ 32 ∨ s.nReadPos < chars.length % 2 ^ 32
  | .eraseFirst => s.nReadPos + 1 < 2 ^ 32
  | .erase n => s.nReadPos + n < 2 ^ 32 ∨ s.size ≤ n
  | .shift b => b.1.nReadPos = 0 ∧ b.1.vch.length < 2 ^ 31
  | _ => True

def Shows (q : Bytes) : Prop := s.unread = q ∧ s.size = q.length ∧ s.empty = q.isEmpty

/-- A run shows what the queue holds, before and after each operation, and returns what it does. -/
def Follows : CDataStream → Bytes → List Op → Prop
  | s, q, [] => s.Shows q
  | s, q, op :: ops => s.Shows q ∧ (s.step op).1 = (op.onQueue q).1 ∧
    Follows (s.step op).2 (op.onQueue q).2 ops

def SafeRun : CDataStream → List Op → Prop
  | _, [] => True
  | s, op :: ops => s.Safe op ∧ SafeRun (s.step op).2 ops

section

variable {s}

theorem Follows.unread_eq {q : Bytes} {ops : List Op} (h : Follows s q ops) : s.unread = q := by
  cases ops with
  | nil => exact h.1
  | cons op ops => exact h.1.1

variable (hs : s.Valid)
include hs

theorem valid_step (op : Op) : (s.step op).2.Valid := by
  obtain ⟨hle, hlt⟩ := hs
  have hempty : Valid ⟨[], 0⟩ := by simp [Valid]
  have hmod : ∀ n, n % 2 ^ 32 < s.vch.length → Valid ⟨s.vch, n % 2 ^ 32⟩ := fun n hn =>
    ⟨hn.le, Nat.mod_lt _ (by decide)⟩
  have happend : ∀ l, Valid ⟨s.vch ++ l, s.nReadPos⟩ := fun l => by
    refine ⟨?_, hlt⟩
    rw [length_append]
    exact Nat.le_add_right_of_le hle
  cases op with
  | write pch _ => exact happend pch
  | append b => exact happend b.1.unread
  | compact => exact ⟨Nat.zero_le _, Nat.two_pow_pos 32⟩
  | read nSize | ignore nSize =>
    simp only [step, advance]
    split_ifs with hend
    · exact ⟨hle, hlt⟩
    · exact hempty
    · exact hmod _ (not_le.mp hend)
  | insert fBegin fRange chars =>
    simp only [step, insert]
    split_ifs
    · exact ⟨hle, hlt⟩
    all_goals simp [Valid]; omega
  | eraseFirst =>
    simp only [step, eraseFirst]
    split_ifs with hend
    · exact hempty
    · exact hmod _ (not_le.mp hend)
  | erase n =>
    simp only [step, erase]
    split_ifs with hend
    · exact hempty
    · exact hmod _ ((Nat.mod_le _ _).trans_lt (by omega))
  | shift b =>
    simp only [step, shift]
    split_ifs
    · exact ⟨hle, hlt⟩
    · exact happend _

theorem advance_refines_iff {nSize : Nat} {copied : Result} (hsize : nSize < 2 ^ 31)
    (hcopied : copied ≠ .threw) :
    ((s.advance nSize copied).1, (s.advance nSize copied).2.unread) = taken s.unread nSize copied ↔
      s.nReadPos + nSize < 2 ^ 32 := by
  obtain ⟨hle, hlt⟩ := hs
  unfold advance taken unread
  rw [length_drop]
  by_cases hfits : s.nReadPos + nSize < 2 ^ 32
  · simp only [Nat.mod_eq_of_lt hfits, hfits, iff_true]
    split_ifs <;> simp [drop_drop] <;> omega
  · -- the position wraps to one that has been passed
    obtain ⟨next, hnext⟩ : ∃ m, (s.nReadPos + nSize) % 2 ^ 32 = m := ⟨_, rfl⟩
    simp only [hnext, hfits, iff_false]
    rw [if_neg (by omega)]
    split_ifs
    · intro heq
      have hlen := congrArg (fun r => r.2.length) heq
      simp only [drop_drop, length_drop] at hlen
      omega
    · intro heq
      exact hcopied (congrArg Prod.fst heq)

theorem insert_front_iff (fRange : Bool) (chars : Bytes) :
    ((s.insert s.nReadPos fRange chars).1, (s.insert s.nReadPos fRange chars).2.unread) =
        (.done [], chars ++ s.unread) ↔
      (fRange = true → chars.length < 2 ^ 32 ∨ s.nReadPos < chars.length % 2 ^ 32) := by
  have hle := hs.1
  obtain ⟨low, hlow⟩ : ∃ m, chars.length % 2 ^ 32 = m := ⟨_, rfl⟩
  have hdrop : ∀ n ≤ s.nReadPos, ∀ l, (s.vch.take n ++ l).drop n = l := fun n hn l => by
    rw [drop_left']
    simp only [length_take]
    omega
  simp only [insert, hlow, true_and, unread]
  split_ifs with hspecial hroom
  · simp only [hspecial.1, Prod.mk.injEq, reduceCtorEq, false_and, true_imp_iff, false_iff]
    omega
  · simp only [hspecial.1, hdrop _ (Nat.sub_le ..), Prod.mk.injEq, true_and, append_cancel_left_eq,
      drop_eq_drop_iff, true_imp_iff]
    omega
  · simp only [hdrop _ le_rfl, true_iff]
    intro hrange
    exact .inr (not_le.mp fun hle => hspecial ⟨hrange, hle⟩)

theorem insert_back (hne : s.vch.length ≠ s.nReadPos) (fRange : Bool) (chars : Bytes) :
    ((s.insert s.vch.length fRange chars).1, (s.insert s.vch.length fRange chars).2.unread) =
      (.done [], s.unread ++ chars) := by
  simp [insert, hne, unread, drop_append_of_le_length hs.1]

theorem step_refines_iff (op : Op) :
    ((s.step op).1, (s.step op).2.unread) = op.onQueue s.unread ↔ s.Safe op := by
  have hle := hs.1
  cases op with
  | write | append => simp [step, Op.onQueue, Safe, unread, drop_append_of_le_length hle]
  | compact => simp [step, Op.onQueue, Safe, unread]
  | read nSize =>
    have htaken : taken s.unread nSize (.done (s.unread.take nSize)) =
        taken s.unread nSize (s.copied nSize) := by
      unfold taken copied
      split_ifs <;> simp_all [unread]; omega
    rw [step, Op.onQueue, htaken]
    refine advance_refines_iff hs nSize.2 ?_
    unfold copied
    split <;> nofun
  | ignore nSize => exact advance_refines_iff hs nSize.2 nofun
  | insert fBegin fRange chars =>
    simp only [step, Op.onQueue, Safe, size]
    cases fBegin with
    | true => simpa using insert_front_iff hs fRange chars
    | false =>
      by_cases hend : s.vch.length = s.nReadPos
      · have hnil : s.unread = [] := drop_eq_nil_of_le hend.le
        have hfront := insert_front_iff hs fRange chars
        simpa [hend, hnil] using hfront
      · have hleft : s.vch.length - s.nReadPos ≠ 0 := by omega
        simp [insert_back hs hend, hleft]
  | eraseFirst =>
    obtain ⟨next, hnext⟩ : ∃ m, (s.nReadPos + 1) % 2 ^ 32 = m := ⟨_, rfl⟩
    have := hs.2
    simp only [step, eraseFirst, Op.onQueue, Safe, unread, hnext]
    split_ifs <;> simp [drop_eq_drop_iff] <;> omega
  | erase n =>
    obtain ⟨last, hlast⟩ : ∃ m, min (s.nReadPos + n) s.vch.length = m := ⟨_, rfl⟩
    obtain ⟨next, hnext⟩ : ∃ m, last % 2 ^ 32 = m := ⟨_, rfl⟩
    simp only [step, erase, Op.onQueue, Safe, unread, size, hlast, hnext]
    split_ifs <;> simp [drop_eq_drop_iff] <;> omega
  | shift b =>
    obtain ⟨hb, hlt⟩ := b.2
    obtain ⟨low, hlow⟩ : ∃ m, b.1.vch.length % 2 ^ 32 = m := ⟨_, rfl⟩
    simp only [step, shift, Op.onQueue, Safe, unread, hlow]
    split_ifs
    · simp only [Prod.mk.injEq, reduceCtorEq, false_and, false_iff]
      omega
    · simp only [Prod.mk.injEq, true_and, drop_append_of_le_length hle, append_cancel_left_eq]
      constructor
      · intro heq
        have hlen := congrArg length heq
        simp only [length_take, length_drop] at hlen
        omega
      · rintro ⟨hpos, hshort⟩
        rw [hpos, drop_zero, take_of_length_le (by omega)]

theorem shows_unread : s.Shows s.unread := by
  refine ⟨rfl, by simp [size, unread], ?_⟩
  rw [empty, Bool.eq_iff_iff, beq_iff_eq, List.isEmpty_iff, unread, drop_eq_nil_iff]
  exact ⟨Eq.le, fun hle => le_antisymm hle hs.1⟩

theorem follows_iff {q : Bytes} (hq : s.unread = q) (ops : List Op) :
    Follows s q ops ↔ SafeRun s ops := by
  induction ops generalizing s q with
  | nil => simp [Follows, SafeRun, ← hq, shows_unread hs]
  | cons op ops ih =>
    subst hq
    have hstep := step_refines_iff hs op
    rw [Prod.ext_iff] at hstep
    constructor
    · rintro ⟨-, hresult, hrest⟩
      have hnext := hrest.unread_eq
      exact ⟨hstep.mp ⟨hresult, hnext⟩, (ih (valid_step hs op) hnext).mp hrest⟩
    · rintro ⟨hsafe, hrest⟩
      obtain ⟨hresult, hnext⟩ := hstep.mpr hsafe
      exact ⟨shows_unread hs, hresult, (ih (valid_step hs op) hnext).mpr hrest⟩

end

/-- **Every run from an empty stream.** -/
theorem stream_refines_iff (ops : List Op) : Follows ⟨[], 0⟩ [] ops ↔ SafeRun ⟨[], 0⟩ ops :=
  follows_iff ⟨le_rfl, Nat.two_pow_pos 32⟩ rfl ops

/-- A stream of two bytes of which one has been read: all of it is appended. -/
theorem shift_repeats_read :
    (step ⟨[], 0⟩ (.write [1, 2] (by decide))).2.step (.read 1) = (.done [1], ⟨[1, 2], 1⟩) ∧
      (step ⟨[], 0⟩ (.shift ⟨⟨[1, 2], 1⟩, by decide, by decide⟩)).2.unread = [1, 2] ∧
      ¬ Follows ⟨[], 0⟩ [] [.shift ⟨⟨[1, 2], 1⟩, by decide, by decide⟩] := by
  refine ⟨by decide, by decide, fun h => ?_⟩
  exact absurd h.2.2.unread_eq (by decide)

end CDataStream

end HoboNickels

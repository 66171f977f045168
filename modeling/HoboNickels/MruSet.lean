import Mathlib

/-!
# The most recent elements

An `mruset` keeps its elements twice, in a set to look them up and in a queue by age, and drops the
oldest when the maximum would be passed. An element that was dropped does not come back when the
maximum is raised, so presence depends on every maximum since the insertion and not on the last.
-/

namespace HoboNickels

structure Mruset (α : Type) where
  set : Finset α
  queue : List α
  nMaxSize : Nat

namespace Mruset

inductive Call (α : Type)
  | insert (x : α)
  | clear
  | maxSize (s : Nat)

variable {α : Type}

/-- The newest `n` elements of a list with the newest first, all of them for `n = 0`. -/
def trim (n : Nat) (recent : List α) : List α := if n ≠ 0 then recent.take n else recent

/-- Distinct elements, not more of them than the maximum. -/
structure Fits (n : Nat) (recent : List α) : Prop where
  nodup : recent.Nodup
  length_le : n ≠ 0 → recent.length ≤ n

section Trim

variable {n k : Nat} {recent : List α} {x : α}

theorem getElem?_trim : (trim n recent)[k]? = some x ↔ recent[k]? = some x ∧ (n ≠ 0 → k < n) := by
  unfold trim
  split
  · simp [List.getElem?_take, *, and_comm]
  · simp_all

theorem trim_eq_self (h : n ≠ 0 → recent.length ≤ n) : trim n recent = recent := by
  unfold trim
  split
  · exact List.take_of_length_le (h ‹_›)
  · rfl

theorem fits_trim (hnodup : recent.Nodup) : Fits n (trim n recent) := by
  unfold trim
  split
  · exact ⟨hnodup.sublist (List.take_sublist _ _), fun _ => List.length_take_le _ _⟩
  · exact ⟨hnodup, fun h => absurd h ‹_›⟩

end Trim

variable [DecidableEq α]

section

variable (m : Mruset α)

def insert (x : α) : Mruset α :=
  if x ∈ m.set then m
  else if m.nMaxSize ≠ 0 ∧ m.queue.length = m.nMaxSize then
    match m.queue with
    | front :: queue =>
      { m with set := (Insert.insert x m.set).erase front, queue := queue ++ [x] }
    | [] => m
  else { m with set := Insert.insert x m.set, queue := m.queue ++ [x] }

def clear : Mruset α := { m with set := ∅, queue := [] }

/-- The loop of `max_size`, along the queue. -/
def shrink (s : Nat) (set : Finset α) : (queue : List α) → Finset α × List α
  | [] => (set, [])
  | front :: queue =>
    if queue.length + 1 > s then shrink s (set.erase front) queue else (set, front :: queue)

def maxSize (s : Nat) : Mruset α :=
  let kept := if s ≠ 0 then shrink s m.set m.queue else (m.set, m.queue)
  ⟨kept.1, kept.2, s⟩

def step : Call α → Mruset α
  | .insert x => m.insert x
  | .clear => m.clear
  | .maxSize s => m.maxSize s

end

/-- The set after calls on `mruset(nMaxSizeIn)`, the latest of them first. -/
def run (nMaxSizeIn : Nat) : List (Call α) → Mruset α
  | [] => ⟨∅, [], nMaxSizeIn⟩
  | call :: calls => (run nMaxSizeIn calls).step call

/-! ## One call -/

/-- The state that holds the elements of a list with the newest first. -/
def ofRecent (n : Nat) (recent : List α) : Mruset α := ⟨recent.toFinset, recent.reverse, n⟩

variable {n s : Nat} {recent : List α} {x : α}

theorem insert_ofRecent (h : Fits n recent) (hx : x ∉ recent) :
    (ofRecent n recent).insert x = ofRecent n (trim n (x :: recent)) := by
  unfold insert
  rw [if_neg (by simpa [ofRecent] using hx)]
  split
  · next hfull =>
    obtain ⟨h0, hlen⟩ := hfull
    -- the front of the queue is the oldest element
    cases recent using List.reverseRecOn with
    | nil => exact absurd hlen.symm h0
    | append_singleton recent front =>
      have hlen : recent.length + 1 = n := by simpa [ofRecent] using hlen
      have htrim : trim n (x :: (recent ++ [front])) = x :: recent := by
        simp [trim, ← hlen]
      have hfront : (Insert.insert x (recent ++ [front]).toFinset).erase front =
          (x :: recent).toFinset := by
        have := h.nodup
        ext y
        grind [List.mem_toFinset]
      simp [ofRecent, htrim, ← hfront]
  · next hfull =>
    rw [trim_eq_self]
    · simp [ofRecent]
    · intro h0
      have := h.length_le h0
      grind [ofRecent]

theorem shrink_eq (s : Nat) {queue : List α} (hnodup : queue.Nodup) :
    shrink s queue.toFinset queue =
      ((queue.reverse.take s).toFinset, (queue.reverse.take s).reverse) := by
  induction queue with
  | nil => simp [shrink]
  | cons front queue ih =>
    obtain ⟨hfront, hnodup⟩ := List.nodup_cons.mp hnodup
    unfold shrink
    split
    · have herase : (front :: queue).toFinset.erase front = queue.toFinset := by
        simp [hfront]
      rw [herase, ih hnodup, List.reverse_cons, List.take_append_of_le_length]
      grind
    · rw [List.take_of_length_le]
      · simp
      · grind

theorem maxSize_ofRecent (h : Fits n recent) :
    (ofRecent n recent).maxSize s = ofRecent s (trim s recent) := by
  unfold maxSize trim
  split
  · have hshrink := shrink_eq s (List.nodup_reverse.mpr h.nodup)
    rw [List.toFinset_reverse, List.reverse_reverse] at hshrink
    simp [ofRecent, hshrink]
  · rfl

/-! ## A run -/

/-- `x` was newly inserted by one of the calls, `k` others since, without a `clear`, and since then
their number was always below the maximum of the time. -/
inductive Kept (nMaxSizeIn : Nat) (x : α) : List (Call α) → Nat → Prop
  | new {calls} : x ∉ (run nMaxSizeIn calls).set → Kept nMaxSizeIn x (.insert x :: calls) 0
  | known {calls k y} : Kept nMaxSizeIn x calls k → y ∈ (run nMaxSizeIn calls).set →
      Kept nMaxSizeIn x (.insert y :: calls) k
  | later {calls k y} : Kept nMaxSizeIn x calls k → y ∉ (run nMaxSizeIn calls).set →
      ((run nMaxSizeIn calls).nMaxSize ≠ 0 → k + 1 < (run nMaxSizeIn calls).nMaxSize) →
      Kept nMaxSizeIn x (.insert y :: calls) (k + 1)
  | resized {calls k s} : Kept nMaxSizeIn x calls k → (s ≠ 0 → k < s) →
      Kept nMaxSizeIn x (.maxSize s :: calls) k

/-- The state holds a list, in which the place of an element counts the new ones since. -/
theorem exists_run_eq (nMaxSizeIn : Nat) (calls : List (Call α)) :
    ∃ n recent, run nMaxSizeIn calls = ofRecent n recent ∧ Fits n recent ∧
      ∀ x k, recent[k]? = some x ↔ Kept nMaxSizeIn x calls k := by
  induction calls with
  | nil => exact ⟨nMaxSizeIn, [], rfl, ⟨.nil, fun _ => Nat.zero_le _⟩, fun _ _ => ⟨nofun, nofun⟩⟩
  | cons call calls ih =>
    obtain ⟨n, recent, hrun, hfits, hkept⟩ := ih
    have hmem : ∀ y, y ∈ (run nMaxSizeIn calls).set ↔ y ∈ recent := by
      simp [hrun, ofRecent]
    have hmax : (run nMaxSizeIn calls).nMaxSize = n := by rw [hrun]; rfl
    cases call with
    | insert y =>
      by_cases hy : y ∈ recent
      · refine ⟨n, recent, ?_, hfits, fun x k => (hkept x k).trans ⟨?_, ?_⟩⟩
        · rw [run, step, insert, if_pos ((hmem y).mpr hy), hrun]
        · exact fun h => .known h ((hmem y).mpr hy)
        · rintro (h | ⟨h, -⟩ | ⟨-, h, -⟩)
          · exact absurd ((hmem y).mpr hy) h
          · exact h
          · exact absurd ((hmem y).mpr hy) h
      · have hnew := mt (hmem y).mp hy
        refine ⟨n, _, ?_, fits_trim (List.nodup_cons.mpr ⟨hy, hfits.nodup⟩), fun x k => ?_⟩
        · rw [run, hrun, step, insert_ofRecent hfits hy]
        rw [getElem?_trim]
        constructor
        · rintro ⟨hk, hlt⟩
          cases k with
          | zero => exact (Option.some.inj hk) ▸ .new hnew
          | succ k => exact .later ((hkept x k).mp hk) hnew (by rwa [hmax])
        · rintro (h | ⟨-, h⟩ | ⟨h, -, hlt⟩)
          · exact ⟨rfl, Nat.pos_of_ne_zero⟩
          · exact absurd h hnew
          · exact ⟨(hkept x _).mpr h, by rwa [hmax] at hlt⟩
    | clear =>
      refine ⟨n, [], ?_, ⟨.nil, fun _ => Nat.zero_le _⟩, fun _ _ => ⟨nofun, nofun⟩⟩
      rw [run, hrun]
      rfl
    | maxSize s =>
      refine ⟨s, _, ?_, fits_trim hfits.nodup, fun x k => ?_⟩
      · rw [run, hrun, step, maxSize_ofRecent hfits]
      · rw [getElem?_trim, hkept]
        constructor
        · rintro ⟨h, hs⟩
          exact .resized h hs
        · rintro (_ | _ | _ | ⟨h, hs⟩)
          exact ⟨h, hs⟩

theorem mem_run_iff (nMaxSizeIn : Nat) (calls : List (Call α)) :
    let m := run nMaxSizeIn calls
    m.queue.Nodup ∧ (∀ x, x ∈ m.set ↔ x ∈ m.queue) ∧ m.set.card = m.queue.length ∧
      (m.nMaxSize ≠ 0 → m.set.card ≤ m.nMaxSize) ∧
      ∀ x, x ∈ m.set ↔ ∃ k, Kept nMaxSizeIn x calls k := by
  obtain ⟨n, recent, hrun, hfits, hkept⟩ := exists_run_eq nMaxSizeIn calls
  have hcard := List.toFinset_card_of_nodup hfits.nodup
  simp only [hrun, ofRecent, ← hkept, ← List.mem_iff_getElem?]
  refine ⟨List.nodup_reverse.mpr hfits.nodup, ?_, ?_, ?_, ?_⟩
  · simp
  · simp [hcard]
  · exact fun h0 => hcard ▸ hfits.length_le h0
  · simp

/-- One element came after the first, fewer than the maximum of 5, and the first is gone. -/
theorem raised_maximum_restores_nothing :
    (run 1 [.maxSize 5, .insert 2, .insert 1]).nMaxSize = 5 ∧
      1 ∉ (run 1 [.maxSize 5, .insert 2, .insert 1]).set := by
  decide

end Mruset

end HoboNickels

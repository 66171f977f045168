import Mathlib

/-!
# Masks of hosts

`WildcardMatch` decides which hosts may talk to the RPC server. It walks along the string and the
mask together and calls itself twice at a star.
-/

namespace HoboNickels

/-- The arguments are the characters before the terminating NUL. -/
def wildcardMatch : (psz mask : List Char) → Bool
  | psz, [] => psz.isEmpty
  | [], '*' :: mask => wildcardMatch [] mask
  | c :: psz, '*' :: mask => wildcardMatch (c :: psz) mask || wildcardMatch psz ('*' :: mask)
  | [], _ :: _ => false
  | c :: psz, m :: mask => if m ≠ '?' ∧ c ≠ m then false else wildcardMatch psz mask
termination_by psz mask => psz.length + mask.length

/-- What may stand in the place of one character of a mask. -/
def Replaces (m : Char) (run : List Char) : Prop :=
  m = '*' ∨ (if m = '?' then run.length = 1 else run = [m])

/-- The string is the mask with every character of it replaced. -/
def Glob (mask str : List Char) : Prop :=
  ∃ runs, List.Forall₂ Replaces mask runs ∧ runs.flatten = str

section Glob

variable {mask str psz : List Char} {c m : Char}

theorem glob_nil : Glob [] str ↔ str = [] := by
  simp [Glob, eq_comm]

theorem glob_cons :
    Glob (m :: mask) str ↔ ∃ run rest, Replaces m run ∧ Glob mask rest ∧ run ++ rest = str := by
  constructor
  · rintro ⟨runs, hall, rfl⟩
    obtain ⟨run, runs, hrun, hruns, rfl⟩ := List.forall₂_cons_left_iff.mp hall
    exact ⟨run, _, hrun, ⟨runs, hruns, rfl⟩, rfl⟩
  · rintro ⟨run, _, hrun, ⟨runs, hall, rfl⟩, rfl⟩
    exact ⟨run :: runs, .cons hrun hall, rfl⟩

/-- The run that replaces a star is empty, or its first character is the string's. -/
theorem glob_star :
    Glob ('*' :: mask) (c :: psz) ↔ Glob mask (c :: psz) ∨ Glob ('*' :: mask) psz := by
  simp only [glob_cons]
  constructor
  · rintro ⟨run, rest, -, hrest, hstr⟩
    obtain ⟨rfl, rfl⟩ | ⟨run, rfl, rfl⟩ := List.append_eq_cons_iff.mp hstr
    · exact .inl hrest
    · exact .inr ⟨run, rest, .inl rfl, hrest, rfl⟩
  · rintro (h | ⟨run, rest, -, hrest, rfl⟩)
    · exact ⟨[], _, .inl rfl, h, rfl⟩
    · exact ⟨c :: run, rest, .inl rfl, hrest, rfl⟩

/-- Any other character of a mask is replaced by one character. -/
theorem glob_char (hm : m ≠ '*') : Glob (m :: mask) str ↔
      ∃ c rest, c :: rest = str ∧ ¬(m ≠ '?' ∧ c ≠ m) ∧ Glob mask rest := by
  rw [glob_cons]
  constructor
  · rintro ⟨run, rest, hrun, hrest, rfl⟩
    have hrun := hrun.resolve_left hm
    split at hrun
    · obtain ⟨c, rfl⟩ := List.length_eq_one_iff.mp hrun
      exact ⟨c, rest, rfl, fun h => h.1 ‹_›, hrest⟩
    · exact ⟨m, rest, by rw [hrun]; rfl, fun h => h.2 rfl, hrest⟩
  · rintro ⟨c, rest, rfl, hc, hrest⟩
    refine ⟨[c], rest, .inr ?_, hrest, rfl⟩
    split
    · rfl
    · rw [not_not.mp fun h => hc ⟨‹_›, h⟩]

end Glob

theorem wildcardMatch_iff (psz mask : List Char) :
    wildcardMatch psz mask = true ↔ Glob mask psz := by
  fun_induction wildcardMatch psz mask with
  | case1 psz => rw [glob_nil, List.isEmpty_iff]
  | case2 mask ih => simp [glob_cons, Replaces, ih]
  | case3 c psz mask ih₁ ih₂ => rw [Bool.or_eq_true, ih₁, ih₂, glob_star]
  | case4 m mask hm => simp [glob_char hm]
  | case5 c psz m mask hm hne => simp [glob_char hm, -not_and, hne]
  | case6 c psz m mask hm hne ih => simp [glob_char hm, -not_and, hne, ih]

end HoboNickels

import Mathlib

/-!
# Choosing from a list by bits

`chosen l bits` keeps the entries of a list whose bits are set.
-/

namespace Chosen

variable {α β : Type*}

variable (a : α) (l : List α) (bits : List Bool)

/-- The entries whose bits are set; entries beyond the bits are left out. -/
def chosen : List α → List Bool → List α
  | a :: l, f :: bits => if f then a :: chosen l bits else chosen l bits
  | _, _ => []

@[simp] theorem chosen_nil : chosen ([] : List α) bits = [] := rfl

@[simp] theorem chosen_cons_true : chosen (a :: l) (true :: bits) = a :: chosen l bits := rfl

@[simp] theorem chosen_cons_false : chosen (a :: l) (false :: bits) = chosen l bits := rfl

theorem chosen_sublist : (chosen l bits).Sublist l := by
  induction l generalizing bits with
  | nil => simp
  | cons a l ih =>
    cases bits with
    | nil => simp [chosen]
    | cons f bits =>
      cases f with
      | true => simpa using ih bits
      | false => simpa using (ih bits).cons a

theorem map_chosen (g : α → β) (l : List α) (bits : List Bool) :
    (chosen l bits).map g = chosen (l.map g) bits := by
  induction l generalizing bits with
  | nil => simp
  | cons a l ih =>
    cases bits with
    | nil => simp [chosen]
    | cons f bits => cases f <;> simp [ih]

theorem chosen_all : chosen l (List.replicate l.length true) = l := by
  induction l with
  | nil => rfl
  | cons a l ih => simpa [List.replicate_succ] using ih

theorem chosen_none : chosen l (List.replicate l.length false) = [] := by
  induction l with
  | nil => rfl
  | cons a l ih => simpa [List.replicate_succ] using ih

theorem sum_chosen_set {M : Type*} [AddCommMonoid M] {l : List M} {bits : List Bool} {i : Nat}
    {v : M} (hv : l[i]? = some v) (hbit : bits[i]? = some false) :
    (chosen l (bits.set i true)).sum = (chosen l bits).sum + v := by
  induction l generalizing bits i with
  | nil => simp at hv
  | cons a l ih =>
    cases bits with
    | nil => simp at hbit
    | cons f bits =>
      cases i with
      | zero =>
        simp only [List.getElem?_cons_zero, Option.some.injEq] at hv hbit
        subst hv hbit
        simp [add_comm]
      | succ i =>
        cases f <;> simp [ih hv hbit, add_assoc]

end Chosen

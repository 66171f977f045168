import Mathlib

/-!
# Bisection

A loop that halves an interval of integers until it is narrower than a given width, keeping a test
that holds at the upper bound and fails at the lower one.
-/

namespace Bisection

/-- The loop `while (lower + width <= upper)`, for at most as many rounds as given. -/
def bisect (test : Int → Bool) (width : Int) : Nat → Int → Int → Int × Int
  | 0, lower, upper => (lower, upper)
  | rounds + 1, lower, upper =>
    if lower + width ≤ upper then
      let mid := (lower + upper).tdiv 2
      if test mid then bisect test width rounds lower mid else bisect test width rounds mid upper
    else (lower, upper)

variable {test : Int → Bool} {width : Int}

theorem mid_between {lower upper : Int} (hlower : 0 ≤ lower) (hwidth : 2 ≤ width)
    (hmore : lower + width ≤ upper) :
    lower < (lower + upper).tdiv 2 ∧ (lower + upper).tdiv 2 < upper := by
  rw [Int.tdiv_eq_ediv_of_nonneg (by omega)]
  omega

/-- The bounds at the end lie in the interval, and each is a bound from the beginning or has been
tested. -/
structure Bounds (test : Int → Bool) (lower upper : Int) (r : Int × Int) : Prop where
  lt : r.1 < r.2
  lower_le : lower ≤ r.1
  le_upper : r.2 ≤ upper
  lower_fails : r.1 = lower ∨ test r.1 = false
  upper_holds : r.2 = upper ∨ test r.2 = true

theorem bisect_spec (hwidth : 2 ≤ width) (rounds : Nat) (lower upper : Int) (hlower : 0 ≤ lower)
    (hlt : lower < upper) : Bounds test lower upper (bisect test width rounds lower upper) := by
  fun_induction bisect test width rounds lower upper with
  | case1 | case4 => exact ⟨hlt, le_refl _, le_refl _, .inl rfl, .inl rfl⟩
  | case2 rounds lower upper hmore mid htest ih =>
    obtain ⟨hleft, hright⟩ := mid_between hlower hwidth hmore
    obtain ⟨h1, h2, h3, h4, h5⟩ := ih hlower hleft
    refine ⟨h1, h2, by omega, h4, .inr ?_⟩
    rcases h5 with heq | hholds
    · rw [heq]
      exact htest
    · exact hholds
  | case3 rounds lower upper hmore mid htest ih =>
    obtain ⟨hleft, hright⟩ := mid_between hlower hwidth hmore
    obtain ⟨h1, h2, h3, h4, h5⟩ := ih (by omega) hright
    refine ⟨h1, by omega, h3, .inr ?_, h5⟩
    rcases h4 with heq | hfails
    · rw [heq]
      exact Bool.eq_false_of_not_eq_true htest
    · exact hfails

/-- Each round halves the interval: after enough of them the condition of the loop fails. -/
theorem bisect_narrow (hwidth : 2 ≤ width) (rounds : Nat) (lower upper : Int) (hlower : 0 ≤ lower)
    (hlen : upper - lower ≤ (width - 1) * 2 ^ rounds) :
    (bisect test width rounds lower upper).2 <
      (bisect test width rounds lower upper).1 + width := by
  fun_induction bisect test width rounds lower upper with
  | case1 => omega
  | case2 rounds lower upper hmore mid _ ih | case3 rounds lower upper hmore mid _ ih =>
    rw [pow_succ, ← mul_assoc] at hlen
    have hmid : mid = (lower + upper) / 2 := Int.tdiv_eq_ediv_of_nonneg (by omega)
    exact ih (by omega) (by omega)
  | case4 => omega

theorem bisect_rounds {rounds more : Nat} (hle : rounds ≤ more) :
    ∀ (lower upper : Int),
      (bisect test width rounds lower upper).2 < (bisect test width rounds lower upper).1 + width →
      bisect test width more lower upper = bisect test width rounds lower upper := by
  induction rounds generalizing more with
  | zero =>
    intro lower upper hdone
    have hstop : ¬ lower + width ≤ upper := by
      change upper < lower + width at hdone
      omega
    cases more with
    | zero => rfl
    | succ more =>
      change bisect test width (more + 1) lower upper = (lower, upper)
      rw [bisect, if_neg hstop]
  | succ rounds ih =>
    intro lower upper hdone
    obtain ⟨more, rfl⟩ : ∃ k, more = k + 1 := ⟨more - 1, by omega⟩
    rw [bisect] at hdone ⊢
    rw [bisect]
    split
    next hmore =>
      rw [if_pos hmore] at hdone
      dsimp only at hdone ⊢
      split
      next htest =>
        rw [if_pos htest] at hdone
        exact ih (by omega) _ _ hdone
      next htest =>
        rw [if_neg htest] at hdone
        exact ih (by omega) _ _ hdone
    · rfl

/-- A test that holds wherever another does gives no larger upper bound: where the searches part,
the middle separates the results. -/
theorem bisect_mono {test' : Int → Bool} (hwidth : 2 ≤ width)
    (himp : ∀ m, 0 ≤ m → test m = true → test' m = true) (rounds : Nat) (lower upper : Int)
    (hlower : 0 ≤ lower) (hlt : lower < upper) :
    (bisect test' width rounds lower upper).2 ≤ (bisect test width rounds lower upper).2 := by
  induction rounds generalizing lower upper with
  | zero => exact le_refl _
  | succ rounds ih =>
    rw [bisect, bisect]
    split
    next hmore =>
      obtain ⟨hleft, hright⟩ := mid_between hlower hwidth hmore
      have hmid : 0 ≤ (lower + upper).tdiv 2 := by omega
      by_cases htest : test ((lower + upper).tdiv 2) = true
      · rw [if_pos htest, if_pos (himp _ hmid htest)]
        exact ih _ _ hlower hleft
      rw [if_neg htest]
      by_cases htest' : test' ((lower + upper).tdiv 2) = true
      · rw [if_pos htest']
        have hbelow : Bounds test' lower _ _ := bisect_spec hwidth rounds lower _ hlower hleft
        have habove : Bounds test _ upper _ := bisect_spec hwidth rounds _ upper hmid hright
        have hleft_le := hbelow.le_upper
        have hright_le := habove.lower_le
        have hlt := habove.lt
        omega
      · rw [if_neg htest']
        exact ih _ _ hmid hright
    · exact le_refl _

end Bisection

import Mathlib

/-!
# Byte floats: keeping the three leading bytes of a natural number

A number is written big-endian in the fewest bytes whose first bit is clear (a sign bit), and only
the first three of these bytes are kept. `byteSize` is the number of bytes, `mantissa` the three
leading ones, `expand` reads such a pair back, and `trunc` is the rounding this amounts to.
-/

namespace ByteFloat

def bitSize (x : ℕ) : ℕ := if x = 0 then 0 else Nat.log2 x + 1

variable {x : ℕ} {n : ℕ}

theorem bitSize_le_iff : bitSize x ≤ n ↔ x < 2 ^ n := by
  unfold bitSize
  by_cases hx : x = 0
  · simp [hx]
  · rw [if_neg hx, Nat.succ_le_iff, Nat.log2_lt hx]

/-- Bytes needed so that the first bit is clear; zero takes none. -/
def byteSize (x : ℕ) : ℕ := if x = 0 then 0 else bitSize x / 8 + 1

theorem byteSize_le_iff : byteSize x ≤ n + 1 ↔ x < 2 ^ (8 * n + 7) := by
  unfold byteSize
  by_cases hx : x = 0
  · simp [hx]
  · rw [if_neg hx, ← bitSize_le_iff]
    omega

theorem byteSize_mono {y : ℕ} (h : x ≤ y) : byteSize x ≤ byteSize y := by
  cases hy : byteSize y with
  | zero =>
    have : y = 0 := by
      by_contra hne
      simp [byteSize, hne] at hy
    simp [show x = 0 by omega, byteSize]
  | succ n =>
    exact byteSize_le_iff.mpr (lt_of_le_of_lt h (byteSize_le_iff.mp hy.le))

def mantissa (x : ℕ) : ℕ :=
  if byteSize x ≤ 3 then x * 256 ^ (3 - byteSize x) else x / 256 ^ (byteSize x - 3)

/-- The number that `size` bytes starting with the three bytes `m` denote. -/
def expand (size m : ℕ) : ℕ :=
  if size ≤ 3 then m / 256 ^ (3 - size) else m * 256 ^ (size - 3)

def ulp (x : ℕ) : ℕ := 256 ^ (byteSize x - 3)

theorem ulp_pos (x : ℕ) : 0 < ulp x := pow_pos (by norm_num) _

def trunc (x : ℕ) : ℕ := x / ulp x * ulp x

theorem trunc_eq_self_of_small (h : byteSize x ≤ 3) : trunc x = x := by
  have : ulp x = 1 := by simp [ulp, Nat.sub_eq_zero_of_le h]
  simp [trunc, this]

theorem expand_mantissa (x : ℕ) : expand (byteSize x) (mantissa x) = trunc x := by
  by_cases h : byteSize x ≤ 3
  · rw [trunc_eq_self_of_small h, expand, mantissa, if_pos h, if_pos h,
      Nat.mul_div_cancel _ (pow_pos (by norm_num) _)]
  · rw [expand, mantissa, if_neg h, if_neg h]; rfl

theorem trunc_le (x : ℕ) : trunc x ≤ x := Nat.div_mul_le_self x (ulp x)

theorem lt_trunc_add_ulp (x : ℕ) : x < trunc x + ulp x := by
  have := Nat.lt_div_mul_add (ulp_pos x) (a := x)
  simpa [trunc] using this

theorem two_pow_mul_ulp (h : byteSize x = n + 2) (hn : 1 ≤ n) :
    2 ^ 15 * ulp x = 2 ^ (8 * n + 7) := by
  rw [ulp, show (256 : ℕ) = 2 ^ 8 from rfl, ← pow_mul, ← pow_add]
  congr 1
  omega

theorem two_pow_mul_ulp_le (h : 3 < byteSize x) : 2 ^ 15 * ulp x ≤ x := by
  obtain ⟨n, hn⟩ : ∃ n, byteSize x = n + 2 := ⟨byteSize x - 2, by omega⟩
  have hx : ¬ x < 2 ^ (8 * n + 7) := fun hlt => by
    have := byteSize_le_iff.mpr hlt
    omega
  rw [two_pow_mul_ulp hn (by omega)]
  exact not_lt.mp hx

theorem two_pow_mul_ulp_le_trunc (h : 3 < byteSize x) : 2 ^ 15 * ulp x ≤ trunc x := by
  exact Nat.mul_le_mul_right _ ((Nat.le_div_iff_mul_le (ulp_pos x)).mpr (two_pow_mul_ulp_le h))

theorem lt_two_mul_trunc (hx : 0 < x) : x < 2 * trunc x := by
  by_cases h : byteSize x ≤ 3
  · rw [trunc_eq_self_of_small h]; omega
  have h1 := lt_trunc_add_ulp x
  have h2 := two_pow_mul_ulp_le_trunc (not_le.mp h)
  omega

theorem mantissa_lt (x : ℕ) : mantissa x < 2 ^ 23 := by
  unfold mantissa
  by_cases hx : x = 0
  · simp [hx, byteSize]
  obtain ⟨n, hn⟩ : ∃ n, byteSize x = n + 1 := ⟨byteSize x - 1, by simp [byteSize, hx]⟩
  have hlt : x < 2 ^ (8 * n + 7) := byteSize_le_iff.mp hn.le
  by_cases h : byteSize x ≤ 3
  · rw [if_pos h, hn]
    calc x * 256 ^ (3 - (n + 1)) < 2 ^ (8 * n + 7) * 256 ^ (3 - (n + 1)) :=
          Nat.mul_lt_mul_of_pos_right hlt (pow_pos (by norm_num) _)
      _ = 2 ^ 23 := by
          rw [show (256 : ℕ) = 2 ^ 8 from rfl, ← pow_mul, ← pow_add]
          congr 1
          omega
  · rw [if_neg h, hn, Nat.div_lt_iff_lt_mul (pow_pos (by norm_num) _)]
    calc x < 2 ^ (8 * n + 7) := hlt
      _ = 2 ^ 23 * 256 ^ (n + 1 - 3) := by
          rw [show (256 : ℕ) = 2 ^ 8 from rfl, ← pow_mul, ← pow_add]
          congr 1
          omega

theorem byteSize_trunc (x : ℕ) : byteSize (trunc x) = byteSize x := by
  by_cases h : byteSize x ≤ 3
  · rw [trunc_eq_self_of_small h]
  refine le_antisymm (byteSize_mono (trunc_le x)) ?_
  -- one byte fewer would put the rounded number below the fifteen leading bits
  by_contra hlt
  obtain ⟨n, hn⟩ : ∃ n, byteSize x = n + 2 := ⟨byteSize x - 2, by omega⟩
  have hsmall : trunc x < 2 ^ (8 * n + 7) := byteSize_le_iff.mp (by omega)
  have hbig := two_pow_mul_ulp_le_trunc (not_le.mp h)
  have hulp := two_pow_mul_ulp hn (by omega)
  omega

theorem trunc_trunc (x : ℕ) : trunc (trunc x) = trunc x := by
  have hulp : ulp (trunc x) = ulp x := by rw [ulp, byteSize_trunc]; rfl
  rw [trunc, hulp]
  conv_lhs => rw [trunc]
  rw [Nat.mul_div_cancel _ (ulp_pos x)]
  rfl

theorem trunc_mono {y : ℕ} (h : x ≤ y) : trunc x ≤ trunc y := by
  rcases (byteSize_mono h).lt_or_eq with _ | heq
  · by_cases hy : byteSize y ≤ 3
    · rw [trunc_eq_self_of_small hy, trunc_eq_self_of_small (by omega)]
      exact h
    · -- `x` has fewer bytes, so it lies below the leading fifteen bits of `y`
      obtain ⟨n, hn⟩ : ∃ n, byteSize y = n + 2 := ⟨byteSize y - 2, by omega⟩
      have hx : x < 2 ^ (8 * n + 7) := byteSize_le_iff.mp (by omega)
      have hulp := two_pow_mul_ulp hn (by omega)
      have := two_pow_mul_ulp_le_trunc (not_le.mp hy)
      have := trunc_le x
      omega
  · have hulp : ulp x = ulp y := by rw [ulp, heq]; rfl
    rw [trunc, hulp]
    exact Nat.mul_le_mul_right _ (Nat.div_le_div_right h)

theorem mantissa_trunc (x : ℕ) : mantissa (trunc x) = mantissa x := by
  by_cases h : byteSize x ≤ 3
  · rw [trunc_eq_self_of_small h]
  · rw [mantissa, mantissa, byteSize_trunc, if_neg h, if_neg h]
    exact Nat.mul_div_cancel _ (ulp_pos x)

theorem byteSize_expand (size : ℕ) {m : ℕ} (hm : m < 2 ^ 23) :
    byteSize (expand size m) ≤ max 3 size := by
  unfold expand
  split
  next hsize =>
    have hlt : m / 256 ^ (3 - size) < 2 ^ (8 * 2 + 7) := (Nat.div_le_self ..).trans_lt hm
    exact (byteSize_le_iff.mpr hlt).trans (le_max_left ..)
  next hsize =>
    obtain ⟨k, rfl⟩ : ∃ k, size = k + 3 := ⟨size - 3, by omega⟩
    have hlt : m * 256 ^ k < 2 ^ (8 * (k + 2) + 7) := by
      calc m * 256 ^ k < 2 ^ 23 * 256 ^ k := Nat.mul_lt_mul_of_pos_right hm (by positivity)
        _ = 2 ^ (8 * (k + 2) + 7) := by
          rw [show (256 : ℕ) = 2 ^ 8 from rfl, ← pow_mul, ← pow_add]
          congr 1
          omega
    exact (byteSize_le_iff.mpr hlt).trans (le_max_right ..)

theorem trunc_expand (size : ℕ) {m : ℕ} (hm : m < 2 ^ 23) :
    trunc (expand size m) = expand size m := by
  have hle := byteSize_expand size hm
  by_cases hsmall : byteSize (expand size m) ≤ 3
  · exact trunc_eq_self_of_small hsmall
  · have hdvd : 256 ^ (size - 3) ∣ expand size m := by
      rw [expand, if_neg (by omega)]
      exact dvd_mul_left ..
    exact Nat.div_mul_cancel ((pow_dvd_pow _ (by omega)).trans hdvd)

end ByteFloat

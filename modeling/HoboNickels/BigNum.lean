import HoboNickels.Params
import HoboNickels.Lib.ByteFloat

/-!
# Compact targets

`CBigNum::SetCompact` and `GetCompact`. A compact value has a size byte and three bytes of mantissa
whose top bit is the sign; `BN_bn2mpi` prepends a zero byte when the magnitude would start with a
set bit. On non-negative numbers the two together are the rounding `ByteFloat.trunc`.
-/

namespace HoboNickels

open ByteFloat

def setCompact (nCompact : Nat) : Int :=
  let nSize := nCompact / 2 ^ 24
  let word := nCompact % 2 ^ 24
  let magnitude := expand nSize (word % 2 ^ 23)
  if word < 2 ^ 23 then magnitude else -magnitude

def getCompact (bn : Int) : Nat :=
  let nSize := byteSize bn.natAbs
  let word := mantissa bn.natAbs
  (nSize % 2 ^ 8) * 2 ^ 24 + (if bn < 0 then word + 2 ^ 23 else word)

theorem setCompact_getCompact {x k : Nat} (hx : x < 2 ^ k) (hk : k ≤ 2000) :
    setCompact (getCompact (x : Int)) = (trunc x : Int) := by
  have hlt : x < 2 ^ (8 * 250 + 7) := hx.trans (Nat.pow_lt_pow_right one_lt_two (by omega))
  have hsize := byteSize_le_iff.mpr hlt
  have hword : mantissa x < 2 ^ 23 := mantissa_lt x
  have hcompact : getCompact (x : Int) = byteSize x * 2 ^ 24 + mantissa x := by
    simp only [getCompact, Int.natAbs_natCast]
    rw [Nat.mod_eq_of_lt (show byteSize x < 2 ^ 8 by omega), if_neg (by omega)]
  have hdiv : (byteSize x * 2 ^ 24 + mantissa x) / 2 ^ 24 = byteSize x := by omega
  have hmod : (byteSize x * 2 ^ 24 + mantissa x) % 2 ^ 24 = mantissa x := by omega
  rw [hcompact]
  simp only [setCompact, hdiv, hmod]
  rw [if_pos hword, Nat.mod_eq_of_lt hword, expand_mantissa]

theorem getCompact_lt (bn : Int) : getCompact bn < 2 ^ 32 := by
  have hword : mantissa bn.natAbs < 2 ^ 23 := mantissa_lt _
  simp only [getCompact]
  split <;> omega

/-- **Compact targets are a monotone rounding** of the integers below `2 ^ 2000`. -/
theorem compact_rounds {x : Nat} (hx : x < 2 ^ 2000) :
    setCompact (getCompact x) ≤ x ∧ (x - setCompact (getCompact x)) * 2 ^ 15 ≤ x ∧
      ((∃ nCompact, setCompact nCompact = x) → setCompact (getCompact x) = x) ∧
      getCompact (setCompact (getCompact x)) = getCompact x ∧
      ∀ y : Nat, x ≤ y → y < 2 ^ 2000 →
        setCompact (getCompact x) ≤ setCompact (getCompact y) := by
  rw [setCompact_getCompact hx le_rfl]
  refine ⟨mod_cast trunc_le x, ?_, ?_, ?_, fun y hxy hy => ?_⟩
  · by_cases hsmall : byteSize x ≤ 3
    · simp [trunc_eq_self_of_small hsmall]
    · have hbound := two_pow_mul_ulp_le (not_le.mp hsmall)
      have hclose := lt_trunc_add_ulp x
      omega
  · rintro ⟨nCompact, hn⟩
    have hword : nCompact % 2 ^ 24 % 2 ^ 23 < 2 ^ 23 := Nat.mod_lt _ (by norm_num)
    have hfix := trunc_expand (nCompact / 2 ^ 24) hword
    have habs : expand (nCompact / 2 ^ 24) (nCompact % 2 ^ 24 % 2 ^ 23) = x := by
      simp only [setCompact] at hn
      split at hn <;> omega
    rw [habs] at hfix
    exact mod_cast hfix
  · simp only [getCompact, Int.natAbs_natCast]
    rw [byteSize_trunc, mantissa_trunc, if_neg (by omega), if_neg (by omega)]
  · rw [setCompact_getCompact hy le_rfl]
    exact mod_cast trunc_mono hxy

theorem compact_rounds_sample :
    getCompact (setCompact (getCompact (0x12345678 : Nat))) = 0x04123456 := by
  have hx : 0x12345678 < 2 ^ 2000 :=
    (show 0x12345678 < 2 ^ 32 by norm_num).trans (Nat.pow_lt_pow_right one_lt_two (by omega))
  rw [(compact_rounds hx).2.2.2.1]
  decide +kernel

end HoboNickels

import HoboNickels.Manifest

/-!
# Hosts and ports

`SplitHostPort` reads the digits after the last colon with `strtol` and keeps the result in an
`int`. The range test comes after that, so a number that leaves a port when its high bits are cut
passes it.
-/

namespace HoboNickels

/-- The value and the text at `endp`; a `long` has 64 bits. -/
def strtol (s : Str) : Int × Str :=
  let t := getNumber (s.dropWhile isSpace)
  let value : Int := if t.negative then -decimalValue t.digits else decimalValue t.digits
  if t.digits = [] then (0, s) else (max (-2 ^ 63) (min (2 ^ 63 - 1) value), t.rest)

/-- What stands before and after the colon that `find_last_of` finds. -/
def splitLastColon : Str → Option (Str × Str)
  | [] => none
  | c :: s =>
    match splitLastColon s with
    | some (before, after) => some (c :: before, after)
    | none => if c = ':' then some ([], s) else none

def bracketed (s : Str) : Bool := s.head? = some '[' ∧ s.getLast? = some ']'

/-- `portOut` and `hostOut`. -/
def splitHostPort (text : Str) (portOut : Int) : Int × Str :=
  let (portOut, text) := match splitLastColon text with
    | none => (portOut, text)
    | some (before, after) =>
      if before = [] ∨ bracketed before ∨ ':' ∉ before then
        let n := (strtol after).1.bmod (2 ^ 32)
        if (strtol after).2.headD '\x00' = '\x00' ∧ n ≥ 0 then
          (if n > 0 ∧ n < 0x10000 then n else portOut, before)
        else (portOut, text)
      else (portOut, text)
  (portOut, if bracketed text then text.tail.dropLast else text)

variable {host digits : Str}

theorem splitLastColon_append (hdigits : ':' ∉ digits) :
    splitLastColon (host ++ ':' :: digits) = some (host, digits) := by
  have hnone : splitLastColon digits = none := by
    induction digits with
    | nil => rfl
    | cons c digits ih =>
      obtain ⟨hc, hdigits⟩ := not_or.mp (List.mem_cons.not.mp hdigits)
      simp [splitLastColon, ih hdigits, Ne.symm hc]
  induction host with
  | nil => simp [splitLastColon, hnone]
  | cons c host ih => rw [List.cons_append, splitLastColon, ih]

theorem isSpace_digit {c : Char} (hc : c.isDigit) : isSpace c = false := by
  by_contra h
  simp only [isSpace, Bool.not_eq_false, Bool.or_eq_true, beq_iff_eq] at h
  rcases h with ((((rfl | rfl) | rfl) | rfl) | rfl) | rfl <;> exact absurd hc (by decide)

theorem getNumber_digits (hdigits : ∀ c ∈ digits, c.isDigit) :
    getNumber digits = ⟨false, digits, []⟩ := by
  unfold getNumber
  split
  next heq =>
    split at heq
    · exact absurd (hdigits '-' List.mem_cons_self) (by decide)
    · exact absurd (hdigits '+' List.mem_cons_self) (by decide)
    · cases heq
      rw [List.takeWhile_eq_self_iff.mpr hdigits, List.dropWhile_eq_nil_iff.mpr hdigits]

theorem strtol_digits (hdigits : ∀ c ∈ digits, c.isDigit) :
    strtol digits = (min (2 ^ 63 - 1) (decimalValue digits : Int), []) := by
  cases digits with
  | nil => rfl
  | cons c digits =>
    have hspace := isSpace_digit (hdigits c List.mem_cons_self)
    rw [strtol, List.dropWhile_cons_of_neg (by simp [hspace]), getNumber_digits hdigits]
    simp only [Bool.false_eq_true, if_false, reduceCtorEq, Prod.mk.injEq, and_true]
    omega

/-- The digits' value, cut to an `int`, is a port. -/
def LooksLikePort (v : Nat) : Prop := v < 2 ^ 63 ∧ 1 ≤ v % 2 ^ 32 ∧ v % 2 ^ 32 ≤ 65535

section

variable (portOut : Int) (hhost : ':' ∉ host ∨ bracketed host) (hdigits : ∀ c ∈ digits, c.isDigit)
include hhost hdigits

theorem splitHostPort_digits :
    (LooksLikePort (decimalValue digits) → splitHostPort (host ++ ':' :: digits) portOut =
      (((decimalValue digits % 2 ^ 32 : Nat) : Int),
        if bracketed host then host.tail.dropLast else host)) ∧
    (¬ LooksLikePort (decimalValue digits) →
      (splitHostPort (host ++ ':' :: digits) portOut).1 = portOut) := by
  have hcolon : ':' ∉ digits := fun h => absurd (hdigits _ h) (by decide)
  have hsep : host = [] ∨ bracketed host ∨ ':' ∉ host := .inr hhost.symm
  simp only [splitHostPort, splitLastColon_append hcolon, strtol_digits hdigits, if_pos hsep,
    LooksLikePort]
  generalize decimalValue digits = v
  -- what is left of the value in an `int`
  generalize hn : (min (2 ^ 63 - 1) (v : Int)).bmod (2 ^ 32) = n
  rw [Int.bmod_def] at hn
  constructor
  · intro hport
    obtain rfl : n = (v % 2 ^ 32 : Nat) := by
      split at hn <;> omega
    rw [if_pos ⟨rfl, by omega⟩, if_pos (by omega)]
  · intro hport
    have hout : ¬(n > 0 ∧ n < 0x10000) := by
      split at hn <;> omega
    rw [if_neg hout]
    split <;> rfl

/-- The port is right unless the digits pass 65535 and their low 32 bits are another port. -/
theorem splitHostPort_faithful_iff :
    let r : Int × Str := splitHostPort (host ++ ':' :: digits) portOut
    let v : Nat := decimalValue digits
    (if 1 ≤ v ∧ v ≤ 65535 then r = ((v : Int), if bracketed host then host.tail.dropLast else host)
      else r.1 = portOut) ↔
      ¬ (65535 < v ∧ LooksLikePort v ∧ portOut ≠ (v % 2 ^ 32 : Nat)) := by
  obtain ⟨hcut, hkept⟩ := splitHostPort_digits portOut hhost hdigits
  dsimp only
  generalize decimalValue digits = v at *
  by_cases hport : LooksLikePort v
  · rw [hcut hport]
    have hpos := hport.2.1
    split
    next hv => simp [Nat.mod_eq_of_lt (show v < 4294967296 by omega), not_lt.mpr hv.2]
    next hv => simp [hport, show 65535 < v by omega, eq_comm]
  · have hv : ¬(1 ≤ v ∧ v ≤ 65535) := fun hv => hport (by unfold LooksLikePort; omega)
    rw [if_neg hv]
    simp [hport, hkept hport]

end

theorem splitHostPort_faithful_bracketed :
    splitHostPort "[::1]:7372".toList 0 = (7372, "::1".toList) :=
  (@splitHostPort_faithful_iff "[::1]".toList "7372".toList 0 (.inr (by decide))
    (by simp)).mpr fun h => absurd h.1 (by decide)

/-- The low 32 bits of 4294967297 are 1. -/
theorem splitHostPort_wraps : splitHostPort "h:4294967297".toList 8333 = (1, "h".toList) := by
  decide +kernel

end HoboNickels

import Mathlib

/-!
# Canonical signatures

`IsCanonicalSignature` walks over a DER signature by index. Every read of the vector is an `Option`
here, so that a read outside of it shows.
-/

namespace HoboNickels

def SCRIPT_VERIFY_STRICTENC : UInt32 := 2

def SCRIPT_VERIFY_LOW_S : UInt32 := 4

/-- The four tests of `R`, and again of `S`: a number of `nLen` bytes from `start` on. -/
def isCanonicalNumber (vchSig : List UInt8) (start nLen : Nat) : Option Bool := do
  if (← vchSig[start - 2]?) ≠ 0x02 then return false
  if nLen = 0 then return false
  let first ← vchSig[start]?
  if first &&& 0x80 ≠ 0 then return false
  if nLen > 1 ∧ first = 0 then return (← vchSig[start + 1]?) &&& 0x80 ≠ 0
  return true

/-- The last test is `CKey::CheckSignatureElement` for `S`. -/
def isCanonicalSignature (checkSignatureElement : List UInt8 → Bool) (vchSig : List UInt8)
    (flags : UInt32) : Option Bool := do
  if flags &&& SCRIPT_VERIFY_STRICTENC = 0 then return true
  if vchSig.length < 9 then return false
  if vchSig.length > 73 then return false
  let nHashType := (← vchSig[vchSig.length - 1]?) &&& ~~~0x80
  if nHashType < 1 ∨ nHashType > 3 then return false
  if (← vchSig[0]?) ≠ 0x30 then return false
  if (← vchSig[1]?).toNat ≠ vchSig.length - 3 then return false
  let nLenR := (← vchSig[3]?).toNat
  if 5 + nLenR ≥ vchSig.length then return false
  let nLenS := (← vchSig[5 + nLenR]?).toNat
  if nLenR + nLenS + 7 ≠ vchSig.length then return false
  if !(← isCanonicalNumber vchSig 4 nLenR) then return false
  if !(← isCanonicalNumber vchSig (6 + nLenR) nLenS) then return false
  if flags &&& SCRIPT_VERIFY_LOW_S ≠ 0 then
    return checkSignatureElement ((vchSig.drop (6 + nLenR)).take nLenS)
  return true

/-- Not empty, not negative and without a leading zero byte that could be left out. -/
def StrictNumber : List UInt8 → Prop
  | [] => False
  | [first] => first &&& 0x80 = 0
  | first :: second :: _ => first &&& 0x80 = 0 ∧ (first = 0 → second &&& 0x80 ≠ 0)

instance : DecidablePred StrictNumber
  | [] | [_] | _ :: _ :: _ => by unfold StrictNumber; infer_instance

theorem isCanonicalNumber_eq (before number after : List UInt8) (type len : UInt8) :
    isCanonicalNumber (before ++ type :: len :: (number ++ after)) (before.length + 2)
      number.length = some (decide (type = 0x02 ∧ StrictNumber number)) := by
  have hread : ∀ i, (before ++ type :: len :: (number ++ after))[before.length + i]? =
      (type :: len :: (number ++ after))[i]? := by
    intro i
    rw [List.getElem?_append_right (by omega), Nat.add_sub_cancel_left]
  have h0 : (before ++ type :: len :: (number ++ after))[before.length]? = some type := hread 0
  unfold isCanonicalNumber
  rw [show before.length + 2 - 2 = before.length by omega, h0, Nat.add_assoc, hread 2, hread 3]
  rcases number with _ | ⟨first, _ | ⟨second, number⟩⟩ <;> simp [StrictNumber] <;> split_ifs <;>
    simp_all

theorem hashType_iff (hash : UInt8) :
    ¬(hash &&& ~~~0x80 < 1 ∨ hash &&& ~~~0x80 > 3) ↔ hash ∈ [1, 2, 3, 0x81, 0x82, 0x83] := by
  obtain ⟨⟨hash⟩⟩ := hash
  revert hash
  decide +kernel

section

variable {check : List UInt8 → Bool} {vchSig : List UInt8} {flags : UInt32}
  (hstrict : flags &&& SCRIPT_VERIFY_STRICTENC ≠ 0) (hlow : flags &&& SCRIPT_VERIFY_LOW_S = 0)

include hstrict hlow in
theorem isCanonicalSignature_split (tag len typeR lenR typeS lenS hash : UInt8)
    (R S : List UInt8) (hR : R.length = lenR.toNat) :
    isCanonicalSignature check
      (tag :: len :: typeR :: lenR :: (R ++ typeS :: lenS :: (S ++ [hash]))) flags =
      some (decide (9 ≤ R.length + S.length + 7 ∧ R.length + S.length + 7 ≤ 73 ∧
        ¬(hash &&& ~~~0x80 < 1 ∨ hash &&& ~~~0x80 > 3) ∧ tag = 0x30 ∧
        len.toNat = R.length + S.length + 4 ∧ lenS.toNat = S.length ∧
        (typeR = 0x02 ∧ StrictNumber R) ∧ (typeS = 0x02 ∧ StrictNumber S))) := by
  have hRnum := isCanonicalNumber_eq [tag, len] R (typeS :: lenS :: (S ++ [hash])) typeR lenR
  have hSnum := isCanonicalNumber_eq (tag :: len :: typeR :: lenR :: R) S [hash] typeS lenS
  simp only [List.cons_append, List.nil_append, List.length_cons, List.length_nil] at hRnum hSnum
  rw [show R.length + 1 + 1 + 1 + 1 + 2 = 6 + R.length by omega] at hSnum
  generalize hv : tag :: len :: typeR :: lenR :: (R ++ typeS :: lenS :: (S ++ [hash])) = v at *
  have hlength : v.length = R.length + S.length + 7 := by
    simp [← hv]
    omega
  have hlast : v[R.length + S.length + 6]? = some hash := by
    rw [← hv, show R.length + S.length + 6 = R.length + (S.length + 2) + 4 by omega]
    simp
  have hlenS : v[5 + R.length]? = some lenS := by
    rw [← hv, show 5 + R.length = R.length + 1 + 4 by omega]
    simp
  have hfront : v[0]? = some tag ∧ v[1]? = some len ∧ v[3]? = some lenR := by
    simp [← hv]
  unfold isCanonicalSignature
  simp only [hlength]
  by_cases hS : lenS.toNat = S.length
  · simp [hstrict, hlow, hlast, hfront, ← hR, hlenS, hS, hRnum, hSnum]
    split_ifs <;> grind
  · simp [hstrict, hlow, hlast, hfront, ← hR, hlenS, hS]

include hstrict in
/-- A vector whose length bytes do not place `S` is refused, and no byte outside is read. -/
theorem isCanonicalSignature_misplaced
    (h : ∀ tag len typeR lenR R typeS lenS S hash,
      vchSig = tag :: len :: typeR :: lenR :: (R ++ typeS :: lenS :: (S ++ [hash])) →
        R.length ≠ lenR.toNat) :
    isCanonicalSignature check vchSig flags = some false := by
  by_cases hlen : vchSig.length < 9
  · simp [isCanonicalSignature, hstrict, hlen]
  obtain ⟨tag, len, typeR, lenR, rest, rfl⟩ : ∃ tag len typeR lenR rest,
      vchSig = tag :: len :: typeR :: lenR :: rest := by
    rcases vchSig with _ | ⟨tag, _ | ⟨len, _ | ⟨typeR, _ | ⟨lenR, rest⟩⟩⟩⟩ <;> simp_all
  have hshort : rest.length < lenR.toNat + 3 := by
    by_contra hlong
    obtain hnil | ⟨S, hash, hS⟩ := List.eq_nil_or_concat (rest.drop (lenR.toNat + 1 + 1))
    · have := List.drop_eq_nil_iff.mp hnil
      omega
    refine h tag len typeR lenR (rest.take lenR.toNat) (rest.get ⟨lenR.toNat, by omega⟩)
      (rest.get ⟨lenR.toNat + 1, by omega⟩) S hash ?_ (by simp; omega)
    rw [← List.concat_eq_append, ← hS]
    simp
  obtain ⟨last, hlast⟩ : ∃ last, (tag :: len :: typeR :: lenR :: rest)[rest.length + 3]? =
      some last := ⟨_, List.getElem?_eq_getElem (by simp)⟩
  cases hlenS : (tag :: len :: typeR :: lenR :: rest)[5 + lenR.toNat]? with
  | none =>
    have := List.getElem?_eq_none_iff.mp hlenS
    simp at this
    simp [isCanonicalSignature, hstrict, this]
  | some lenS =>
    simp [isCanonicalSignature, hstrict, hlenS]
    split_ifs <;> first | rfl | omega

include hstrict hlow in
/-- **Strict DER.** No byte outside of the vector is read, and the answer is yes exactly for two
strict numbers with their lengths and a known hash type. -/
theorem isCanonicalSignature_iff :
    ∃ ok, isCanonicalSignature check vchSig flags = some ok ∧ (ok = true ↔
      ∃ len lenR R lenS S hash,
        vchSig = 0x30 :: len :: 0x02 :: lenR :: (R ++ 0x02 :: lenS :: (S ++ [hash])) ∧
        (9 ≤ vchSig.length ∧ vchSig.length ≤ 73) ∧ len.toNat = vchSig.length - 3 ∧
        lenR.toNat = R.length ∧ lenS.toNat = S.length ∧ StrictNumber R ∧ StrictNumber S ∧
        hash ∈ [1, 2, 3, 0x81, 0x82, 0x83]) := by
  by_cases h : ∃ tag len typeR lenR R typeS lenS S hash,
      vchSig = tag :: len :: typeR :: lenR :: (R ++ typeS :: lenS :: (S ++ [hash])) ∧
        R.length = lenR.toNat
  · obtain ⟨tag, len, typeR, lenR, R, typeS, lenS, S, hash, rfl, hR⟩ := h
    refine ⟨_, isCanonicalSignature_split hstrict hlow _ _ _ _ _ _ _ _ _ hR, ?_⟩
    rw [decide_eq_true_iff, hashType_iff]
    constructor
    · rintro ⟨hmin, hmax, hhash, rfl, hlen, hS, ⟨rfl, hRnum⟩, rfl, hSnum⟩
      refine ⟨len, lenR, R, lenS, S, hash, rfl, ?_, ?_, hR.symm, hS, hRnum, hSnum, hhash⟩ <;>
        simp <;> omega
    · rintro ⟨len', lenR', R', lenS', S', hash', heq, hsize, hlen, hR', hS, hRnum, hSnum, hhash⟩
      simp only [List.cons.injEq] at heq
      obtain ⟨rfl, rfl, rfl, rfl, heq⟩ := heq
      obtain ⟨rfl, hrest⟩ := List.append_inj heq (hR.trans hR')
      simp only [List.cons.injEq] at hrest
      obtain ⟨rfl, rfl, hlast⟩ := hrest
      obtain ⟨rfl, ⟨⟩⟩ := List.append_inj' hlast rfl
      simp only [List.length_cons, List.length_append, List.length_nil] at hsize hlen
      exact ⟨by omega, by omega, hhash, rfl, by omega, hS, ⟨rfl, hRnum⟩, rfl, hSnum⟩
  · refine ⟨false, isCanonicalSignature_misplaced hstrict ?_, ?_⟩
    · rintro tag len typeR lenR R typeS lenS S hash rfl hR
      exact h ⟨tag, len, typeR, lenR, R, typeS, lenS, S, hash, rfl, hR⟩
    · refine ⟨nofun, ?_⟩
      rintro ⟨len, lenR, R, lenS, S, hash, rfl, -, -, hR, -⟩
      exact (h ⟨_, len, _, lenR, R, _, lenS, S, hash, rfl, hR.symm⟩).elim

end

theorem isCanonicalSignature_iff_shortest :
    ∃ ok, isCanonicalSignature (fun _ => false) [0x30, 6, 2, 1, 1, 2, 1, 1, 1] 2 = some ok ∧
      ok = true := by
  obtain ⟨ok, hok, hiff⟩ := @isCanonicalSignature_iff (fun _ => false)
    [0x30, 6, 2, 1, 1, 2, 1, 1, 1] 2 (by decide) (by decide)
  exact ⟨ok, hok, hiff.mpr ⟨6, 1, [1], 1, [1], 1, rfl, by decide⟩⟩

/-- The number zero is one zero byte, and nothing with its top bit set follows. -/
theorem isCanonicalSignature_zero :
    isCanonicalSignature (fun _ => false) [0x30, 6, 2, 1, 0, 2, 1, 1, 1] 2 = some true := by
  decide

end HoboNickels

import HoboNickels.Primitives

/-!
# `OP_CHECKMULTISIG`

The loop of `EvalScript` tries the signatures against the public keys from the top of the stack,
each key once, and gives up when there are more signatures left than keys. It is greedy, and yet
finds a matching whenever there is one.
-/

namespace HoboNickels

open List

/-- What `EvalScript` calls, for the transaction and the flags it was given. -/
structure ScriptChecks where
  isCanonicalSignature : List UInt8 → Bool
  isCanonicalPubKey : List UInt8 → Bool
  checkSig : (vchSig vchPubKey : List UInt8) → (scriptCode : CScript) → Bool
  findAndDelete : (scriptCode : CScript) → (vchSig : List UInt8) → CScript
  fNullDummy : Bool

/-- `none` is the exception; the sign is the top bit of the last byte. -/
def castToBigNum (vch : List UInt8) : Option Int :=
  if 4 < vch.length then none
  else
    let n := Nat.ofDigits 256 (vch.map UInt8.toNat)
    let sign := 128 * 256 ^ (vch.length - 1)
    some (if vch ≠ [] ∧ sign ≤ n then -((n - sign : Nat) : Int) else n)

namespace ScriptChecks

variable (c : ScriptChecks) (scriptCode : CScript)

/-- `fOk` of the loop. -/
def signs (vchSig vchPubKey : List UInt8) : Bool :=
  c.isCanonicalSignature vchSig && c.isCanonicalPubKey vchPubKey &&
    c.checkSig vchSig vchPubKey scriptCode

/-- The loop, over the signatures and keys that are left. -/
def matchSigs : (sigs keys : List (List UInt8)) → Bool
  | [], _ => true
  | _ :: _, [] => false
  | vchSig :: sigs, vchPubKey :: keys =>
    let left := if c.signs scriptCode vchSig vchPubKey then sigs else vchSig :: sigs
    if keys.length < left.length then false else matchSigs left keys

/-- `OP_CHECKMULTISIG` on a stack whose top is the head of the list, with the operations counted so
far. `none` is a script that fails. -/
def checkMultisig (nOpCount : Nat) (stack : List (List UInt8)) :
    Option (Nat × List (List UInt8)) :=
  (stack[0]?.bind castToBigNum).bind fun nKeysCount =>
    if nKeysCount < 0 ∨ 20 < nKeysCount then none
    else
      let n := nKeysCount.toNat
      let nOpCount := nOpCount + n
      if 201 < nOpCount then none
      else (stack[n + 1]?.bind castToBigNum).bind fun nSigsCount =>
        if nSigsCount < 0 ∨ nKeysCount < nSigsCount then none
        else
          let m := nSigsCount.toNat
          let keys := stack.tail.take n
          let sigs := (stack.drop (n + 2)).take m
          let fSuccess := c.matchSigs (sigs.foldl c.findAndDelete scriptCode) sigs keys
          match (stack.drop (n + 2)).drop m with
          | [] => none
          | dummy :: stack =>
            if c.fNullDummy ∧ dummy ≠ [] then none
            else some (nOpCount, (if fSuccess then [1] else []) :: stack)

variable {c scriptCode} {sigs keys : List (List UInt8)}

section Matching

variable {R : List UInt8 → List UInt8 → Prop} {vchSig : List UInt8}

theorem length_le_of_match (h : SublistForall₂ R sigs keys) : sigs.length ≤ keys.length := by
  obtain ⟨l, hall, hsub⟩ := sublistForall₂_iff.mp h
  exact hall.length_eq.trans_le hsub.length_le

theorem match_tail (h : SublistForall₂ R (vchSig :: sigs) keys) : SublistForall₂ R sigs keys := by
  obtain ⟨l, hall, hsub⟩ := sublistForall₂_iff.mp h
  obtain ⟨_, l', -, hrest, rfl⟩ := forall₂_cons_left_iff.mp hall
  exact sublistForall₂_iff.mpr ⟨l', hrest, (sublist_cons_self ..).trans hsub⟩

theorem match_skip {vchPubKey : List UInt8} (hnot : ¬ R vchSig vchPubKey) :
    SublistForall₂ R (vchSig :: sigs) (vchPubKey :: keys) ↔
      SublistForall₂ R (vchSig :: sigs) keys := by
  refine ⟨fun h => ?_, .cons_right⟩
  cases h with
  | cons hhead _ => exact absurd hhead hnot
  | cons_right hrest => exact hrest

/-- An injective map that keeps the order. -/
theorem match_iff_orderEmbedding : SublistForall₂ R sigs keys ↔
    ∃ f : Fin sigs.length ↪o Fin keys.length, ∀ i, R (sigs.get i) (keys.get (f i)) := by
  rw [sublistForall₂_iff]
  constructor
  · rintro ⟨l, hall, hsub⟩
    obtain ⟨f, hf⟩ := sublist_iff_exists_fin_orderEmbedding_get_eq.mp hsub
    obtain ⟨hlen, hget⟩ := forall₂_iff_get.mp hall
    refine ⟨(Fin.castOrderIso hlen).toOrderEmbedding.trans f, fun i => ?_⟩
    have hi := hget i i.2 (hlen ▸ i.2)
    rw [hf] at hi
    exact hi
  · rintro ⟨f, hf⟩
    refine ⟨ofFn fun i => keys.get (f i), forall₂_iff_get.mpr ⟨by simp, fun i hi _ => ?_⟩, ?_⟩
    · rw [get_ofFn]
      exact hf ⟨i, hi⟩
    · rw [sublist_iff_exists_fin_orderEmbedding_get_eq]
      refine ⟨(Fin.castOrderIso (by simp)).toOrderEmbedding.trans f, fun i => ?_⟩
      rw [get_ofFn]
      rfl

end Matching

/-- Greed loses nothing: a key that signs can be matched to the first signature. -/
theorem matchSigs_iff (hle : sigs.length ≤ keys.length) : c.matchSigs scriptCode sigs keys = true ↔
    SublistForall₂ (fun s k => c.signs scriptCode s k = true) sigs keys := by
  induction keys generalizing sigs with
  | nil =>
    obtain rfl := length_eq_zero_iff.mp (Nat.le_zero.mp hle)
    simp [matchSigs, SublistForall₂.nil]
  | cons vchPubKey keys ih =>
    cases sigs with
    | nil => simp [matchSigs, SublistForall₂.nil]
    | cons vchSig sigs =>
      rw [matchSigs]
      by_cases hsigns : c.signs scriptCode vchSig vchPubKey = true
      · have hleft : sigs.length ≤ keys.length := by simpa using hle
        rw [if_pos hsigns, if_neg (not_lt.mpr hleft), ih hleft]
        refine ⟨.cons hsigns, fun h => ?_⟩
        cases h with
        | cons _ hrest => exact hrest
        | cons_right hrest => exact match_tail hrest
      · rw [if_neg hsigns, match_skip hsigns]
        split
        next hfew =>
          refine ⟨nofun, fun h => ?_⟩
          exact absurd (length_le_of_match h) (not_le.mpr hfew)
        next hmany => exact ih (not_lt.mp hmany)

/-- **Every stack with its counts in place.** The operation fails when it counts too many
operations or is told to refuse the dummy; otherwise it replaces `m + n + 3` elements by its
verdict. -/
theorem checkMultisig_accepts_iff {nOpCount : Nat} {vchKeys vchSigs dummy : List UInt8}
    {rest : List (List UInt8)} (hkeys : castToBigNum vchKeys = some (keys.length : Int))
    (hsigs : castToBigNum vchSigs = some (sigs.length : Int)) (hle : sigs.length ≤ keys.length)
    (hmax : keys.length ≤ 20) :
    ∃ fSuccess : Bool, c.checkMultisig scriptCode nOpCount
        (vchKeys :: (keys ++ vchSigs :: (sigs ++ dummy :: rest))) =
        (if 201 < nOpCount + keys.length ∨ c.fNullDummy ∧ dummy ≠ [] then none
          else some (nOpCount + keys.length, (if fSuccess then [1] else []) :: rest)) ∧
      (fSuccess = true ↔ ∃ f : Fin sigs.length ↪o Fin keys.length, ∀ i,
        c.isCanonicalSignature (sigs.get i) = true ∧ c.isCanonicalPubKey (keys.get (f i)) = true ∧
          c.checkSig (sigs.get i) (keys.get (f i))
            (sigs.foldl c.findAndDelete scriptCode) = true) := by
  refine ⟨c.matchSigs (sigs.foldl c.findAndDelete scriptCode) sigs keys, ?_, ?_⟩
  · have hmid : (keys ++ vchSigs :: (sigs ++ dummy :: rest))[keys.length]? = some vchSigs := by simp
    have hbelow : (keys ++ vchSigs :: (sigs ++ dummy :: rest)).drop (keys.length + 1) =
        sigs ++ dummy :: rest := by simp
    simp only [checkMultisig, getElem?_cons_zero, Option.bind_some, hkeys, Int.toNat_natCast,
      getElem?_cons_succ, hmid, hsigs, tail_cons, take_left, drop_succ_cons, hbelow, drop_left]
    rw [if_neg (by omega), if_neg (by omega : ¬ ((sigs.length : Int) < 0 ∨ _))]
    by_cases hops : 201 < nOpCount + keys.length
    · simp only [hops, true_or, if_true]
    · simp only [hops, false_or, if_false]
  · rw [matchSigs_iff hle, match_iff_orderEmbedding]
    simp only [signs, Bool.and_eq_true, and_assoc]

/-- A signature is the key itself. -/
def sampleScriptChecks : ScriptChecks :=
  ⟨fun _ => true, fun _ => true, fun vchSig vchPubKey _ => vchSig == vchPubKey, fun s _ => s, true⟩

/-- One of two: the signature goes with the second key from the top. -/
theorem checkMultisig_accepts_second :
    sampleScriptChecks.checkMultisig [] 0 [[2], [7], [8], [1], [8], [], [5]] =
        some (2, [[1], [5]]) ∧
      ∃ f : Fin [[(8 : UInt8)]].length ↪o Fin [[(7 : UInt8)], [8]].length, ∀ i,
        sampleScriptChecks.checkSig ([[8]].get i) ([[7], [8]].get (f i)) [] = true := by
  have hresult : sampleScriptChecks.checkMultisig [] 0 [[2], [7], [8], [1], [8], [], [5]] =
      some (2, [[1], [5]]) := by decide +kernel
  obtain ⟨fSuccess, heq, hiff⟩ := @checkMultisig_accepts_iff sampleScriptChecks [] [[8]]
    [[7], [8]] 0 [2] [1] [] [[5]] (by decide +kernel) (by decide +kernel) (by decide) (by decide)
  have htrue : fSuccess = true := by
    cases fSuccess with
    | true => rfl
    | false => exact absurd (hresult.symm.trans heq) (by decide)
  obtain ⟨f, hf⟩ := hiff.mp htrue
  exact ⟨hresult, f, fun i => (hf i).2.2⟩

/-- The one signature goes with the one key, but the dummy is not empty. -/
theorem checkMultisig_refuses_dummy :
    (∃ f : Fin 1 ↪o Fin 1, ∀ i,
        sampleScriptChecks.signs [] ([[8]].get i) ([[8]].get (f i)) = true) ∧
      sampleScriptChecks.checkMultisig [] 0 [[1], [8], [1], [8], [9]] = none :=
  ⟨⟨(OrderIso.refl _).toOrderEmbedding, by decide⟩, by decide +kernel⟩

end ScriptChecks

end HoboNickels

import HoboNickels.Coins

/-!
# What the wallet selects

Every coin that is selected is spendable and comes from the enumeration, and none is selected twice.
If the amounts do not overflow together, a selection is worth what it says and reaches its target.
`SelectCoinsMinConf` succeeds exactly if the eligible coins suffice, and leaves no change below a
cent if it can be avoided.
-/

namespace HoboNickels

open Fallible Chosen List COutput COutput

/-! ## What is selected

Every selected coin comes from the enumeration and is spendable. -/

variable {x : COutput}

namespace Selection

def outPoints (sel : Selection) : List COutPoint := sel.setCoins.map outPoint

@[simp] theorem empty_setCoins : empty.setCoins = [] := rfl
@[simp] theorem empty_nValue : empty.nValue = 0 := rfl

theorem nodup_empty : empty.outPoints.Nodup := nodup_nil

@[simp] theorem add_nValue (sel : Selection) (out : COutput) :
    (sel.add out).nValue = int64 (sel.nValue + out.nValue) := rfl

variable {sel : Selection} {outs : List COutput}

theorem mem_add {out : COutput} (h : x ∈ (sel.add out).setCoins) : x ∈ sel.setCoins ∨ x = out := by
  rw [add] at h
  split at h
  · exact .inl h
  · simpa using h

theorem outPoints_add (sel : Selection) (out : COutput) (op : COutPoint) :
    op ∈ (sel.add out).outPoints ↔ op ∈ sel.outPoints ∨ op = out.outPoint := by
  by_cases hmem : sel.setCoins.any (fun x => x.outPoint == out.outPoint) = true
  · have : (sel.add out).outPoints = sel.outPoints := by simp [outPoints, add, hmem]
    rw [this]
    simp only [any_eq_true, beq_iff_eq] at hmem
    obtain ⟨x, hx, hop⟩ := hmem
    constructor
    · exact .inl
    · rintro (h | rfl)
      · exact h
      · exact mem_map.mpr ⟨x, hx, hop⟩
  · simp [outPoints, add, hmem, eq_comm]

theorem nodup_add (h : sel.outPoints.Nodup) (out : COutput) : (sel.add out).outPoints.Nodup := by
  by_cases hmem : sel.setCoins.any (fun x => x.outPoint == out.outPoint) = true
  · simpa [outPoints, add, hmem] using h
  have hnew : sel.setCoins.any (fun x => x.outPoint == out.outPoint) = false := by
    simpa [any_eq_false] using hmem
  simp only [outPoints, add, hnew, Bool.false_eq_true, if_false, map_append, map_cons, map_nil]
  exact Nodup.append h (nodup_singleton _) (by simpa using hmem)

theorem nodup_addAll (h : sel.outPoints.Nodup) (outs : List COutput) :
    (sel.addAll outs).outPoints.Nodup := by
  induction outs generalizing sel with
  | nil => exact h
  | cons out outs ih => exact ih (nodup_add h out)

theorem mem_addAll (h : x ∈ (sel.addAll outs).setCoins) : x ∈ sel.setCoins ∨ x ∈ outs := by
  induction outs generalizing sel with
  | nil => exact .inl h
  | cons out outs ih =>
    rcases ih h with hx | hx
    · rcases mem_add hx with hx | rfl
      · exact .inl hx
      · simp
    · simp [hx]

theorem addAll_eq (hnodup : ((sel.setCoins ++ outs).map outPoint).Nodup)
    (hsel : 0 ≤ sel.nValue) (hnonneg : ∀ out ∈ outs, 0 ≤ out.nValue)
    (hsum : sel.nValue + (outs.map COutput.nValue).sum < 2 ^ 63) :
    sel.addAll outs = ⟨sel.setCoins ++ outs, sel.nValue + (outs.map COutput.nValue).sum⟩ := by
  induction outs generalizing sel with
  | nil => simp [addAll]
  | cons out outs ih =>
    simp only [map_cons, sum_cons] at hsum
    have hout : 0 ≤ out.nValue := hnonneg out (by simp)
    have hrest : ∀ x ∈ outs, 0 ≤ x.nValue := fun x hx => hnonneg x (by simp [hx])
    have hsum' : 0 ≤ (outs.map COutput.nValue).sum := sum_nonneg (by simpa using hrest)
    have hadd : sel.add out = ⟨sel.setCoins ++ [out], sel.nValue + out.nValue⟩ := by
      have hnew : sel.setCoins.any (fun x => x.outPoint == out.outPoint) = false := by
        simp only [any_eq_false, beq_iff_eq]
        intro x hx heq
        simp only [map_append, map_cons] at hnodup
        exact (nodup_append.mp hnodup).2.2 _ (mem_map_of_mem hx) _ (by simp) heq
      simp [add, hnew, int64_of_range (x := sel.nValue + out.nValue) (by omega) (by omega)]
    have hfold : sel.addAll (out :: outs) = (sel.add out).addAll outs := rfl
    rw [hfold, hadd, ih (by simpa using hnodup) (by simpa using by omega) hrest
      (by simpa using by omega)]
    simp [add_assoc]

end Selection

def COutput.Passes (nSpendTime : Nat) (skip : COutput → Bool) (out : COutput) : Prop :=
  out.fSpendable = true ∧ skip out = false ∧ out.tx.nTime ≤ nSpendTime

variable {nTargetValue : Int} {nSpendTime : Nat} {skip : COutput → Bool}

theorem passes_of_not_skipped {out : COutput} (hns : ¬ (!out.fSpendable || skip out) = true)
    (htime : ¬ out.tx.nTime > nSpendTime) : out.Passes nSpendTime skip := by
  simp only [Bool.or_eq_true, Bool.not_eq_true', not_or, Bool.not_eq_false,
    Bool.not_eq_true] at hns
  exact ⟨hns.1, hns.2, not_lt.mp htime⟩

theorem mem_selectInOrder {vCoins : List COutput} {sel : Selection}
    (h : x ∈ (selectInOrder nTargetValue nSpendTime skip vCoins sel).setCoins) :
    x ∈ sel.setCoins ∨ (x ∈ vCoins ∧ x.Passes nSpendTime skip) := by
  have hadd : ∀ {out : COutput} {sel : Selection} {vCoins}, out.Passes nSpendTime skip →
      x ∈ (sel.add out).setCoins →
        x ∈ sel.setCoins ∨ (x ∈ out :: vCoins ∧ x.Passes nSpendTime skip) := by
    intro out sel vCoins hout hx
    rcases Selection.mem_add hx with hx | rfl
    · exact .inl hx
    · exact .inr ⟨mem_cons_self, hout⟩
  fun_induction selectInOrder nTargetValue nSpendTime skip vCoins sel with
  | case1 | case3 => exact .inl h
  | case2 _ _ _ _ ih | case4 _ _ _ _ _ _ ih | case7 _ _ _ _ _ _ _ _ ih =>
    exact (ih h).imp_right fun hx => ⟨mem_cons_of_mem _ hx.1, hx.2⟩
  | case5 out vCoins sel hns _ htime => exact hadd (passes_of_not_skipped hns htime) h
  | case6 out vCoins sel hns _ htime _ _ ih =>
    rcases ih h with hx | hx
    · exact hadd (passes_of_not_skipped hns htime) hx
    · exact .inr ⟨mem_cons_of_mem _ hx.1, hx.2⟩

theorem selectInOrder_takes (htarget : nTargetValue + cent < 2 ^ 63) {vCoins : List COutput}
    {sel : Selection} (hnonneg : ∀ out ∈ vCoins, 0 ≤ out.nValue) (hsel : 0 ≤ sel.nValue)
    (hsum : sel.nValue + (vCoins.map nValue).sum < nTargetValue) :
    (∀ op ∈ sel.outPoints,
      op ∈ (selectInOrder nTargetValue nSpendTime skip vCoins sel).outPoints) ∧
    ∀ out ∈ vCoins, out.Passes nSpendTime skip →
      out.outPoint ∈ (selectInOrder nTargetValue nSpendTime skip vCoins sel).outPoints := by
  have hcent : cent = 10000 := rfl
  have hrange := int64_of_range (x := nTargetValue + cent) (by
    have : 0 ≤ (vCoins.map nValue).sum := sum_nonneg (by simpa using hnonneg)
    omega) htarget
  -- the sums stay below the target, so only coins that do not pass are left out
  fun_induction selectInOrder nTargetValue nSpendTime skip vCoins sel with
  | case1 => simp
  | case2 out vCoins sel hleft ih | case4 out vCoins sel _ _ hleft ih =>
    obtain ⟨_, hnonneg⟩ := forall_mem_cons.mp hnonneg
    rw [map_cons, sum_cons] at hsum
    obtain ⟨hkept, htaken⟩ := ih hnonneg hsel (by omega)
    refine ⟨hkept, forall_mem_cons.mpr ⟨fun hpass => ?_, htaken⟩⟩
    obtain ⟨hspend, hskip, htime⟩ := hpass
    first | omega | simp [hspend, hskip] at hleft
  | case6 out vCoins sel _ _ _ _ _ ih =>
    obtain ⟨hout, hnonneg⟩ := forall_mem_cons.mp hnonneg
    have hsum' : 0 ≤ (vCoins.map nValue).sum := sum_nonneg (by simpa using hnonneg)
    rw [map_cons, sum_cons] at hsum
    have hadd : (sel.add out).nValue = sel.nValue + out.nValue := by
      rw [Selection.add_nValue, int64_of_range (by omega) (by omega)]
    obtain ⟨hkept, htaken⟩ := ih hnonneg (by omega) (by omega)
    have hadded := fun op hop => hkept op ((Selection.outPoints_add ..).mpr hop)
    exact ⟨fun op hop => hadded op (.inl hop),
      forall_mem_cons.mpr ⟨fun _ => hadded _ (.inr rfl), htaken⟩⟩
  | case3 out vCoins | case5 out vCoins | case7 out vCoins =>
    have hsum' : 0 ≤ (vCoins.map nValue).sum :=
      sum_nonneg (by simpa using (forall_mem_cons.mp hnonneg).2)
    have hout := (forall_mem_cons.mp hnonneg).1
    rw [map_cons, sum_cons] at hsum
    omega

/-! ### SelectCoinsMinConf -/

def COutput.eligible (nSpendTime : Nat) (nConfMine nConfTheirs : Int) (out : COutput) : Bool :=
  out.fSpendable && decide (out.nConfNeeded nConfMine nConfTheirs ≤ out.nDepth)
    && decide (out.tx.nTime ≤ nSpendTime)

/-- What the first loop has made of the eligible coins. No coin of the greatest value an `int64` has
becomes `coinLowestLarger`. -/
structure CoinScan.Of (nTargetValue : Int) (coins : List COutput) (scan : CoinScan) : Prop where
  lower : scan.vValue = coins.filter fun out => decide (out.nValue < int64 (nTargetValue + cent))
  total : scan.nTotalLower = int64 (scan.vValue.map nValue).sum
  larger : ∀ out, scan.coinLowestLarger = some out →
    out ∈ coins ∧ int64 (nTargetValue + cent) ≤ out.nValue
  lowest : ∀ out ∈ coins, int64 (nTargetValue + cent) ≤ out.nValue → out.nValue < 2 ^ 63 - 1 →
    ∃ larger, scan.coinLowestLarger = some larger ∧ larger.nValue ≤ out.nValue

namespace CoinScan.Of

variable {nTargetValue : Int} {coins : List COutput} {scan : CoinScan} {out : COutput}

theorem init (nTargetValue : Int) : CoinScan.Of nTargetValue [] ⟨[], 0, none⟩ := by
  constructor <;> simp [int64]

theorem push (h : scan.Of nTargetValue coins) (hlt : out.nValue < int64 (nTargetValue + cent)) :
    CoinScan.Of nTargetValue (coins ++ [out])
      { scan with
        vValue := scan.vValue ++ [out]
        nTotalLower := int64 (scan.nTotalLower + out.nValue) } where
  lower := by simp [h.lower, hlt]
  total := by simp [h.total, int64_int64_add]
  larger x hx := ⟨mem_append_left _ (h.larger x hx).1, (h.larger x hx).2⟩
  lowest x hx hge := by
    rcases mem_append.mp hx with hx | hx
    · exact h.lowest x hx hge
    · rw [mem_singleton.mp hx] at hge
      exact absurd hlt (not_lt.mpr hge)

section

variable (h : scan.Of nTargetValue coins) (hge : int64 (nTargetValue + cent) ≤ out.nValue)
include h hge

theorem replace (hlt : out.nValue < (scan.coinLowestLarger.map nValue).getD (2 ^ 63 - 1)) :
    CoinScan.Of nTargetValue (coins ++ [out]) { scan with coinLowestLarger := some out } where
  lower := by simp [h.lower, hge]
  total := h.total
  larger := by
    rintro x ⟨⟩
    exact ⟨by simp, hge⟩
  lowest x hx hx' hmax := by
    refine ⟨out, rfl, ?_⟩
    rcases mem_append.mp hx with hx | hx
    · obtain ⟨larger, hlarger, hle⟩ := h.lowest x hx hx' hmax
      rw [hlarger] at hlt
      exact hlt.le.trans hle
    · rw [mem_singleton.mp hx]

theorem pass (hnlt : ¬ out.nValue < (scan.coinLowestLarger.map nValue).getD (2 ^ 63 - 1)) :
    scan.Of nTargetValue (coins ++ [out]) where
  lower := by simp [h.lower, hge]
  total := h.total
  larger x hx := ⟨mem_append_left _ (h.larger x hx).1, (h.larger x hx).2⟩
  lowest x hx hx' hmax := by
    rcases mem_append.mp hx with hx | hx
    · exact h.lowest x hx hx' hmax
    rw [mem_singleton.mp hx] at hmax ⊢
    cases hlarger : scan.coinLowestLarger with
    | none =>
      rw [hlarger] at hnlt
      exact absurd hmax hnlt
    | some larger =>
      rw [hlarger] at hnlt
      exact ⟨larger, rfl, not_lt.mp hnlt⟩

end

end CoinScan.Of

def Scanned (nTargetValue : Int) (coins : List COutput) : COutput ⊕ CoinScan → Prop
  | .inl out => out ∈ coins ∧ out.nValue = nTargetValue
  | .inr scan => scan.Of nTargetValue coins

variable {vCoins : List COutput} {scan : CoinScan}

theorem scanCoinValues_spec {nConfMine nConfTheirs : Int}
    {done : List COutput} (h : scan.Of nTargetValue done) :
    Scanned nTargetValue (done ++ vCoins.filter (eligible nSpendTime nConfMine nConfTheirs))
      (scanCoinValues nTargetValue nSpendTime nConfMine nConfTheirs vCoins scan) := by
  induction vCoins generalizing done scan with
  | nil => simpa [scanCoinValues, Scanned] using h
  | cons out vCoins ih =>
    rw [scanCoinValues]
    split
    next hpass =>
      rw [filter_cons_of_neg]
      · exact ih h
      · simpa [eligible, or_iff_not_imp_left] using hpass
    rename_i hpass
    rw [filter_cons_of_pos]
    · split
      next hvalue => exact ⟨by simp, hvalue⟩
      rw [append_cons]
      split
      next hlt => exact ih (h.push hlt)
      rename_i hge
      split
      next hlt => exact ih (h.replace (not_lt.mp hge) hlt)
      next hnlt => exact ih (h.pass (not_lt.mp hge) hnlt)
    · simpa [eligible, and_assoc] using hpass

theorem selectCoinsMinConf_scanned (nTargetValue : Int) (nSpendTime : Nat)
    (nConfMine nConfTheirs : Int) (vCoins : List COutput) :
    Scanned nTargetValue (vCoins.filter (eligible nSpendTime nConfMine nConfTheirs))
      (scanCoinValues nTargetValue nSpendTime nConfMine nConfTheirs vCoins ⟨[], 0, none⟩) := by
  simpa using scanCoinValues_spec (CoinScan.Of.init nTargetValue)

variable {sel : Selection}

theorem selectFromScan_cases {chance : CoinChance}
    (h : selectFromScan nTargetValue chance scan = some sel) :
    (∃ out, scan.coinLowestLarger = some out ∧ sel = Selection.empty.add out) ∨
    (scan.nTotalLower = nTargetValue ∧ sel = Selection.empty.addAll scan.vValue) ∨
    (nTargetValue ≤ scan.nTotalLower ∧ ∃ (vValue : List COutput) (best : Int × List Bool),
      vValue.Perm scan.vValue ∧
      bestSubset nTargetValue scan.nTotalLower chance (vValue.map nValue) = best ∧
      sel = Selection.empty.addAll (chosen vValue best.2) ∧
      ∀ larger, scan.coinLowestLarger = some larger → best.1 < larger.nValue ∧
        (best.1 = nTargetValue ∨ int64 (nTargetValue + cent) ≤ best.1)) := by
  rw [selectFromScan] at h
  split at h
  next heq => exact .inr (.inl ⟨heq, (Option.some.inj h).symm⟩)
  split at h
  · obtain ⟨out, hout, rfl⟩ := Option.map_eq_some_iff.mp h
    exact .inl ⟨out, hout, rfl⟩
  rename_i hge
  dsimp only at h
  have hperm := perm_insertionSort (fun a b : COutput => a.nValue ≥ b.nValue) scan.vValue
  split at h
  next out hout =>
    split at h
    · exact .inl ⟨out, hout, (Option.some.inj h).symm⟩
    rename_i hclose
    refine .inr (.inr ⟨not_lt.mp hge, _, _, hperm, rfl, (Option.some.inj h).symm, ?_⟩)
    rintro larger hlarger
    obtain rfl := Option.some.inj (hlarger.symm.trans hout)
    simp only [not_or, not_and_or, not_not, not_lt, not_le] at hclose
    exact hclose.symm
  next hnone =>
    refine .inr (.inr ⟨not_lt.mp hge, _, _, hperm, rfl, (Option.some.inj h).symm, ?_⟩)
    intro larger hlarger
    rw [hnone] at hlarger
    cases hlarger

/-! ### The value of a selection -/

namespace SubsetState

structure Totals (nTargetValue : Int) (vValue : List Int) (st : SubsetState) : Prop where
  length : st.vfIncluded.length = vValue.length
  total : st.nTotal = (chosen vValue st.vfIncluded).sum
  best : st.nBest = (chosen vValue st.vfBest).sum
  reached : nTargetValue ≤ st.nBest

variable {nTargetValue : Int} {vValue : List Int} {take : SubsetState → Nat → Bool}
  {st : SubsetState} {i : Nat}

theorem tryCoin_included_of_ne {j : Nat} (hij : i ≠ j) :
    (st.tryCoin nTargetValue vValue take i).vfIncluded[j]? = st.vfIncluded[j]? := by
  rw [tryCoin]
  split
  · dsimp only
    split
    · simp [getElem?_set_ne hij]
    · simp [getElem?_set_ne hij]
  · rfl

variable (hnonneg : ∀ v ∈ vValue, 0 ≤ v) (hsum : vValue.sum < 2 ^ 63)
include hnonneg hsum

theorem tryCoin_totals (h : st.Totals nTargetValue vValue) (hi : i < vValue.length)
    (htake : take st i = true → st.vfIncluded[i]? = some false) :
    (st.tryCoin nTargetValue vValue take i).Totals nTargetValue vValue := by
  rw [tryCoin]
  split
  next htaken =>
    have hbit := htake htaken
    have hv : vValue[i]? = some (vValue.getD i 0) := by simp [hi]
    have hchosen := sum_chosen_set hv hbit
    have hrange : ∀ bits, 0 ≤ (chosen vValue bits).sum ∧ (chosen vValue bits).sum < 2 ^ 63 := by
      intro bits
      have hsub := chosen_sublist vValue bits
      exact ⟨List.sum_nonneg fun v hv => hnonneg v (hsub.mem hv),
        lt_of_le_of_lt (hsub.sum_le_sum hnonneg) hsum⟩
    have htotal : int64 (st.nTotal + vValue.getD i 0) =
        (chosen vValue (st.vfIncluded.set i true)).sum := by
      have := hrange (st.vfIncluded.set i true)
      rw [h.total, ← hchosen, int64_of_range (by omega) (by omega)]
    dsimp only
    rw [htotal]
    split
    next hreached =>
      -- the coin is put back
      have hback : (st.vfIncluded.set i true).set i false = st.vfIncluded := by
        obtain ⟨_, hget⟩ := List.getElem?_eq_some_iff.mp hbit
        rw [List.set_set, ← hget, List.set_getElem_self]
      have hold : int64 ((chosen vValue (st.vfIncluded.set i true)).sum - vValue.getD i 0) =
          st.nTotal := by
        have := hrange st.vfIncluded
        rw [hchosen, ← h.total, int64_of_range] <;> rw [h.total] <;> omega
      rw [hback, hold]
      split
      · exact ⟨h.length, h.total, rfl, hreached⟩
      · exact { h with }
    · exact ⟨by simp [h.length], rfl, h.best, h.reached⟩
  · exact h

theorem first_pass_totals (h : st.Totals nTargetValue vValue)
    (hnone : ∀ j < vValue.length, st.vfIncluded[j]? = some false) (rand : Nat → Bool) :
    ∀ k ≤ vValue.length,
      ((range k).foldl (tryCoin nTargetValue vValue fun _ i => rand i) st).Totals nTargetValue
        vValue ∧
      ∀ j < vValue.length, k ≤ j →
        ((range k).foldl (tryCoin nTargetValue vValue fun _ i => rand i) st).vfIncluded[j]? =
          some false := by
  intro k
  induction k with
  | zero => exact fun _ => ⟨h, fun j hj _ => hnone j hj⟩
  | succ k ih =>
    intro hk
    obtain ⟨hst, hleft⟩ := ih (by omega)
    rw [range_succ, foldl_append, foldl_cons, foldl_nil]
    constructor
    · exact tryCoin_totals hnonneg hsum hst hk fun _ => hleft k hk le_rfl
    · intro j hj hkj
      rw [tryCoin_included_of_ne (by omega)]
      exact hleft j hj (by omega)

theorem second_pass_totals {indices : List Nat} (hindices : ∀ i ∈ indices, i < vValue.length)
    (h : st.Totals nTargetValue vValue) :
    (indices.foldl (tryCoin nTargetValue vValue fun st i => !st.vfIncluded.getD i false) st).Totals
      nTargetValue vValue := by
  induction indices generalizing st with
  | nil => exact h
  | cons i indices ih =>
    have hi : i < vValue.length := hindices i (by simp)
    refine ih (fun j hj => hindices j (by simp [hj])) (tryCoin_totals hnonneg hsum h hi ?_)
    have hlt : i < st.vfIncluded.length := h.length ▸ hi
    simp [hlt]

theorem repetition_best {nBest : Int} {vfBest : List Bool} (rand : Nat → Bool)
    (hbest : nBest = (chosen vValue vfBest).sum) (hreached : nTargetValue ≤ nBest) :
    (repetition nTargetValue vValue rand nBest vfBest).1 =
        (chosen vValue (repetition nTargetValue vValue rand nBest vfBest).2).sum ∧
      nTargetValue ≤ (repetition nTargetValue vValue rand nBest vfBest).1 := by
  have hstart : (⟨0, replicate vValue.length false, false, nBest, vfBest⟩ :
      SubsetState).Totals nTargetValue vValue :=
    ⟨by simp, by simp [chosen_none], hbest, hreached⟩
  have hfirst := (first_pass_totals hnonneg hsum hstart
    (fun j hj => by simp [hj]) rand vValue.length le_rfl).1
  rw [repetition]
  split
  · exact ⟨hfirst.best, hfirst.reached⟩
  · have hsecond := second_pass_totals hnonneg hsum (fun i hi => mem_range.mp hi) hfirst
    exact ⟨hsecond.best, hsecond.reached⟩

end SubsetState

section

variable {nTargetValue : Int} {vValue : List Int} (hnonneg : ∀ v ∈ vValue, 0 ≤ v)
  (hsum : vValue.sum < 2 ^ 63)
include hnonneg hsum

theorem approximateFrom_best (rand : Nat → Nat → Bool) {nReps : Nat} {best : Int × List Bool}
    (hbest : best.1 = (chosen vValue best.2).sum) (hreached : nTargetValue ≤ best.1) :
    (approximateFrom nTargetValue vValue rand nReps best).1 =
        (chosen vValue (approximateFrom nTargetValue vValue rand nReps best).2).sum ∧
      nTargetValue ≤ (approximateFrom nTargetValue vValue rand nReps best).1 := by
  induction nReps generalizing best with
  | zero => exact ⟨hbest, hreached⟩
  | succ nRep ih =>
    rw [approximateFrom]
    split
    · exact ⟨hbest, hreached⟩
    · obtain ⟨hb, hr⟩ := SubsetState.repetition_best hnonneg hsum (rand nRep) hbest hreached
      exact ih hb hr

/-- The approximations find a set of coins that reaches the target, and leaves no change or enough
of it, if all the coins do. -/
theorem bestSubset_spec (hle : nTargetValue ≤ vValue.sum)
    (hcent : int64 (nTargetValue + cent) = nTargetValue + cent) (chance : CoinChance) :
    let best := bestSubset nTargetValue vValue.sum chance vValue
    best.1 = (chosen vValue best.2).sum ∧ nTargetValue ≤ best.1 ∧
      (nTargetValue + cent ≤ vValue.sum →
        best.1 = nTargetValue ∨ nTargetValue + cent ≤ best.1) := by
  have hbest : ∀ {nTarget : Int} (bits : Nat → Nat → Bool), nTarget ≤ vValue.sum →
      (approximateBestSubset vValue vValue.sum nTarget bits).1 =
        (chosen vValue (approximateBestSubset vValue vValue.sum nTarget bits).2).sum ∧
      nTarget ≤ (approximateBestSubset vValue vValue.sum nTarget bits).1 := fun bits h =>
    approximateFrom_best hnonneg hsum bits (by simp [chosen_all]) h
  rw [bestSubset, hcent]
  split
  next hsecond =>
    obtain ⟨hvalue, hreached⟩ := hbest (chance.bits true) hsecond.2
    have : cent = 10000 := rfl
    exact ⟨hvalue, by omega, fun _ => .inr hreached⟩
  rename_i hfirst
  obtain ⟨hvalue, hreached⟩ := hbest (chance.bits false) hle
  refine ⟨hvalue, hreached, fun hall => .inl ?_⟩
  by_contra hne
  exact hfirst ⟨hne, hall⟩

end

structure SoundCoins (vCoins : List COutput) : Prop where
  nodup : (vCoins.map outPoint).Nodup
  nonneg : ∀ out ∈ vCoins, 0 ≤ out.nValue
  total : (vCoins.map nValue).sum < 2 ^ 62

namespace SoundCoins

variable {vCoins outs : List COutput}

theorem sum_le (h : SoundCoins vCoins) (hsub : outs.Sublist vCoins) :
    (outs.map nValue).sum ≤ (vCoins.map nValue).sum :=
  (hsub.map _).sum_le_sum (by simpa using h.nonneg)

theorem sublist (h : SoundCoins vCoins) (hsub : outs.Sublist vCoins) : SoundCoins outs where
  nodup := (hsub.map _).nodup h.nodup
  nonneg out hout := h.nonneg out (hsub.mem hout)
  total := (h.sum_le hsub).trans_lt h.total

end SoundCoins

variable {nTargetValue nConfMine nConfTheirs : Int} {nSpendTime : Nat} {chance : CoinChance}
  {vCoins : List COutput} {sel : Selection}

section

variable
    (h : selectCoinsMinConf nTargetValue nSpendTime nConfMine nConfTheirs chance vCoins = some sel)
include h

theorem selectCoinsMinConf_subperm : ∃ outs, sel = Selection.empty.addAll outs ∧
    outs.Subperm (vCoins.filter (eligible nSpendTime nConfMine nConfTheirs)) := by
  have hspec := selectCoinsMinConf_scanned nTargetValue nSpendTime nConfMine nConfTheirs
    (chance.shuffle.toFun vCoins)
  have hshuffle := ((chance.shuffle.perm vCoins).filter
    (eligible nSpendTime nConfMine nConfTheirs)).subperm
  rw [selectCoinsMinConf] at h
  split at h
  next out hscan =>
    rw [hscan] at hspec
    exact ⟨[out], (Option.some.inj h).symm, (singleton_subperm_iff.mpr hspec.1).trans hshuffle⟩
  next scan hscan =>
    rw [hscan] at hspec
    have hlower : scan.vValue.Subperm _ := (hspec.lower ▸ filter_sublist.subperm).trans hshuffle
    obtain ⟨out, hout, rfl⟩ | ⟨-, rfl⟩ | ⟨-, vValue, _, hsort, -, rfl, -⟩ :=
      selectFromScan_cases h
    · exact ⟨[out], rfl, (singleton_subperm_iff.mpr (hspec.larger out hout).1).trans hshuffle⟩
    · exact ⟨_, rfl, hlower⟩
    · exact ⟨_, rfl, (chosen_sublist _ _).subperm.trans (hsort.subperm.trans hlower)⟩

theorem nodup_selectCoinsMinConf : sel.outPoints.Nodup := by
  obtain ⟨outs, rfl, -⟩ := selectCoinsMinConf_subperm h
  exact Selection.nodup_addAll Selection.nodup_empty outs

theorem eligible_of_mem_selectCoinsMinConf (hx : x ∈ sel.setCoins) :
    x ∈ vCoins ∧ x.eligible nSpendTime nConfMine nConfTheirs = true := by
  obtain ⟨outs, rfl, hsub⟩ := selectCoinsMinConf_subperm h
  rcases Selection.mem_addAll hx with hx | hx
  · simp at hx
  · exact mem_filter.mp (hsub.subset hx)

theorem mem_selectCoinsMinConf (hx : x ∈ sel.setCoins) :
    x ∈ vCoins ∧ x.fSpendable = true ∧ x.tx.nTime ≤ nSpendTime := by
  obtain ⟨hmem, helig⟩ := eligible_of_mem_selectCoinsMinConf h hx
  simp only [eligible, Bool.and_eq_true, decide_eq_true_eq] at helig
  exact ⟨hmem, helig.1.1, helig.2⟩

end

/-! ### Completeness -/

/-- A set of the eligible coins that is worth `nValueRet`, reaches the target, is worth no more than
a single coin that leaves change, and leaves no change below a cent unless all the coins would. -/
structure SelectsWell (nTargetValue : Int) (coins : List COutput) (sel : Selection) : Prop where
  subperm : sel.setCoins.Subperm coins
  value : sel.nValue = (sel.setCoins.map nValue).sum
  reached : nTargetValue ≤ sel.nValue
  lowest : ∀ out ∈ coins, nTargetValue + cent ≤ out.nValue → sel.nValue ≤ out.nValue
  change : sel.nValue = nTargetValue ∨ nTargetValue + cent ≤ sel.nValue ∨
    (coins.map nValue).sum < nTargetValue + cent

theorem SelectsWell.perm {coins coins' : List COutput} (h : SelectsWell nTargetValue coins sel)
    (hperm : coins.Perm coins') : SelectsWell nTargetValue coins' sel where
  subperm := h.subperm.trans hperm.subperm
  __ := h
  lowest out hout := h.lowest out (hperm.mem_iff.mpr hout)
  change := (hperm.map nValue).sum_eq ▸ h.change

section Complete

variable {coins outs : List COutput} (hnodup : (coins.map outPoint).Nodup)
  (hnonneg : ∀ out ∈ coins, 0 ≤ out.nValue)
  (htotal : (coins.map nValue).sum < 2 ^ 63 - 1)

include hnonneg in
theorem sum_le_of_subperm (hsub : outs.Subperm coins) :
    (outs.map nValue).sum ≤ (coins.map nValue).sum := by
  obtain ⟨l, hperm, hl⟩ := hsub
  rw [← (hperm.map nValue).sum_eq]
  exact (hl.map _).sum_le_sum (by simpa using hnonneg)

include hnodup hnonneg htotal in
theorem addAll_of_subperm (hsub : outs.Subperm coins) :
    Selection.empty.addAll outs = ⟨outs, (outs.map nValue).sum⟩ := by
  have hsum := sum_le_of_subperm hnonneg hsub
  obtain ⟨l, hperm, hl⟩ := hsub
  simpa using @Selection.addAll_eq Selection.empty outs
    (by simpa using (hperm.map _).nodup_iff.mp ((hl.map _).nodup hnodup)) le_rfl
    (fun out hout => hnonneg out (hl.mem (hperm.mem_iff.mpr hout))) (by simpa using by omega)

theorem SoundCoins.addAll (h : SoundCoins vCoins) :
    Selection.empty.addAll vCoins = ⟨vCoins, (vCoins.map nValue).sum⟩ :=
  addAll_of_subperm h.nodup h.nonneg (h.total.trans (by norm_num)) (.refl _)

include hnonneg htotal

theorem nValue_lt_of_mem {out : COutput} (hout : out ∈ coins) : out.nValue < 2 ^ 63 - 1 := by
  have := sum_le_of_subperm hnonneg (singleton_subperm_iff.mpr hout)
  simp only [map_cons, map_nil, sum_singleton] at this
  omega

theorem CoinScan.Of.total_eq (h : scan.Of nTargetValue coins) :
    scan.nTotalLower = (scan.vValue.map nValue).sum := by
  have hsub : scan.vValue.Sublist coins := h.lower ▸ filter_sublist
  have hle := sum_le_of_subperm hnonneg hsub.subperm
  have hge : 0 ≤ (scan.vValue.map nValue).sum :=
    sum_nonneg (by simpa using fun out hout => hnonneg out (hsub.mem hout))
  rw [h.total, int64_of_range (by omega) (by omega)]

theorem CoinScan.Of.lower_all (h : scan.Of nTargetValue coins)
    (hnone : scan.coinLowestLarger = none) : scan.vValue = coins := by
  rw [h.lower, filter_eq_self]
  intro out hout
  by_contra hge
  obtain ⟨_, hlarger, -⟩ := h.lowest out hout (by simpa using hge)
    (nValue_lt_of_mem hnonneg htotal hout)
  rw [hnone] at hlarger
  cases hlarger

theorem selectFromScan_none (hof : scan.Of nTargetValue coins)
    (h : selectFromScan nTargetValue chance scan = none) :
    (coins.map nValue).sum < nTargetValue := by
  rw [selectFromScan] at h
  split at h
  · cases h
  split at h
  next hlt =>
    rw [hof.total_eq hnonneg htotal, hof.lower_all hnonneg htotal (Option.map_eq_none_iff.mp h)]
      at hlt
    exact hlt
  dsimp only at h
  split at h
  · split at h <;> cases h
  · cases h

include hnodup

theorem selectFromScan_well (hof : scan.Of nTargetValue coins)
    (hcent : int64 (nTargetValue + cent) = nTargetValue + cent)
    (h : selectFromScan nTargetValue chance scan = some sel) :
    SelectsWell nTargetValue coins sel := by
  have hcentpos : cent = 10000 := rfl
  have hsub : scan.vValue.Sublist coins := hof.lower ▸ filter_sublist
  have htot := hof.total_eq hnonneg htotal
  have hlowest : ∀ out ∈ coins, nTargetValue + cent ≤ out.nValue →
      ∃ larger, scan.coinLowestLarger = some larger ∧ larger.nValue ≤ out.nValue :=
    fun out hout hge =>
      hof.lowest out hout (hcent.le.trans hge) (nValue_lt_of_mem hnonneg htotal hout)
  obtain ⟨out, hout, rfl⟩ | ⟨heq, rfl⟩ | ⟨hle, vValue, best, hperm, hbest, rfl, hlarger⟩ :=
    selectFromScan_cases h
  · obtain ⟨hmem, hge⟩ := hof.larger out hout
    have hsingle := singleton_subperm_iff.mpr hmem
    have hadd : Selection.empty.add out = ⟨[out], out.nValue⟩ := by
      simpa [Selection.addAll] using addAll_of_subperm hnodup hnonneg htotal hsingle
    rw [hcent] at hge
    rw [hadd]
    refine ⟨hsingle, by simp, by simp only; omega, fun x hx hx' => ?_, .inr (.inl hge)⟩
    obtain ⟨larger, hsome, hle⟩ := hlowest x hx hx'
    obtain rfl := Option.some.inj (hout.symm.trans hsome)
    exact hle
  · rw [addAll_of_subperm hnodup hnonneg htotal hsub.subperm, ← htot, heq]
    exact ⟨hsub.subperm, by rw [← htot, heq], le_rfl, fun x _ hx => by simp only; omega, .inl rfl⟩
  · rw [htot, ← (hperm.map nValue).sum_eq] at hbest hle
    have hchosen : (chosen vValue best.2).Subperm coins :=
      (chosen_sublist _ _).subperm.trans (hperm.subperm.trans hsub.subperm)
    have hsum := sum_le_of_subperm hnonneg (hperm.subperm.trans hsub.subperm)
    obtain ⟨hvalue, hreached, hchange⟩ := bestSubset_spec
      (by simpa using fun out hout => hnonneg out (hsub.mem (hperm.mem_iff.mp hout)))
      (by omega) hle hcent chance
    rw [hbest] at hvalue hreached hchange
    rw [addAll_of_subperm hnodup hnonneg htotal hchosen]
    rw [← map_chosen] at hvalue
    refine ⟨hchosen, rfl, by simp only; omega, fun x hx hx' => ?_, ?_⟩
    · obtain ⟨larger, hsome, hle⟩ := hlowest x hx hx'
      have := (hlarger larger hsome).1
      simp only
      omega
    simp only
    cases hnone : scan.coinLowestLarger with
    | some larger =>
      have := (hlarger larger hnone).2
      omega
    | none =>
      rw [hof.lower_all hnonneg htotal hnone] at hperm
      rw [(hperm.map nValue).sum_eq] at hchange
      omega

omit hnodup hnonneg htotal

theorem selectCoinsMinConf_spec (chance : CoinChance)
    (hnodup : (vCoins.map outPoint).Nodup) (hnonneg : ∀ out ∈ vCoins, 0 ≤ out.nValue)
    (hpos : 0 ≤ nTargetValue) (hlt : nTargetValue + cent < 2 ^ 63)
    (hcoins : vCoins.filter (eligible nSpendTime nConfMine nConfTheirs) = coins)
    (htotal : (coins.map nValue).sum < 2 ^ 63 - 1) :
    match selectCoinsMinConf nTargetValue nSpendTime nConfMine nConfTheirs chance vCoins with
    | none => (coins.map nValue).sum < nTargetValue
    | some sel => SelectsWell nTargetValue coins sel := by
  have hcentpos : cent = 10000 := rfl
  have hperm : ((chance.shuffle.toFun vCoins).filter
      (eligible nSpendTime nConfMine nConfTheirs)).Perm coins :=
    hcoins ▸ (chance.shuffle.perm vCoins).filter _
  have hsub : coins.Sublist vCoins := hcoins ▸ filter_sublist
  have hspec := selectCoinsMinConf_scanned nTargetValue nSpendTime nConfMine nConfTheirs
    (chance.shuffle.toFun vCoins)
  generalize (chance.shuffle.toFun vCoins).filter _ = shuffled at hperm hspec
  have hnodup' := (hperm.map outPoint).nodup_iff.mpr ((hsub.map _).nodup hnodup)
  have hnonneg' : ∀ out ∈ shuffled, 0 ≤ out.nValue := fun out hout =>
    hnonneg out (hsub.mem (hperm.mem_iff.mp hout))
  have hsum := (hperm.map nValue).sum_eq
  have htotal' := hsum.trans_lt htotal
  rw [selectCoinsMinConf]
  revert hspec
  cases scanCoinValues nTargetValue nSpendTime nConfMine nConfTheirs
      (chance.shuffle.toFun vCoins) ⟨[], 0, none⟩ with
  | inl out =>
    rintro ⟨hmem, rfl⟩
    have hsingle := singleton_subperm_iff.mpr (hperm.mem_iff.mp hmem)
    have hadd : Selection.empty.add out = ⟨[out], out.nValue⟩ := by
      simpa [Selection.addAll] using addAll_of_subperm ((hsub.map _).nodup hnodup)
        (fun out hout => hnonneg out (hsub.mem hout)) htotal hsingle
    simp only [hadd]
    exact ⟨hsingle, by simp, le_rfl, fun x _ hx => by simp only; omega, .inl rfl⟩
  | inr scan =>
    intro hof
    dsimp only
    cases h : selectFromScan nTargetValue chance scan with
    | none => exact hsum ▸ selectFromScan_none hnonneg' htotal' hof h
    | some sel =>
      exact (selectFromScan_well hnodup' hnonneg' htotal' hof
        (int64_of_range (by omega) hlt) h).perm hperm

end Complete

theorem selectCoinsMinConf_value
    (hsound : SoundCoins vCoins) (hpos : 0 ≤ nTargetValue) (hlt : nTargetValue + cent < 2 ^ 63)
    (h : selectCoinsMinConf nTargetValue nSpendTime nConfMine nConfTheirs chance vCoins =
      some sel) :
    sel.nValue = (sel.setCoins.map nValue).sum ∧ nTargetValue ≤ sel.nValue := by
  have htotal := (hsound.sublist (filter_sublist
    (p := eligible nSpendTime nConfMine nConfTheirs))).total
  have hspec := selectCoinsMinConf_spec chance hsound.nodup hsound.nonneg hpos hlt rfl
    (htotal.trans (by norm_num))
  rw [h] at hspec
  exact ⟨hspec.value, hspec.reached⟩

/-- **Coin selection is complete**: it succeeds exactly if the eligible coins reach the target, and
then selects well. -/
theorem selectCoinsMinConf_complete (chance : CoinChance)
    (hnodup : (vCoins.map outPoint).Nodup) (hnonneg : ∀ out ∈ vCoins, 0 ≤ out.nValue)
    (hpos : 0 ≤ nTargetValue) (hlt : nTargetValue + cent < 2 ^ 63)
    (htotal : ((vCoins.filter (eligible nSpendTime nConfMine nConfTheirs)).map
      nValue).sum < 2 ^ 63 - 1) :
    let coins := vCoins.filter (eligible nSpendTime nConfMine nConfTheirs)
    let ret := selectCoinsMinConf nTargetValue nSpendTime nConfMine nConfTheirs chance vCoins
    (ret.isSome ↔ nTargetValue ≤ (coins.map nValue).sum) ∧
      ∀ sel, ret = some sel → SelectsWell nTargetValue coins sel := by
  have hspec := selectCoinsMinConf_spec chance hnodup hnonneg hpos hlt rfl htotal
  cases h : selectCoinsMinConf nTargetValue nSpendTime nConfMine nConfTheirs chance vCoins with
  | none =>
    rw [h] at hspec
    simpa using hspec
  | some sel =>
    rw [h] at hspec
    have hle := sum_le_of_subperm (fun out hout => hnonneg out (mem_filter.mp hout).1) hspec.subperm
    refine ⟨⟨fun _ => ?_, fun _ => rfl⟩, fun _ hsel => Option.some.inj hsel ▸ hspec⟩
    exact (hspec.reached.trans hspec.value.le).trans hle

def sampleCoins (values : List Int) : List COutput :=
  (List.range values.length).map fun i => ⟨7, sampleCoinRecord 7 0 values [], i, 10, true⟩

def noShuffle : CoinChance := ⟨⟨id, .refl⟩, fun _ _ _ => false⟩

theorem selectCoinsMinConf_complete_three :
    (selectCoinsMinConf 30000 0 1 6 noShuffle (sampleCoins [20000, 25000, 90000])).isSome = true ∧
    ∀ sel, selectCoinsMinConf 30000 0 1 6 noShuffle (sampleCoins [20000, 25000, 90000]) = some sel →
      SelectsWell 30000 ((sampleCoins [20000, 25000, 90000]).filter (eligible 0 1 6)) sel :=
  have h := @selectCoinsMinConf_complete 30000 1 6 0 (sampleCoins [20000, 25000, 90000]) noShuffle
    (by decide) (by decide) (by decide) (by decide) (by decide)
  ⟨h.1.mpr (by decide), h.2⟩

/-- A coin of the greatest value is not below the value `coinLowestLarger` begins with. -/
theorem selectCoinsMinConf_passes_over :
    (selectCoinsMinConf 1 0 1 6 noShuffle (sampleCoins [2 ^ 63 - 1])).isSome = false ∧
      (((sampleCoins [2 ^ 63 - 1]).filter (eligible 0 1 6)).map nValue).sum
        = 2 ^ 63 - 1 := by
  decide

/-! ## What is enumerated -/

namespace WalletView

variable (W : WalletView)

def unspent : List COutput :=
  W.mapWallet.flatMap fun e => W.outputsOf e (W.depth e.2) fun _ _ => true

variable {W}

theorem outputsOf_sublist (e : Uint256 × WalletRecord) (nDepth : Int) (ok : Nat → Int → Bool) :
    (W.outputsOf e nDepth ok).Sublist (W.outputsOf e nDepth fun _ _ => true) := by
  apply Sublist.map
  apply monotone_filter_right
  simp +contextual

variable {e : Uint256 × WalletRecord} {out : COutput} {fOnlyConfirmed : Bool}
  {setSelected : Selected}

theorem mem_outputsOf {nDepth : Int} {ok : Nat → Int → Bool} : out ∈ W.outputsOf e nDepth ok ↔
      out ∈ W.outputsOf e nDepth (fun _ _ => true) ∧ ok out.i out.nValue = true := by
  simp only [outputsOf, mem_map, mem_filter, Bool.and_eq_true, and_true]
  constructor
  · rintro ⟨p, ⟨hp, hunspent, hok⟩, rfl⟩
    refine ⟨⟨p, ⟨hp, hunspent⟩, rfl⟩, ?_⟩
    simpa [nValue, mem_zipIdx_iff_getElem?.mp hp] using hok
  · rintro ⟨⟨p, ⟨hp, hunspent⟩, rfl⟩, hok⟩
    refine ⟨p, ⟨hp, hunspent, ?_⟩, rfl⟩
    simpa [nValue, mem_zipIdx_iff_getElem?.mp hp] using hok

theorem mem_outputsOf_all {nDepth : Int} (h : out ∈ W.outputsOf e nDepth fun _ _ => true) :
    out.hash = e.1 ∧ out.tx = e.2 ∧ out.nDepth = nDepth ∧ out.i < e.2.vout.length := by
  simp only [outputsOf, List.mem_map, List.mem_filter] at h
  obtain ⟨p, ⟨hp, -⟩, rfl⟩ := h
  have := List.mem_zipIdx_iff_getElem?.mp hp
  exact ⟨rfl, rfl, rfl, (List.getElem?_eq_some_iff.mp this).1⟩

theorem mem_unspent : out ∈ W.unspent ↔
      ∃ e ∈ W.mapWallet, out ∈ W.outputsOf e (W.depth e.2) (fun _ _ => true) := by
  simp [unspent]

theorem nTime_of_mem_unspent (h : out ∈ W.unspent) : out.tx.nTime < 2 ^ 32 := by
  obtain ⟨e, he, hout⟩ := mem_unspent.mp h
  rw [(mem_outputsOf_all hout).2.1]
  exact W.times e he

theorem i_lt_of_mem_unspent (h : out ∈ W.unspent) : out.i < out.tx.vout.length := by
  obtain ⟨e, -, hout⟩ := mem_unspent.mp h
  obtain ⟨-, htx, -, hi⟩ := mem_outputsOf_all hout
  rwa [htx]

theorem availableOf_ok {outs : List COutput}
    (h : W.availableOf fOnlyConfirmed setSelected e = .ok outs) :
    outs = [] ∨ (W.isFinal e.2.toCTransaction = true ∧ W.getBlocksToMaturity e.2 ≤ 0 ∧
      0 ≤ W.depth e.2 ∧ outs = W.outputsOf e (W.depth e.2) fun i nValue =>
        decide (nValue ≥ W.nMinimumInputValue)
          && (setSelected.isEmpty || setSelected.contains ⟨e.1, i⟩)) := by
  rw [availableOf] at h
  split at h
  · exact .inl (Except.ok.inj h).symm
  rename_i hfinal
  obtain ⟨_, -, h⟩ := bind_eq_ok.mp h
  split at h
  · exact .inl (Except.ok.inj h).symm
  rename_i hpass
  simp only [Bool.or_eq_true, Bool.and_eq_true, decide_eq_true_eq, not_or, not_and, not_lt] at hpass
  obtain ⟨⟨⟨-, hbase⟩, hstake⟩, hdepth⟩ := hpass
  refine .inr ⟨by simpa using hfinal, ?_, hdepth, (Except.ok.inj h).symm⟩
  by_cases hgen : (e.2.isCoinBase || e.2.isCoinStake) = true
  · rcases Bool.or_eq_true_iff.mp hgen with hb | hs
    · exact hbase hb
    · exact hstake hs
  · simp [getBlocksToMaturity, hgen]

theorem forall₂_sublist_flatten {α β : Type*} {l : List α} {ls : List (List β)} {f : α → List β}
    (h : Forall₂ (fun a outs => outs.Sublist (f a)) l ls) :
    ls.flatten.Sublist (l.flatMap f) := by
  induction h with
  | nil => simp
  | cons hd _ ih => exact hd.append ih

theorem availableCoins_sublist (h : W.availableCoins fOnlyConfirmed setSelected = .ok vCoins) :
    vCoins.Sublist W.unspent := by
  obtain ⟨outs, houts, h⟩ := bind_eq_ok.mp h
  rw [← Except.ok.inj h]
  apply forall₂_sublist_flatten
  apply (mapM_eq_ok.mp houts).imp
  intro e outs hout
  rcases availableOf_ok hout with rfl | ⟨-, -, -, rfl⟩
  · simp
  · exact outputsOf_sublist ..

theorem mem_availableCoins
    (h : W.availableCoins fOnlyConfirmed setSelected = .ok vCoins) (hout : out ∈ vCoins) :
    out ∈ W.unspent ∧ W.isFinal out.tx.toCTransaction = true ∧
      W.getBlocksToMaturity out.tx ≤ 0 ∧ 0 ≤ W.depth out.tx := by
  refine ⟨(availableCoins_sublist h).mem hout, ?_⟩
  obtain ⟨_, houts, h⟩ := bind_eq_ok.mp h
  rw [← Except.ok.inj h] at hout
  obtain ⟨_, hos, hout⟩ := mem_flatten.mp hout
  obtain ⟨e, -, he⟩ := exists_of_mem_mapM houts hos
  rcases availableOf_ok he with rfl | ⟨hfinal, hmature, hdepth, rfl⟩
  · simp at hout
  · rw [(mem_outputsOf_all (mem_outputsOf.mp hout).1).2.1]
    exact ⟨hfinal, hmature, hdepth⟩

theorem nodup_unspent : (W.unspent.map outPoint).Nodup := by
  rw [unspent, map_flatMap, nodup_flatMap]
  constructor
  · intro e _
    rw [outputsOf, map_map]
    have hidx : ((e.2.vout.zipIdx).map Prod.snd).Nodup := by
      simpa using nodup_range'
    apply Nodup.map_on
    · intro p hp q hq hpq
      have hp' := mem_zipIdx_iff_getElem?.mp (mem_filter.mp hp).1
      have hq' := mem_zipIdx_iff_getElem?.mp (mem_filter.mp hq).1
      have hidx : p.2 = q.2 := by simpa [outPoint] using hpq
      rw [hidx, hq'] at hp'
      exact Prod.ext (Option.some.inj hp').symm hidx
    · exact (Nodup.of_map _ hidx).filter _
  · apply W.sorted.imp
    intro e e' hlt op hop hop'
    obtain ⟨out, hout, rfl⟩ := mem_map.mp hop
    obtain ⟨out', hout', heq⟩ := mem_map.mp hop'
    have hkey := (mem_outputsOf_all hout).1
    have hkey' := (mem_outputsOf_all hout').1
    have hhash : out'.hash = out.hash := congrArg COutPoint.hash heq
    rw [hkey, hkey'] at hhash
    exact absurd hhash hlt.ne'

theorem availableCoinsForStaking_sublist (nSpendTime : Nat) :
    (W.availableCoinsForStaking nSpendTime).Sublist W.unspent := by
  apply Sublist.flatMap_right
  intro e _
  rw [stakeableOf]
  split_ifs
  · simp
  · simp
  · simp
  · exact outputsOf_sublist ..

theorem availableCoinsMinConf_sublist (nConf nMinValue nMaxValue : Int) :
    (W.availableCoinsMinConf nConf nMinValue nMaxValue).Sublist W.unspent := by
  apply Sublist.flatMap_right
  intro e _
  rw [minConfOf]
  split_ifs
  · simp
  · simp
  · exact outputsOf_sublist ..

variable {chance : Nat → CoinChance}

theorem selectCoins_cases (h : W.selectCoins nTargetValue nSpendTime [] chance = .ok (some sel)) :
    ∃ vCoins, W.availableCoins true [] = .ok vCoins ∧ ∃ nConfMine nConfTheirs k,
      selectCoinsMinConf nTargetValue nSpendTime nConfMine nConfTheirs (chance k) vCoins =
        some sel := by
  obtain ⟨vCoins, hcoins, h⟩ := bind_eq_ok.mp h
  refine ⟨vCoins, hcoins, ?_⟩
  rcases Option.or_eq_some_iff.mp (Except.ok.inj h) with hsel | ⟨-, hsel⟩
  · exact ⟨_, _, _, hsel⟩
  · rcases Option.or_eq_some_iff.mp hsel with hsel | ⟨-, hsel⟩
    · exact ⟨_, _, _, hsel⟩
    · exact ⟨_, _, _, hsel⟩

theorem selectCoins_controlled (hsel : setSelected ≠ [])
    (h : W.selectCoins nTargetValue nSpendTime setSelected chance = .ok (some sel)) :
    ∃ vCoins, W.availableCoins true setSelected = .ok vCoins ∧
      sel = Selection.empty.addAll (vCoins.filter fSpendable) ∧
      nTargetValue ≤ sel.nValue := by
  obtain ⟨vCoins, hcoins, h⟩ := bind_eq_ok.mp h
  refine ⟨vCoins, hcoins, ?_⟩
  rw [if_pos (by simpa using hsel)] at h
  have h := Except.ok.inj h
  split at h
  next hge =>
    obtain rfl := Option.some.inj h
    exact ⟨rfl, hge⟩
  · cases h

variable (W)

structure Moderate : Prop where
  nonneg : ∀ out ∈ W.unspent, 0 ≤ out.nValue
  total : (W.unspent.map nValue).sum < 2 ^ 62

variable {W}

theorem Moderate.sound (h : W.Moderate) : SoundCoins W.unspent := ⟨nodup_unspent, h.nonneg, h.total⟩

end WalletView

end HoboNickels

import HoboNickels.Params

/-!
# The time offset

`AddTimeData` records the difference between the clock of a peer and our own, once per source, and
follows the median of what it has recorded. The last 200 offsets count. Times are `int64_t`, so
`abs64` of the smallest value is that value again, and it passes the test that keeps the offset
below 70 minutes.
-/

namespace HoboNickels

def abs64 (n : Int) : Int := if 0 ≤ n then n else int64 (-n)

structure CMedianFilter where
  vValues : List Int
  vSorted : List Int
  nSize : Nat

namespace CMedianFilter

def new (size : Nat) (initial_value : Int) : CMedianFilter :=
  ⟨[initial_value], [initial_value], size⟩

variable (f : CMedianFilter)

def input (value : Int) : CMedianFilter :=
  let vValues := (if f.vValues.length = f.nSize then f.vValues.drop 1 else f.vValues) ++ [value]
  { f with vValues, vSorted := vValues.insertionSort (· ≤ ·) }

def median : Int :=
  let size := f.vSorted.length
  if size % 2 = 1 then f.vSorted.getD (size / 2) 0
  else (int64 (f.vSorted.getD (size / 2 - 1) 0 + f.vSorted.getD (size / 2) 0)).tdiv 2

end CMedianFilter

/-- The static variables of `AddTimeData`, with the offset that `GetAdjustedTime` adds. -/
structure TimeData (CNetAddr : Type) where
  setKnown : List CNetAddr
  vTimeOffsets : CMedianFilter
  nTimeOffset : Int
  fDone : Bool

namespace TimeData

open List

variable {CNetAddr : Type}

def new : TimeData CNetAddr := ⟨[], .new 200 0, 0, false⟩

/-- The number of offsets is odd and large enough for the offset to follow them. -/
def adjusts (s : TimeData CNetAddr) : Prop :=
  5 ≤ s.vTimeOffsets.vValues.length ∧ s.vTimeOffsets.vValues.length % 2 = 1

instance (s : TimeData CNetAddr) : Decidable s.adjusts := inferInstanceAs (Decidable (_ ∧ _))

/-- A time that a peer sends, its address, and our own clock when it arrives. -/
structure Sample (CNetAddr : Type) where
  ip : CNetAddr
  nTime : Int
  nNow : Int

def Sample.nOffsetSample (a : Sample CNetAddr) : Int := int64 (a.nTime - a.nNow)

def addTimeData [DecidableEq CNetAddr] (s : TimeData CNetAddr) (a : Sample CNetAddr) :
    TimeData CNetAddr :=
  if a.ip ∈ s.setKnown then s
  else
    let s := { s with
      setKnown := a.ip :: s.setKnown, vTimeOffsets := s.vTimeOffsets.input a.nOffsetSample }
    if s.adjusts then
      let nMedian := s.vTimeOffsets.median
      if abs64 nMedian < 70 * 60 then { s with nTimeOffset := nMedian }
      else
        let fMatch := s.vTimeOffsets.vSorted.any fun n => n ≠ 0 && abs64 n < 5 * 60
        { s with nTimeOffset := 0, fDone := s.fDone || !fMatch }
    else s

def run [DecidableEq CNetAddr] (samples : List (Sample CNetAddr)) : TimeData CNetAddr :=
  samples.foldl addTimeData new

/-! ## The bound -/

variable {s : TimeData CNetAddr} {a : Sample CNetAddr}

theorem int64_bounds (x : Int) : -2 ^ 63 ≤ int64 x ∧ int64 x < 2 ^ 63 := by
  rw [int64, Int.bmod_def]
  split <;> omega

/-- `abs64` is right for all values but the smallest one. -/
theorem abs64_lt_iff {n : Int} (hn : -2 ^ 63 ≤ n ∧ n < 2 ^ 63) :
    abs64 n < 70 * 60 ↔ n.natAbs < 70 * 60 ∨ n = -2 ^ 63 := by
  rw [abs64, int64, Int.bmod_def]
  split
  next hpos => omega
  next hneg => split <;> omega

/-- The middle of a sorted list is the smallest number there can be if and only if that number also
stands at every place before it. -/
theorem middle_eq_iff {before behind : List Int} {mid k : Int}
    (hsorted : (before ++ mid :: behind).Pairwise (· ≤ ·))
    (hlo : ∀ n ∈ before ++ mid :: behind, k ≤ n) :
    mid = k ↔ before.length < (before ++ mid :: behind).count k := by
  rw [pairwise_append, pairwise_cons] at hsorted
  obtain ⟨-, ⟨hbehind, -⟩, hbefore⟩ := hsorted
  rw [count_append, count_cons]
  constructor
  · rintro rfl
    have hall : before.count mid = before.length := by
      rw [count_eq_length]
      intro n hn
      exact le_antisymm (hlo n (by simp [hn])) (hbefore n hn mid (by simp))
    simp [hall]
  · intro hcount
    by_contra hne
    have hnone : behind.count k = 0 := by
      rw [count_eq_zero]
      intro hmem
      exact hne (le_antisymm (hbehind k hmem) (hlo mid (by simp)))
    have hle := before.count_le_length (a := k)
    rw [hnone, if_neg (by simpa using hne)] at hcount
    omega

variable {c : List (Sample CNetAddr)}

/-- The last 200 of the offsets, with the zero at the start. -/
def recorded (c : List (Sample CNetAddr)) : List Int :=
  (0 :: c.map Sample.nOffsetSample).drop (c.length - 199)

theorem length_recorded : (recorded c).length = min (c.length + 1) 200 := by
  simp [recorded]
  omega

theorem recorded_snoc (a : Sample CNetAddr) : recorded (c ++ [a]) =
    (if (recorded c).length = 200 then (recorded c).drop 1 else recorded c)
      ++ [a.nOffsetSample] := by
  rw [length_recorded, recorded, recorded, length_append, length_singleton, map_append,
    ← cons_append, drop_append_of_le_length (by simp; omega)]
  split
  next hfull => rw [drop_drop, show c.length + 1 - 199 = c.length - 199 + 1 by omega]; rfl
  next hroom => rw [show c.length + 1 - 199 = c.length - 199 by omega]; rfl

/-- What is known after the samples `c` of different sources. -/
structure Sound (c : List (Sample CNetAddr)) (s : TimeData CNetAddr) : Prop where
  known : ∀ ip, ip ∈ s.setKnown ↔ ip ∈ c.map Sample.ip
  size : s.vTimeOffsets.nSize = 200
  values : s.vTimeOffsets.vValues = recorded c
  sorted : s.vTimeOffsets.vSorted = (recorded c).insertionSort (· ≤ ·)
  follows : s.adjusts → s.nTimeOffset =
    if abs64 s.vTimeOffsets.median < 70 * 60 then s.vTimeOffsets.median else 0

theorem sound_new : Sound [] (new : TimeData CNetAddr) where
  known := by simp [new]
  size := rfl
  values := by simp [recorded, new, CMedianFilter.new]
  sorted := by simp [recorded, new, CMedianFilter.new]
  follows h := absurd h (by simp [adjusts, new, CMedianFilter.new])

/-- The offset follows at an even number of sources, from four to 198. -/
theorem Sound.adjusts_iff (h : Sound c s) :
    s.adjusts ↔ 4 ≤ c.length ∧ c.length < 199 ∧ c.length % 2 = 0 := by
  rw [adjusts, h.values, length_recorded]
  omega

theorem inRange_recorded : ∀ n ∈ recorded c, -2 ^ 63 ≤ n ∧ n < 2 ^ 63 := by
  intro n hn
  rcases mem_cons.mp (mem_of_mem_drop hn) with rfl | hn
  · decide
  · obtain ⟨a, -, rfl⟩ := mem_map.mp hn
    exact int64_bounds _

theorem Sound.median (h : Sound c s) (hodd : s.adjusts) :
    (-2 ^ 63 ≤ s.vTimeOffsets.median ∧ s.vTimeOffsets.median < 2 ^ 63) ∧
      (s.vTimeOffsets.median = -2 ^ 63 ↔
        c.length < 2 * (c.map Sample.nOffsetSample).count (-2 ^ 63)) := by
  obtain ⟨hfour, hless, heven⟩ := h.adjusts_iff.mp hodd
  have hperm := perm_insertionSort (· ≤ ·) (recorded c)
  have hle := pairwise_insertionSort (· ≤ ·) (recorded c)
  set l := (recorded c).insertionSort (· ≤ ·)
  have hlen : l.length = c.length + 1 := by
    rw [hperm.length_eq, length_recorded]
    omega
  have hcount : (recorded c).count (-2 ^ 63) = (c.map Sample.nOffsetSample).count (-2 ^ 63) := by
    rw [recorded, Nat.sub_eq_zero_of_le (by omega), drop_zero, count_cons_of_ne (by omega)]
  have hlt : c.length / 2 < l.length := by omega
  have hsplit := take_append_drop (c.length / 2) l
  rw [drop_eq_getElem_cons hlt] at hsplit
  have hmedian : s.vTimeOffsets.median = l[c.length / 2] := by
    rw [CMedianFilter.median, h.sorted, hlen, if_pos (by omega),
      show (c.length + 1) / 2 = c.length / 2 by omega, getD_eq_getElem _ _ hlt]
  rw [hmedian]
  refine ⟨inRange_recorded _ (hperm.mem_iff.mp (getElem_mem _)), ?_⟩
  have hmiddle := middle_eq_iff (k := -2 ^ 63) (hsplit.symm ▸ hle) (by
    intro n hn
    rw [hsplit] at hn
    exact (inRange_recorded n (hperm.mem_iff.mp hn)).1)
  rw [hsplit, hperm.count_eq, hcount, length_take, hlen] at hmiddle
  refine hmiddle.trans ?_
  omega

theorem Sound.nTimeOffset (h : Sound c s) (hodd : s.adjusts) : s.nTimeOffset.natAbs < 70 * 60 ↔
    2 * (c.map Sample.nOffsetSample).count (-2 ^ 63) ≤ c.length := by
  obtain ⟨hrange, hmedian⟩ := h.median hodd
  have hiff := abs64_lt_iff hrange
  rw [← not_lt (a := c.length), ← hmedian, h.follows hodd]
  split
  next hsmall => omega
  next hlarge =>
    rw [hiff, not_or] at hlarge
    exact iff_of_true (by decide) hlarge.2

variable [DecidableEq CNetAddr]

/-- The first sample of each source. -/
def counted (samples : List (Sample CNetAddr)) : List (Sample CNetAddr) :=
  samples.foldl (fun c a => if a.ip ∈ c.map Sample.ip then c else c ++ [a]) []

def offsets (samples : List (Sample CNetAddr)) : List Int :=
  (counted samples).map Sample.nOffsetSample

theorem Sound.addTimeData (h : Sound c s) :
    Sound (if a.ip ∈ c.map Sample.ip then c else c ++ [a]) (s.addTimeData a) := by
  unfold TimeData.addTimeData
  simp only [h.known a.ip]
  split
  · exact h
  have hvalues : (s.vTimeOffsets.input a.nOffsetSample).vValues = recorded (c ++ [a]) := by
    rw [recorded_snoc, CMedianFilter.input, h.values, h.size]
  have hknown : ∀ ip, ip ∈ a.ip :: s.setKnown ↔ ip ∈ (c ++ [a]).map Sample.ip := by
    simp [h.known, or_comm]
  have hsorted := congrArg (insertionSort (· ≤ ·)) hvalues
  split
  next hodd =>
    split
    next hsmall => exact ⟨hknown, h.size, hvalues, hsorted, fun _ => (if_pos hsmall).symm⟩
    next hlarge => exact ⟨hknown, h.size, hvalues, hsorted, fun _ => (if_neg hlarge).symm⟩
  next heven => exact ⟨hknown, h.size, hvalues, hsorted, fun hodd => absurd hodd heven⟩

theorem sound_run (samples : List (Sample CNetAddr)) : Sound (counted samples) (run samples) := by
  induction samples using reverseRecOn with
  | nil => exact sound_new
  | append_singleton samples a ih =>
    rw [run, counted, foldl_append, foldl_append]
    exact ih.addTimeData

theorem addTimeData_cases (s : TimeData CNetAddr) (a : Sample CNetAddr) :
    (s.addTimeData a).nTimeOffset = s.nTimeOffset ∨ (s.addTimeData a).adjusts ∧
      ((s.addTimeData a).nTimeOffset = 0 ∨
        (s.addTimeData a).nTimeOffset = (s.addTimeData a).vTimeOffsets.median) := by
  unfold TimeData.addTimeData
  split
  · exact .inl rfl
  dsimp only
  split
  next hodd =>
    split
    · exact .inr ⟨hodd, .inr rfl⟩
    · exact .inr ⟨hodd, .inl rfl⟩
  next => exact .inl rfl

/-- **The clock.** The offset stays below 70 minutes if and only if the smallest 64-bit number is
never the offset of more than half of the sources, at an even number of them from four to 198. A
source counts once, and the offset only becomes zero or the median of what is recorded. -/
theorem timeOffset_bounded_iff (samples : List (Sample CNetAddr)) :
    ((∀ seen, seen <+: samples → (run seen).nTimeOffset.natAbs < 70 * 60) ↔
      ∀ seen, seen <+: samples → 4 ≤ (offsets seen).length → (offsets seen).length < 199 →
        (offsets seen).length % 2 = 0 →
          2 * (offsets seen).count (-2 ^ 63) ≤ (offsets seen).length) ∧
    ∀ (s : TimeData CNetAddr) (a : Sample CNetAddr), (a.ip ∈ s.setKnown → s.addTimeData a = s) ∧
      ((s.addTimeData a).nTimeOffset = s.nTimeOffset ∨ (s.addTimeData a).nTimeOffset = 0 ∨
        (s.addTimeData a).nTimeOffset = (s.addTimeData a).vTimeOffsets.median) := by
  simp only [offsets, length_map]
  refine ⟨⟨fun hbound seen hseen hfour hless heven => ?_, fun hfew seen => ?_⟩,
    fun s a => ⟨fun hknown => ?_, ?_⟩⟩
  · have hsound := sound_run seen
    exact (hsound.nTimeOffset (hsound.adjusts_iff.mpr ⟨hfour, hless, heven⟩)).mp
      (hbound seen hseen)
  · induction seen using reverseRecOn with
    | nil => simp [run, new]
    | append_singleton seen a ih =>
      intro hseen
      have hrun : run (seen ++ [a]) = (run seen).addTimeData a := by
        rw [run, foldl_append]; rfl
      rcases addTimeData_cases (run seen) a with hsame | ⟨hodd, -⟩
      · rw [hrun, hsame]
        exact ih ((prefix_append ..).trans hseen)
      · rw [← hrun] at hodd
        have hsound := sound_run (seen ++ [a])
        obtain ⟨hfour, hless, heven⟩ := hsound.adjusts_iff.mp hodd
        exact (hsound.nTimeOffset hodd).mpr (hfew _ hseen hfour hless heven)
  · rw [addTimeData, if_pos hknown]
  · exact (addTimeData_cases s a).imp_right And.right

/-- Four peers whose clocks are the smallest number before ours. -/
theorem timeOffset_unbounded :
    (run ((range 4).map fun ip => ⟨ip, -2 ^ 63 + 1000, 1000⟩)).nTimeOffset = -2 ^ 63 := by
  decide +kernel

end TimeData

end HoboNickels

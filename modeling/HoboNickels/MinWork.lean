import HoboNickels.HeaderRules

/-!
# The difficulty floor of `ProcessBlock`

Before a block that does not extend the best chain is stored, its target is compared with
`ComputeMaxBits`: twice the target of the checkpoint's last block of the kind, doubled once more for
every day begun. `minWork_floor_exact` says for which targets at the checkpoint the floor is safe
for every legitimate extension: those that are at least half of the limit.
-/

namespace HoboNickels

open ByteFloat

/-- The loop of `ComputeMaxBits`; `fuel` bounds the number of rounds. -/
def doublePerDay (bnTargetLimit : Int) : Nat → Int → Int → Int
  | 0, bnResult, _ => bnResult
  | fuel + 1, bnResult, nTime =>
    if 0 < nTime ∧ bnResult < bnTargetLimit then
      doublePerDay bnTargetLimit fuel (bnResult * 2) (nTime - 24 * 60 * 60)
    else bnResult

def daysBegun (nTime : Int) : Nat := (nTime / (24 * 60 * 60)).toNat + 1

def computeMaxBits (bnTargetLimit nBase : Nat) (nTime : Int) : Nat :=
  let bnResult := doublePerDay bnTargetLimit (daysBegun nTime) (setCompact nBase * 2) nTime
  getCompact (if bnResult > bnTargetLimit then (bnTargetLimit : Int) else bnResult)

def computeMinWork (fTestNet : Bool) (nBase : Nat) (nTime : Int) : Nat :=
  computeMaxBits (bnProofOfWorkLimit fTestNet) nBase nTime

def computeMinStake (fTestNet : Bool) (nBase : Nat) (nTime : Int) : Nat :=
  computeMaxBits (bnProofOfStakeLimit fTestNet) nBase nTime

/-- `nBits` of the last block of the kind at or before the checkpoint. -/
def lastBitsOfKind (fProofOfStake : Bool) (checkpoint : List CBlockIndex) : Option Nat :=
  (getLastBlockIndex fProofOfStake checkpoint).head?.map CBlockIndex.nBits

def passesMinWork (fTestNet : Bool) (checkpoint : List CBlockIndex) (nTime nBits : Nat)
    (fProofOfStake : Bool) : Bool :=
  match checkpoint, lastBitsOfKind fProofOfStake checkpoint with
  | pcheckpoint :: _, some nBase =>
    let deltaTime := (nTime : Int) - pcheckpoint.nTime
    let nRequired := if fProofOfStake then computeMinStake fTestNet nBase deltaTime
      else computeMinWork fTestNet nBase deltaTime
    decide (setCompact nBits ≤ setCompact nRequired)
  | _, _ => true

/-! ## The loop -/

variable (t f : Bool) (h : Nat) (limit : Int)

theorem doublePerDay_fuel (fuel : Nat) (r nTime : Int) (hfuel : daysBegun nTime ≤ fuel) :
    doublePerDay limit fuel r nTime = doublePerDay limit (daysBegun nTime) r nTime := by
  induction fuel generalizing r nTime with
  | zero =>
    unfold daysBegun at hfuel
    omega
  | succ fuel ih =>
    unfold daysBegun at hfuel ⊢
    rw [doublePerDay, doublePerDay]
    split
    next hrun =>
      -- one round uses up one day, so the remaining fuel still covers the remaining days
      by_cases hday : nTime - 24 * 60 * 60 ≤ 0
      · have hstop : ∀ n r', doublePerDay limit n r' (nTime - 24 * 60 * 60) = r' := by
          intro n r'
          cases n with
          | zero => rfl
          | succ n => rw [doublePerDay, if_neg (by omega)]
        rw [hstop, hstop]
      · have hdays : daysBegun (nTime - 24 * 60 * 60) = (nTime / (24 * 60 * 60)).toNat := by
          unfold daysBegun
          omega
        rw [← hdays]
        exact ih _ _ (by omega)
    · rfl

theorem le_doublePerDay :
    ∀ (fuel : Nat) (r nTime : Int), 0 ≤ r → r ≤ doublePerDay limit fuel r nTime := by
  intro fuel
  induction fuel with
  | zero => intro r nTime _; exact le_refl _
  | succ fuel ih =>
    intro r nTime hr
    rw [doublePerDay]
    split
    · have := ih (r * 2) (nTime - 24 * 60 * 60) (by omega)
      omega
    · exact le_refl _

theorem doublePerDay_of_le {limit r nTime : Int} (h : nTime ≤ 0) (fuel : Nat) :
    doublePerDay limit fuel r nTime = r := by
  cases fuel with
  | zero => rfl
  | succ fuel => rw [doublePerDay, if_neg (by omega)]

/-! ## Rounding and the limits -/

theorem targetLimit_lt : targetLimit t f < 2 ^ 256 := by
  cases t <;> cases f <;> decide +kernel

theorem computeKind_eq (nBase : Nat) (d : Int) :
    (if f then computeMinStake t nBase d else computeMinWork t nBase d)
      = computeMaxBits (targetLimit t f) nBase d := by
  cases f <;> rfl

theorem setCompact_getCompact_le {x : Int} {limit : Nat} (hlimit : limit < 2 ^ 256)
    (hx : x ≤ limit) : setCompact (getCompact x) ≤ setCompact (getCompact (limit : Int)) := by
  rw [setCompact_getCompact hlimit (by omega)]
  rcases lt_or_ge x 0 with hneg | hpos
  · -- the sign bit is set, so the value is not positive
    have hword : (getCompact x) % 2 ^ 24 = mantissa x.natAbs + 2 ^ 23 := by
      have := mantissa_lt x.natAbs
      simp only [getCompact, if_pos hneg]
      omega
    have : setCompact (getCompact x) ≤ 0 := by
      simp only [setCompact, hword]
      omega
    omega
  · obtain ⟨n, rfl⟩ := Int.eq_ofNat_of_zero_le hpos
    have hn : n ≤ limit := by exact_mod_cast hx
    rw [setCompact_getCompact (lt_of_le_of_lt hn hlimit) (by omega)]
    exact_mod_cast trunc_mono hn

theorem setCompact_nextTargetRequired_le (S : Int) (chain : List CBlockIndex)
    (f : Bool) : setCompact (nextTargetRequired t S chain f)
      ≤ setCompact (getCompact (targetLimit t f : Int)) := by
  obtain ⟨x, hx, hle⟩ := nextTargetRequired_eq_getCompact t S chain f
  rw [hx]
  exact setCompact_getCompact_le (targetLimit_lt t f) hle

variable {nBase : Nat}

theorem limit_le_computeMaxBits {limit : Nat} (hlimit : limit < 2 ^ 256)
    (hhalf : setCompact (getCompact (limit : Int)) ≤ 2 * setCompact nBase) (d : Int) :
    setCompact (getCompact (limit : Int)) ≤ setCompact (computeMaxBits limit nBase d) := by
  have htrunc := setCompact_getCompact hlimit (by omega)
  have hgrow := le_doublePerDay limit (daysBegun d) (setCompact nBase * 2) d (by omega)
  simp only [computeMaxBits]
  split
  · exact le_refl _
  rename_i hle
  -- the result lies between the rounded limit and the limit, so it rounds to the former
  obtain ⟨n, hn⟩ := Int.eq_ofNat_of_zero_le
    (show 0 ≤ doublePerDay limit (daysBegun d) (setCompact nBase * 2) d by omega)
  rw [hn] at hle hgrow ⊢
  have hnlim : n ≤ limit := by
    have := not_lt.mp hle
    exact_mod_cast this
  have hmin : trunc limit ≤ n := by
    have : (trunc limit : Int) ≤ (n : Int) := by rw [← htrunc]; exact le_trans hhalf (by omega)
    exact_mod_cast this
  rw [htrunc, setCompact_getCompact (lt_of_le_of_lt hnlim hlimit) (by omega)]
  have := trunc_mono hmin
  rw [trunc_trunc] at this
  exact_mod_cast this

/-! ## A day's gap just before the checkpoint

Four blocks of one kind: the genesis block, two blocks a second apart, and the checkpoint one
day later. The next block may carry the checkpoint's own time; its target is thirteen times
the checkpoint's, while the floor has only doubled. -/

def gapTime : Nat := 1374635824

def kindEntry (fProofOfStake : Bool) (nHeight nTime nBits : Nat) : CBlockIndex :=
  { lineEntry false nHeight with nFlags := if fProofOfStake then 1 else 0, nTime, nBits }

@[simp] theorem kindEntry_isProofOfStake (t n : Nat) : (kindEntry f h t n).isProofOfStake = f := by
  cases f <;> simp [CBlockIndex.isProofOfStake, kindEntry]

@[simp] theorem kindEntry_nHeight (t n : Nat) : (kindEntry f h t n).nHeight = h := rfl

@[simp] theorem kindEntry_nTime (t n : Nat) : (kindEntry f h t n).nTime = t := rfl

@[simp] theorem kindEntry_nBits (t n : Nat) : (kindEntry f h t n).nBits = n := rfl

@[simp] theorem kindEntry_getBlockTime (t n : Nat) : (kindEntry f h t n).getBlockTime = t := rfl

def gapCheckpoint (f : Bool) (nBits : Nat) : List CBlockIndex :=
  [kindEntry f 3 (gapTime + 86402) nBits, kindEntry f 2 (gapTime + 2) nBits,
    kindEntry f 1 (gapTime + 1) nBits, kindEntry f 0 gapTime nBits]

theorem gapCheckpoint_nextTarget (nBits : Nat) :
    nextTargetRequired t (getTargetSpacing t 3) (gapCheckpoint f nBits) f
      = retarget (targetLimit t f) nBits (if t then 60 else 30) 86400 := by
  have hlimit : targetLimitV1 t f (3 + 1) = targetLimit t f := by
    cases t <;> cases f <;> rfl
  have hspacing : getTargetSpacing t 3 = if t then 60 else 30 := by
    cases t <;> rfl
  have hmin : ∀ S : Int, 0 ≤ S → min (12 * S) S = S := by
    intro S hS
    exact min_eq_right (by omega)
  simp only [gapCheckpoint, nextTargetRequired, getNextTargetRequiredV1, getLastBlockIndex,
    kindEntry_isProofOfStake, kindEntry_nHeight, kindEntry_nBits, kindEntry_getBlockTime,
    bne_self_eq_false, Bool.false_eq_true, if_false, kindTargetSpacing, hlimit, hspacing]
  rw [if_neg (by decide)]
  congr 1
  · cases f with
    | true => rfl
    | false =>
      have : (1 + ((3 : Nat) : Int) - ((3 : Nat) : Int)) = 1 := by norm_num
      rw [this, mul_one]
      exact hmin _ (by split <;> norm_num)

theorem lastBitsOfKind_gapCheckpoint (nBits : Nat) :
    lastBitsOfKind f (gapCheckpoint f nBits) = some nBits := by
  simp [lastBitsOfKind, gapCheckpoint, getLastBlockIndex]

theorem gapCheckpoint_extended (nBits : Nat) :
    CanFollow t (kindEntry f 4 (gapTime + 86402)
      (nextTargetRequired t (getTargetSpacing t 3) (gapCheckpoint f nBits) f))
      (gapCheckpoint f nBits) := by
  refine ⟨⟨_, _, rfl, rfl⟩, 3, ?_⟩
  have hmedian : getMedianTimePast (gapCheckpoint f nBits) = gapTime + 2 := by
    simp only [getMedianTimePast, gapCheckpoint, List.take, List.map, kindEntry_getBlockTime]
    decide +kernel
  rw [kindEntry_nTime, kindEntry_isProofOfStake]
  refine checkHeaderContext_low ?_ ?_ ?_
  · rw [kindEntry_nHeight]
    omega
  · change getMedianTimePast (gapCheckpoint f nBits) < _
    rw [hmedian]
    decide
  · rw [kindEntry_getBlockTime]
    decide

/-- One day's gap multiplies a positive target by more than six, rounding included, unless the
limit stops it. -/
theorem retarget_day {limit nBits B : Nat} (hlimit : limit < 2 ^ 256)
    (hB : setCompact nBits = B) (hpos : 0 < B)
    (hbelow : 2 * (B : Int) < setCompact (getCompact (limit : Int))) :
    2 * (B : Int) < setCompact (retarget limit nBits (if t then 60 else 30) 86400) := by
  obtain ⟨num, den, hden, hratio, hnew⟩ : ∃ num den : Nat, 0 < den ∧ 13 * den ≤ num ∧
      retarget limit nBits (if t then 60 else 30) 86400
        = getCompact (if ((B * num / den : Nat) : Int) > limit then (limit : Int)
            else ((B * num / den : Nat) : Int)) := by
    cases t with
    | false =>
      refine ⟨186570, 13830, by omega, by omega, ?_⟩
      simp only [retarget, hB]
      rfl
    | true =>
      refine ⟨186540, 13860, by omega, by omega, ?_⟩
      simp only [retarget, hB]
      rfl
  have hgrow : 13 * B ≤ B * num / den := by
    rw [Nat.le_div_iff_mul_le hden]
    calc 13 * B * den = B * (13 * den) := by ring
      _ ≤ B * num := Nat.mul_le_mul_left _ hratio
  rw [hnew]
  split
  · exact hbelow
  rename_i hle
  have hsmall : B * num / den ≤ limit := by
    have := not_lt.mp hle
    exact_mod_cast this
  rw [setCompact_getCompact (lt_of_le_of_lt hsmall hlimit) (by omega)]
  have hround := lt_two_mul_trunc (show 0 < B * num / den by omega)
  have : 2 * B < trunc (B * num / den) := by omega
  exact_mod_cast this

theorem decoded_limit_pos : 0 < setCompact (getCompact (targetLimit t f : Int)) := by
  cases t <;> cases f <;> decide +kernel

theorem doublePerDay_nonpos :
    ∀ (fuel : Nat) (r nTime : Int), r ≤ 0 → doublePerDay limit fuel r nTime ≤ 0 := by
  intro fuel
  induction fuel with
  | zero => intro r nTime hr; exact hr
  | succ fuel ih =>
    intro r nTime hr
    rw [doublePerDay]
    split
    · exact ih _ _ (by omega)
    · exact hr

theorem computeMaxBits_nonpos (limit : Nat) (h : setCompact nBase ≤ 0) (d : Int) :
    setCompact (computeMaxBits limit nBase d) ≤ 0 := by
  have hr := doublePerDay_nonpos limit (daysBegun d) (setCompact nBase * 2) d (by omega)
  simp only [computeMaxBits]
  rw [if_neg (by omega)]
  have hzero : setCompact (getCompact ((0 : Nat) : Int)) = 0 := rfl
  rw [← hzero]
  exact setCompact_getCompact_le (by norm_num) (by exact_mod_cast hr)

/-- On the checkpoint itself the floor is at most twice the target. -/
theorem computeMaxBits_zero_le {limit B : Nat} (hlimit : limit < 2 ^ 256)
    (hB : setCompact nBase = B) (hbelow : 2 * (B : Int) < setCompact (getCompact (limit : Int))) :
    setCompact (computeMaxBits limit nBase 0) ≤ 2 * (B : Int) := by
  have hdouble : setCompact nBase * 2 = ((2 * B : Nat) : Int) := by rw [hB]; push_cast; ring
  have hle : 2 * B ≤ limit := by
    rw [setCompact_getCompact hlimit (by omega)] at hbelow
    have := trunc_le limit
    omega
  simp only [computeMaxBits, doublePerDay_of_le (le_refl 0), hdouble]
  rw [if_neg (by simpa using (show ((2 * B : Nat) : Int) ≤ _ by exact_mod_cast hle)),
    setCompact_getCompact (lt_of_le_of_lt hle hlimit) (by omega)]
  have := trunc_le (2 * B)
  exact_mod_cast this

/-- The block after a day's gap is refused. -/
theorem gapCheckpoint_refused (hpos : 0 < setCompact nBase)
    (hhalf : 2 * setCompact nBase < setCompact (getCompact (targetLimit t f : Int))) :
    passesMinWork t (gapCheckpoint f nBase) (gapTime + 86402)
      (nextTargetRequired t (getTargetSpacing t 3) (gapCheckpoint f nBase) f) f = false := by
  have hlimit := targetLimit_lt t f
  obtain ⟨B, hB⟩ := Int.eq_ofNat_of_zero_le hpos.le
  rw [hB] at hpos hhalf
  have hnew := retarget_day (t := t) hlimit hB (by exact_mod_cast hpos) hhalf
  have hold := computeMaxBits_zero_le hlimit hB hhalf
  rw [gapCheckpoint_nextTarget]
  have hlast := lastBitsOfKind_gapCheckpoint f nBase
  simp only [passesMinWork, hlast, computeKind_eq]
  exact decide_eq_false (not_le.mpr (hold.trans_lt hnew))

theorem single_extended (nBase : Nat) :
    CanFollow t (kindEntry f 1 (gapTime + 1) (getCompact (targetLimit t f : Int)))
      [kindEntry f 0 gapTime nBase] := by
  refine ⟨⟨_, _, rfl, rfl⟩, 0, ?_⟩
  have hfirst : nextTargetRequired t (getTargetSpacing t 0) [kindEntry f 0 gapTime nBase] f
      = getCompact (targetLimit t f : Int) := by
    cases t <;> cases f <;> rfl
  rw [kindEntry_nTime, kindEntry_isProofOfStake, ← hfirst]
  exact checkHeaderContext_low (by rw [kindEntry_nHeight]; omega)
    (by simp [getMedianTimePast]) (show ((gapTime : Nat) : Int) ≤ _ by decide)

/-- A target that is not positive only grows more negative, while the first block of a kind starts
at the limit. -/
theorem single_refused (hnonpos : setCompact nBase ≤ 0) :
    passesMinWork t [kindEntry f 0 gapTime nBase] (gapTime + 1)
      (getCompact (targetLimit t f : Int)) f = false := by
  have hlast : lastBitsOfKind f [kindEntry f 0 gapTime nBase] = some nBase := rfl
  simp only [passesMinWork, hlast, computeKind_eq, kindEntry_nTime]
  have hold := computeMaxBits_nonpos (targetLimit t f) hnonpos
    (((gapTime + 1 : Nat) : Int) - (gapTime : Nat))
  exact decide_eq_false (not_le.mpr (hold.trans_lt (decoded_limit_pos t f)))

/-! ## Where the floor is safe -/

/-- **The floor of `ProcessBlock` is safe exactly from half of the limit on.** Every block of every
legitimate extension of a checkpoint with `nBits = nBase` passes the test, if and only if twice the
target of `nBase` reaches the limit. -/
theorem minWork_floor_exact (fTestNet fProofOfStake : Bool) (nBase : Nat) :
    (∀ (checkpoint chain : List CBlockIndex) (b : CBlockIndex),
        lastBitsOfKind fProofOfStake checkpoint = some nBase →
        ExtendsBy fTestNet checkpoint chain → CanFollow fTestNet b chain →
        b.isProofOfStake = fProofOfStake →
        passesMinWork fTestNet checkpoint b.nTime b.nBits fProofOfStake = true)
      ↔ setCompact (getCompact (targetLimit fTestNet fProofOfStake : Int))
          ≤ 2 * setCompact nBase := by
  have hlimit := targetLimit_lt fTestNet fProofOfStake
  constructor
  · intro hsafe
    by_contra hhalf
    rw [not_le] at hhalf
    rcases lt_or_ge 0 (setCompact nBase) with hpos | hnonpos
    · -- a day's gap before the checkpoint
      have hpass := hsafe _ _ _ (lastBitsOfKind_gapCheckpoint fProofOfStake nBase) .refl
        (gapCheckpoint_extended fTestNet fProofOfStake nBase) (kindEntry_isProofOfStake _ _ _ _)
      rw [kindEntry_nTime, kindEntry_nBits, gapCheckpoint_refused _ _ hpos hhalf] at hpass
      cases hpass
    · have hpass := hsafe [kindEntry fProofOfStake 0 gapTime nBase] _ _ rfl .refl
        (single_extended fTestNet fProofOfStake nBase) (kindEntry_isProofOfStake _ _ _ _)
      rw [kindEntry_nTime, kindEntry_nBits, single_refused _ _ hnonpos] at hpass
      cases hpass
  · intro hhalf checkpoint chain b hbase _ hfollow hkind
    obtain ⟨-, _, hheader⟩ := hfollow
    obtain ⟨-, hbits⟩ := checkHeaderContext_nBits hheader
    cases checkpoint with
    | nil => cases hbase
    | cons pcheckpoint rest =>
      simp only [passesMinWork, hbase, computeKind_eq, decide_eq_true_eq, hbits, hkind]
      exact (setCompact_nextTargetRequired_le _ _ _ _).trans
        (limit_le_computeMaxBits hlimit hhalf _)

/-! ## A legitimate chain that is refused

Six proof-of-work blocks from the genesis block on. A timestamp two hours back makes the
fourth target an eighth of the limit; eleven hours of silence bring the sixth back to most of
it, while the floor over the fifth block, taken as the checkpoint, is only half of the limit. -/

def mineOn (chain : List CBlockIndex) (nTime : Nat) : List CBlockIndex :=
  kindEntry false chain.length nTime
    (nextTargetRequired false (getTargetSpacing false (chain.length - 1)) chain false) :: chain

def genesisChain : List CBlockIndex :=
  [kindEntry false 0 gapTime (getCompact (bnProofOfWorkLimit false))]

def slowChain : List CBlockIndex :=
  mineOn (mineOn (mineOn (mineOn genesisChain (gapTime + 1)) (gapTime + 10000))
    (gapTime + 4000)) (gapTime + 44000)

theorem slowChain_refused :
    ExtendsBy false genesisChain slowChain ∧
      CanFollow false ((mineOn slowChain (gapTime + 44001)).headD default) slowChain ∧
      passesMinWork false slowChain (gapTime + 44001)
        ((mineOn slowChain (gapTime + 44001)).headD default).nBits false = false := by
  refine ⟨?_, ⟨⟨_, _, rfl, rfl⟩, 4, by decide +kernel⟩, by decide +kernel⟩
  refine .step (.step (.step (.step .refl ?_) ?_) ?_) ?_
  · exact ⟨⟨_, _, rfl, rfl⟩, 0, by decide +kernel⟩
  · exact ⟨⟨_, _, rfl, rfl⟩, 1, by decide +kernel⟩
  · exact ⟨⟨_, _, rfl, rfl⟩, 2, by decide +kernel⟩
  · exact ⟨⟨_, _, rfl, rfl⟩, 3, by decide +kernel⟩

end HoboNickels

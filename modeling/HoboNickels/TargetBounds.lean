import HoboNickels.MinWork

/-!
# Targets that can be met

Retargeting multiplies the last target of a kind by a weight that contains twice the difference of
the times of its last two blocks. A block may lie up to two hours before its parent, and in version
1 the weight of two such blocks is negative: the next target is not positive, and no block of that
kind can follow (`nextTarget_negative`). `nextTarget_usable_iff` says which chains are safe.
-/

namespace HoboNickels

open ByteFloat

def TimeAccepted (b : CBlockIndex) (chain : List CBlockIndex) : Prop :=
  match chain with
  | [] => True
  | pindexPrev :: _ =>
    b.nHeight = pindexPrev.nHeight + 1 ∧ ¬ b.getBlockTime ≤ getMedianTimePast chain ∧
      ¬ futureDrift b.getBlockTime < pindexPrev.getBlockTime

def TimesAccepted : List CBlockIndex → Prop
  | [] => True
  | b :: rest => TimeAccepted b rest ∧ TimesAccepted rest

def UsableTarget (nBits limit : Nat) : Prop :=
  ∃ bnTarget : Nat, 0 < bnTarget ∧ bnTarget ≤ limit ∧ nBits = getCompact bnTarget

/-! ## Compact forms -/

theorem limitAfter_lt (t f : Bool) (chain : List CBlockIndex) : limitAfter t f chain < 2 ^ 256 := by
  have hlimit : targetLimit t f < 2 ^ 256 := by cases t <;> cases f <;> decide +kernel
  exact (limitAfter_le t f chain).trans_lt hlimit

theorem limitAfter_pos (t f : Bool) (chain : List CBlockIndex) : 0 < limitAfter t f chain := by
  have hlimit : 0 < targetLimit t f := by cases t <;> cases f <;> decide +kernel
  cases chain with
  | nil => exact hlimit
  | cons last rest =>
    unfold limitAfter targetLimitV1
    repeat' split
    all_goals first | exact hlimit | decide +kernel

theorem UsableTarget.decoded {nBits limit : Nat} (h : UsableTarget nBits limit)
    (hlimit : limit < 2 ^ 256) : 0 < setCompact nBits ∧ setCompact nBits ≤ limit := by
  obtain ⟨bnTarget, hpos, hle, rfl⟩ := h
  rw [setCompact_getCompact (hle.trans_lt hlimit) (by omega)]
  have hhalf := lt_two_mul_trunc hpos
  have htrunc := trunc_le bnTarget
  constructor
  · exact_mod_cast show 0 < trunc bnTarget by omega
  · exact_mod_cast htrunc.trans hle

theorem setCompact_getCompact_nonpos {x : Int} (hx : x ≤ 0) : setCompact (getCompact x) ≤ 0 := by
  rcases hx.lt_or_eq with hneg | rfl
  · have hword : mantissa x.natAbs < 2 ^ 23 := mantissa_lt _
    have hmod : getCompact x % 2 ^ 24 = mantissa x.natAbs + 2 ^ 23 := by
      simp only [getCompact, if_pos hneg]
      omega
    simp only [setCompact, hmod]
    omega
  · decide

theorem usableTarget_iff {x : Int} {limit : Nat} (hle : x ≤ limit) (hlimit : limit < 2 ^ 256) :
    UsableTarget (getCompact x) limit ↔ 0 < x := by
  constructor
  · intro h
    by_contra hx
    exact absurd (h.decoded hlimit).1 (not_lt.mpr (setCompact_getCompact_nonpos (not_lt.mp hx)))
  · intro hx
    refine ⟨x.toNat, by omega, by omega, ?_⟩
    rw [Int.toNat_of_nonneg hx.le]

/-! ## One retargeting -/

def retargetWeight (nTargetSpacing nActualSpacing : Int) : Int :=
  (nTargetTimespan.tdiv nTargetSpacing - 1) * nTargetSpacing + nActualSpacing + nActualSpacing

def retargetDivisor (nTargetSpacing : Int) : Int :=
  (nTargetTimespan.tdiv nTargetSpacing + 1) * nTargetSpacing

theorem tdiv_pos_iff {a b : Int} (hb : 0 < b) : 0 < a.tdiv b ↔ b ≤ a := by
  constructor
  · intro h
    by_contra hlt
    rcases le_or_gt 0 a with hnonneg | _
    · rw [Int.tdiv_eq_zero_of_lt hnonneg (not_le.mp hlt)] at h
      exact lt_irrefl _ h
    · have hopposite := Int.tdiv_nonneg (show 0 ≤ -a by omega) hb.le
      rw [Int.neg_tdiv] at hopposite
      omega
  · intro h
    rw [Int.tdiv_eq_ediv_of_nonneg (hb.le.trans h)]
    exact Int.le_ediv_of_mul_le hb (by omega)

theorem retarget_usable_iff {limit nBits : Nat} {T A : Int} (hpos : 0 < limit)
    (hlimit : limit < 2 ^ 256) (hdivisor : 0 < retargetDivisor T) :
    UsableTarget (retarget limit nBits T A) limit ↔
      retargetDivisor T ≤ setCompact nBits * retargetWeight T A := by
  rw [← tdiv_pos_iff hdivisor]
  change UsableTarget (getCompact (if (setCompact nBits * retargetWeight T A).tdiv
    (retargetDivisor T) > limit then (limit : Int) else _)) limit ↔ _
  split
  next habove =>
    rw [usableTarget_iff (le_refl _) hlimit]
    omega
  next hbelow => exact usableTarget_iff (not_lt.mp hbelow) hlimit

theorem kindTargetSpacing_range (fTestNet : Bool) (nBestHeight : Int) (f : Bool)
    {pindexLast pindexPrev : CBlockIndex} (hheight : pindexPrev.nHeight ≤ pindexLast.nHeight) :
    30 ≤ kindTargetSpacing (getTargetSpacing fTestNet nBestHeight) f pindexLast pindexPrev ∧
      kindTargetSpacing (getTargetSpacing fTestNet nBestHeight) f pindexLast pindexPrev
        ≤ 1512 := by
  have hspacing : 30 ≤ getTargetSpacing fTestNet nBestHeight ∧
      getTargetSpacing fTestNet nBestHeight ≤ 126 := by
    unfold getTargetSpacing
    split
    · decide
    · cases fTestNet <;> decide
  generalize getTargetSpacing fTestNet nBestHeight = S at hspacing
  unfold kindTargetSpacing
  split
  · omega
  have hgrows : S * 1 ≤ S * (1 + (pindexLast.nHeight : Int) - pindexPrev.nHeight) :=
    mul_le_mul_of_nonneg_left (by omega) (by omega)
  refine ⟨le_min (by omega) (by omega), ?_⟩
  exact (min_le_left _ _).trans (by omega)

theorem interval_ge {T : Int} (hlow : 30 ≤ T) (hhigh : T ≤ 1512) : 9 ≤ nTargetTimespan.tdiv T := by
  rw [Int.tdiv_eq_ediv_of_nonneg (by decide)]
  apply Int.le_ediv_of_mul_le (by omega)
  change 9 * T ≤ 13823
  omega

theorem retargetDivisor_pos {T : Int} (hlow : 30 ≤ T) (hhigh : T ≤ 1512) :
    0 < retargetDivisor T := by
  have hinterval := interval_ge hlow hhigh
  exact mul_pos (by omega) (by omega)

theorem divisor_le_of_spacing_nonneg {T A bnTarget : Int} (hlow : 30 ≤ T) (hhigh : T ≤ 1512)
    (hspacing : 0 ≤ A) (htarget : 2 ≤ bnTarget) :
    retargetDivisor T ≤ bnTarget * retargetWeight T A := by
  have hinterval := interval_ge hlow hhigh
  unfold retargetDivisor retargetWeight
  generalize nTargetTimespan.tdiv T = I at hinterval
  have hbase : 0 ≤ (I - 1) * T := mul_nonneg (by omega) (by omega)
  calc (I + 1) * T ≤ 2 * ((I - 1) * T) := by nlinarith
    _ ≤ 2 * ((I - 1) * T + A + A) := by omega
    _ ≤ bnTarget * ((I - 1) * T + A + A) := mul_le_mul_of_nonneg_right htarget (by omega)

/-! ## Every chain -/

theorem nHeight_of_suffix {chain : List CBlockIndex} (hchain : TimesAccepted chain) :
    ∀ {last : CBlockIndex} {rest : List CBlockIndex}, chain = last :: rest →
      ∀ b ∈ chain, b.nHeight ≤ last.nHeight := by
  induction chain with
  | nil =>
    rintro last rest ⟨⟩
  | cons c tail ih =>
    rintro last rest ⟨⟩ b hb
    rcases List.mem_cons.mp hb with rfl | hb
    · exact le_refl _
    cases tail with
    | nil => cases hb
    | cons prev more =>
      have hprev := ih hchain.2 rfl b hb
      have hheight := hchain.1.1
      omega

theorem mem_of_lastTwo {f : Bool} {chain : List CBlockIndex} {prev prevprev : CBlockIndex}
    (h : lastTwo f chain = some (prev, prevprev)) :
    (getLastBlockIndex f chain).head? = some prev ∧ prev ∈ chain := by
  unfold lastTwo at h
  have hsuffix := getLastBlockIndex_suffix f chain
  rcases hlast : getLastBlockIndex f chain with _ | ⟨b, _ | ⟨_, _⟩⟩
  · simp [hlast] at h
  · simp [hlast] at h
  rw [hlast] at h hsuffix
  dsimp only at h
  split at h
  · cases h
    exact ⟨rfl, hsuffix.subset (by simp)⟩
  · cases h

def SafeSpacing (fTestNet : Bool) (nBestHeight : Int) (fProofOfStake : Bool) (last : CBlockIndex)
    (rest : List CBlockIndex) : Prop :=
  match lastTwo fProofOfStake (last :: rest) with
  | none => True
  | some (pindexPrev, pindexPrevPrev) =>
    let nTargetSpacing :=
      kindTargetSpacing (getTargetSpacing fTestNet nBestHeight) fProofOfStake last pindexPrev
    retargetDivisor nTargetSpacing ≤ setCompact pindexPrev.nBits
      * retargetWeight nTargetSpacing (pindexPrev.getBlockTime - pindexPrevPrev.getBlockTime)

/-- **When retargeting gives a target that can be met.** On a chain that keeps the rules on
timestamps, with a last target of at least 2 and at most the limit, the required `nBits` is the
compact form of a positive target not above the limit, if and only if version 2 applies, or there
are not two earlier blocks of the kind, or the weight of their spacing does not bring the target
down to zero. -/
theorem nextTarget_usable_iff (fTestNet : Bool) (nBestHeight : Int) (last : CBlockIndex)
    (rest : List CBlockIndex) (fProofOfStake : Bool)
    (htimes : TimesAccepted (last :: rest))
    (htarget : ∀ pindexPrev,
      (getLastBlockIndex fProofOfStake (last :: rest)).head? = some pindexPrev →
      2 ≤ setCompact pindexPrev.nBits ∧
        setCompact pindexPrev.nBits ≤ limitAfter fTestNet fProofOfStake (last :: rest)) :
    UsableTarget
        (nextTargetRequired fTestNet (getTargetSpacing fTestNet nBestHeight) (last :: rest)
          fProofOfStake)
        (limitAfter fTestNet fProofOfStake (last :: rest)) ↔
      (last.nHeight + 1 ≤ version1_5SwitchBlock →
        SafeSpacing fTestNet nBestHeight fProofOfStake last rest) := by
  have hlimit := limitAfter_lt fTestNet fProofOfStake (last :: rest)
  have hpos := limitAfter_pos fTestNet fProofOfStake (last :: rest)
  rw [nextTargetRequired_eq]
  unfold SafeSpacing
  rcases htwo : lastTwo fProofOfStake (last :: rest) with _ | ⟨prev, _⟩
  · exact ⟨fun _ _ => trivial, fun _ => ⟨_, hpos, le_refl _, rfl⟩⟩
  obtain ⟨hhead, hmem⟩ := mem_of_lastTwo htwo
  have hheight := nHeight_of_suffix htimes rfl prev hmem
  obtain ⟨hlow, hhigh⟩ :=
    kindTargetSpacing_range fTestNet nBestHeight fProofOfStake hheight
  have hdivisor := retargetDivisor_pos hlow hhigh
  rw [retarget_usable_iff hpos hlimit hdivisor]
  by_cases hv2 : last.nHeight + 1 > version1_5SwitchBlock
  · refine ⟨fun _ hv1 => absurd hv1 (not_le.mpr hv2), fun _ => ?_⟩
    apply divisor_le_of_spacing_nonneg hlow hhigh _ (htarget prev hhead).1
    split
    · omega
    next hnot => exact not_lt.mp (fun hneg => hnot ⟨hv2, hneg⟩)
  · rw [if_neg (fun h => hv2 h.1)]
    exact ⟨fun h _ => h, fun h => h (not_lt.mp hv2)⟩

instance (b : CBlockIndex) (chain : List CBlockIndex) : Decidable (TimeAccepted b chain) :=
  match chain with
  | [] => isTrue trivial
  | _ :: _ => inferInstanceAs (Decidable (_ ∧ _ ∧ _))

instance : (chain : List CBlockIndex) → Decidable (TimesAccepted chain)
  | [] => isTrue trivial
  | b :: rest =>
    have : Decidable (TimesAccepted rest) := instDecidableTimesAccepted rest
    inferInstanceAs (Decidable (TimeAccepted b rest ∧ TimesAccepted rest))

theorem nextTarget_usable_sample :
    let chain := mineOn (mineOn (mineOn genesisChain (gapTime + 60)) (gapTime + 120))
      (gapTime + 180)
    TimesAccepted chain ∧
      UsableTarget (nextTargetRequired false (getTargetSpacing false 3) chain false)
        (limitAfter false false chain) :=
  ⟨by decide +kernel,
    (nextTarget_usable_iff false 3 _ _ false (by decide +kernel)
      (by rintro prev ⟨⟩; decide +kernel)).mpr
      (fun _ => show retargetDivisor 30 ≤ setCompact _ * retargetWeight 30 60 by decide +kernel)⟩

def backChain : List CBlockIndex :=
  mineOn (mineOn (mineOn genesisChain (gapTime + 30)) (gapTime + 7300)) (gapTime + 100)

/-- All blocks of the chain are accepted, and its last target is the limit. The next target is
negative. -/
theorem nextTarget_negative :
    ExtendsBy false genesisChain backChain ∧ TimesAccepted backChain ∧
      2 ≤ setCompact (backChain.headD default).nBits ∧
      setCompact (backChain.headD default).nBits ≤ limitAfter false false backChain ∧
      ¬ UsableTarget (nextTargetRequired false (getTargetSpacing false 3) backChain false)
        (limitAfter false false backChain) := by
  have hnegative :
      setCompact (nextTargetRequired false (getTargetSpacing false 3) backChain false) < 0 := by
    decide +kernel
  refine ⟨?_, by decide +kernel, by decide +kernel, by decide +kernel, ?_⟩
  · refine .step (.step (.step .refl ?_) ?_) ?_
    · exact ⟨⟨_, _, rfl, rfl⟩, 0, by decide +kernel⟩
    · exact ⟨⟨_, _, rfl, rfl⟩, 1, by decide +kernel⟩
    · exact ⟨⟨_, _, rfl, rfl⟩, 2, by decide +kernel⟩
  · intro husable
    have hpositive := (husable.decoded (limitAfter_lt _ _ _)).1
    omega

end HoboNickels

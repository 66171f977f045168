import HoboNickels.Lib.Bisection
import HoboNickels.MoneySupply

/-!
# The proof-of-stake reward

The search for the yearly rate ends with bounds less than a cent apart, and a larger target never
gives a smaller rate (`coinYearRate_search`). The subsidy is a product in 64 bits, and the cap of
250 coins comes after it: for old coins the product overflows (`stakeReward_overflows`), from the
coin age on that `stakeReward_inRange_iff` gives.
-/

namespace HoboNickels

open Bisection WriteBatch Option

inductive RewardVersion where
  | V2
  | V3
  deriving DecidableEq, Repr

namespace RewardVersion

def lowerBound : RewardVersion → Int
  | V2 => 10 * cent
  | V3 => 20 * cent

def power : RewardVersion → Nat
  | V2 => 4
  | V3 => 6

def reward : RewardVersion → Bool → Int → Nat → Bool → Int
  | V2 => getProofOfStakeRewardV2
  | V3 => getProofOfStakeRewardV3

def ofTime (fTestNet : Bool) (nTime : Nat) : RewardVersion :=
  if nTime > version2_0SwitchTime fTestNet then V3 else V2

end RewardVersion

def rewardTargetLimit (fTestNet : Bool) : Int :=
  setCompact (getCompact (bnProofOfStakeLimit fTestNet))

variable (fTestNet : Bool) (v : RewardVersion)

/-- The comparison of the loop: the rate is above what the target allows. -/
def rateAbove (bnTarget bnMidValue : Int) : Bool :=
  decide (bnMidValue ^ v.power * rewardTargetLimit fTestNet
    > maxMintProofOfStakeFix2 ^ v.power * bnTarget)

/-- Both bounds at the end of the loop, after at most as many rounds as given. -/
def rateSearch (bnTarget : Int) (rounds : Nat) : Int × Int :=
  bisect (rateAbove fTestNet v bnTarget) cent rounds v.lowerBound maxMintProofOfStakeFix2

def coinYearRate (bnTarget : Int) : Int :=
  min ((rateSearch fTestNet v bnTarget 64).2.tdiv cent * cent) maxMintProofOfStakeFix2

theorem bisectRate_eq_bisect (bnTargetLimit bnTarget limit : Int) (power : Nat) (rounds : Nat)
    (lower upper : Int) :
    bisectRate bnTargetLimit bnTarget limit power rounds lower upper =
      (bisect (fun m => decide (m ^ power * bnTargetLimit > limit ^ power * bnTarget)) cent rounds
        lower upper).2 := by
  induction rounds generalizing lower upper with
  | zero => rfl
  | succ rounds ih =>
    rw [bisectRate, bisect]
    split
    · dsimp only
      rw [ih, ih]
      simp only [decide_eq_true_eq]
      split <;> rfl
    · rfl

variable (fTestNet : Bool) (v : RewardVersion) (bnTarget : Int) (nBits : Nat)

theorem rewardCoinYear_eq :
    rewardCoinYear fTestNet nBits v.lowerBound maxMintProofOfStakeFix2 v.power
      = (rateSearch fTestNet v (setCompact nBits) 64).2 :=
  bisectRate_eq_bisect _ _ _ _ _ _ _

open RewardVersion

theorem reward_eq (nCoinAge : Int) (nBits : Nat) :
    v.reward fTestNet nCoinAge nBits true = coinYearRate fTestNet v (setCompact nBits) ∧
    v.reward fTestNet nCoinAge nBits false
      = min (stakeSubsidy nCoinAge (coinYearRate fTestNet v (setCompact nBits))) nSubsidyLimit := by
  have hrate := rewardCoinYear_eq fTestNet v nBits
  unfold coinYearRate
  rw [← hrate]
  cases v with
  | V2 =>
    simp only [reward, getProofOfStakeRewardV2, cappedStakeReward,
      lowerBound, power, if_true, Bool.false_eq_true, if_false,
      and_self]
  | V3 =>
    simp only [reward, getProofOfStakeRewardV3, cappedStakeReward,
      lowerBound, power, if_true, Bool.false_eq_true, if_false,
      and_self]

theorem rateSearch_bounds (rounds : Nat) :
    Bounds (rateAbove fTestNet v bnTarget) v.lowerBound maxMintProofOfStakeFix2
      (rateSearch fTestNet v bnTarget rounds) := by
  apply bisect_spec
  · decide
  · cases v <;> decide
  · cases v <;> decide

theorem rateSearch_narrow :
    (rateSearch fTestNet v bnTarget 64).2 < (rateSearch fTestNet v bnTarget 64).1 + cent := by
  apply bisect_narrow
  · decide
  · cases v <;> decide
  · cases v <;> decide

theorem rateSearch_rounds {rounds : Nat} (h : 64 ≤ rounds) :
    rateSearch fTestNet v bnTarget rounds = rateSearch fTestNet v bnTarget 64 :=
  bisect_rounds h _ _ (rateSearch_narrow fTestNet v bnTarget)

theorem coinYearRate_between : v.lowerBound ≤ coinYearRate fTestNet v bnTarget ∧
      coinYearRate fTestNet v bnTarget ≤ maxMintProofOfStakeFix2 := by
  have hbounds := rateSearch_bounds fTestNet v bnTarget 64
  have hlower := hbounds.lower_le
  have hlt := hbounds.lt
  have hcent : cent = 10000 := rfl
  unfold coinYearRate
  rw [hcent]
  refine ⟨le_min ?_ ?_, min_le_right _ _⟩
  · cases v with
    | V2 =>
      change 100000 ≤ _ at hlower
      change 100000 ≤ _
      rw [Int.tdiv_eq_ediv_of_nonneg (by omega)]
      omega
    | V3 =>
      change 200000 ≤ _ at hlower
      change 200000 ≤ _
      rw [Int.tdiv_eq_ediv_of_nonneg (by omega)]
      omega
  · cases v <;> decide

theorem coinYearRate_mono {bnTarget bnTarget' : Int} (h : bnTarget ≤ bnTarget') :
    coinYearRate fTestNet v bnTarget ≤ coinYearRate fTestNet v bnTarget' := by
  have hupper : (rateSearch fTestNet v bnTarget 64).2 ≤ (rateSearch fTestNet v bnTarget' 64).2 := by
    apply bisect_mono
    · decide
    · intro m _ habove
      simp only [rateAbove, decide_eq_true_eq] at habove ⊢
      have hpow : (0 : Int) ≤ maxMintProofOfStakeFix2 ^ v.power := pow_nonneg (by decide) _
      exact lt_of_le_of_lt (mul_le_mul_of_nonneg_left h hpow) habove
    · cases v <;> decide
    · cases v <;> decide
  have hcent : cent = 10000 := rfl
  have hpositive : 0 ≤ (rateSearch fTestNet v bnTarget 64).2 := by
    have hbounds := rateSearch_bounds fTestNet v bnTarget 64
    have hlower := hbounds.lower_le
    have hlt := hbounds.lt
    have hzero : 0 ≤ v.lowerBound := by cases v <;> decide
    omega
  apply min_le_min_right
  rw [hcent, Int.tdiv_eq_ediv_of_nonneg hpositive, Int.tdiv_eq_ediv_of_nonneg (by omega)]
  omega

/-- **The search for the rate** ends with bounds that are apart by less than a cent. The upper one
is the limit or too high for the target, the lower one is the bound it started from or not. The rate
lies between them, and a larger target does not give a smaller rate. -/
theorem coinYearRate_search (fTestNet : Bool) (v : RewardVersion) (bnTarget : Int) :
    ∃ lower upper : Int,
      (∀ rounds, 64 ≤ rounds → rateSearch fTestNet v bnTarget rounds = (lower, upper)) ∧
      lower < upper ∧ upper < lower + cent ∧
      (upper = maxMintProofOfStakeFix2 ∨
        upper ^ v.power * rewardTargetLimit fTestNet
          > maxMintProofOfStakeFix2 ^ v.power * bnTarget) ∧
      (lower = v.lowerBound ∨
        ¬ lower ^ v.power * rewardTargetLimit fTestNet
          > maxMintProofOfStakeFix2 ^ v.power * bnTarget) ∧
      (∀ (nCoinAge : Int) (nBits : Nat), setCompact nBits = bnTarget →
        rewardCoinYear fTestNet nBits v.lowerBound maxMintProofOfStakeFix2 v.power = upper ∧
        v.reward fTestNet nCoinAge nBits true = coinYearRate fTestNet v bnTarget) ∧
      v.lowerBound ≤ coinYearRate fTestNet v bnTarget ∧
      coinYearRate fTestNet v bnTarget ≤ maxMintProofOfStakeFix2 ∧
      ∀ bnTarget', bnTarget ≤ bnTarget' →
        coinYearRate fTestNet v bnTarget ≤ coinYearRate fTestNet v bnTarget' := by
  have hbounds := rateSearch_bounds fTestNet v bnTarget 64
  obtain ⟨hge, hle⟩ := coinYearRate_between fTestNet v bnTarget
  refine ⟨(rateSearch fTestNet v bnTarget 64).1, (rateSearch fTestNet v bnTarget 64).2,
    fun rounds hrounds => rateSearch_rounds fTestNet v bnTarget hrounds, hbounds.lt,
    rateSearch_narrow fTestNet v bnTarget, ?_, ?_, ?_, hge, hle,
    fun _ h => coinYearRate_mono fTestNet v h⟩
  · exact hbounds.upper_holds.imp_right of_decide_eq_true
  · exact hbounds.lower_fails.imp_right of_decide_eq_false
  · rintro nCoinAge nBits rfl
    exact ⟨rewardCoinYear_eq fTestNet v nBits, (reward_eq fTestNet v nCoinAge nBits).1⟩

/-! ## The range of the subsidy -/

def InInt64 (x : Int) : Prop := -2 ^ 63 ≤ x ∧ x < 2 ^ 63

instance (x : Int) : Decidable (InInt64 x) := inferInstanceAs (Decidable (_ ∧ _))

/-- The exact results of the 64-bit operations of one call. The last one is only made for the log.
-/
def rewardOperations (nCoinAge : Int) (nBits : Nat) : List Int :=
  let upper := rewardCoinYear fTestNet nBits v.lowerBound maxMintProofOfStakeFix2 v.power
  let nRewardCoinYear := min (upper.tdiv cent * cent) maxMintProofOfStakeFix2
  let nSubsidy := (nCoinAge * 33 * nRewardCoinYear).tdiv (365 * 33 + 8)
  [upper, upper.tdiv cent, upper.tdiv cent * cent, nCoinAge, nCoinAge * 33,
    nCoinAge * 33 * nRewardCoinYear, nSubsidy] ++
    if nSubsidyLimit < nSubsidy then [nSubsidy - nSubsidyLimit] else []

def RewardFits (nCoinAge : Int) (nBits : Nat) : Prop :=
  ∀ x ∈ rewardOperations fTestNet v nCoinAge nBits, InInt64 x

instance (fTestNet : Bool) (v : RewardVersion) (nCoinAge : Int) (nBits : Nat) :
    Decidable (RewardFits fTestNet v nCoinAge nBits) :=
  inferInstanceAs (Decidable (∀ x ∈ _, _))

theorem rewardFits_iff {nCoinAge : Int} (hage : 0 ≤ nCoinAge) :
    RewardFits fTestNet v nCoinAge nBits ↔
      nCoinAge * 33 * coinYearRate fTestNet v (setCompact nBits) < 2 ^ 63 := by
  have hbounds := rateSearch_bounds fTestNet v (setCompact nBits) 64
  obtain ⟨hrate, hlimit⟩ := coinYearRate_between fTestNet v (setCompact nBits)
  have hlower : 100000 ≤ v.lowerBound := by cases v <;> decide
  have hcent : cent = 10000 := rfl
  have hmax : maxMintProofOfStakeFix2 = 1000000 := rfl
  have hcap : nSubsidyLimit = 250000000 := rfl
  have hupper := hbounds.le_upper
  have hlow := hbounds.lower_le
  have hlt := hbounds.lt
  have hsame : min ((rateSearch fTestNet v (setCompact nBits) 64).2.tdiv cent * cent)
      maxMintProofOfStakeFix2 = coinYearRate fTestNet v (setCompact nBits) := rfl
  unfold RewardFits rewardOperations
  rw [rewardCoinYear_eq]
  simp only [hsame]
  generalize coinYearRate fTestNet v (setCompact nBits) = rate at hrate hlimit ⊢
  generalize (rateSearch fTestNet v (setCompact nBits) 64).2 = upper at hupper hlt ⊢
  have hproduct : nCoinAge * 33 ≤ nCoinAge * 33 * rate :=
    le_mul_of_one_le_right (by omega) (by omega)
  generalize nCoinAge * 33 * rate = product at hproduct ⊢
  rw [Int.tdiv_eq_ediv_of_nonneg (show 0 ≤ upper by omega),
    Int.tdiv_eq_ediv_of_nonneg (show 0 ≤ product by omega), hcent]
  constructor
  · intro hall
    exact (hall product (by simp)).2
  intro hfits x hx
  unfold InInt64
  rcases List.mem_append.mp hx with hx | hx
  · simp only [List.mem_cons, List.not_mem_nil, or_false] at hx
    rcases hx with rfl | rfl | rfl | rfl | rfl | rfl | rfl <;> omega
  split at hx
  · rw [List.mem_singleton] at hx
    omega
  · cases hx

theorem int64_of_inInt64 {x : Int} (h : InInt64 x) : int64 x = x := by
  obtain ⟨_, _⟩ := h
  apply Int.bmod_eq_of_le
  · omega
  · omega

theorem reward_inRange {nCoinAge : Int}
    (hage : 0 ≤ nCoinAge) (hfits : RewardFits fTestNet v nCoinAge nBits) :
    0 ≤ v.reward fTestNet nCoinAge nBits false ∧
      v.reward fTestNet nCoinAge nBits false ≤ nSubsidyLimit := by
  have hproduct := (rewardFits_iff fTestNet v nBits hage).mp hfits
  rw [(reward_eq fTestNet v nCoinAge nBits).2]
  have hlower : 0 < v.lowerBound := by cases v <;> decide
  have hrate : 0 < coinYearRate fTestNet v (setCompact nBits) :=
    lt_of_lt_of_le hlower (coinYearRate_between fTestNet v (setCompact nBits)).1
  generalize coinYearRate fTestNet v (setCompact nBits) = rate at hproduct hrate
  have hgrows : nCoinAge * 33 ≤ nCoinAge * 33 * rate :=
    le_mul_of_one_le_right (by omega) (by omega)
  have hcap : 0 ≤ nSubsidyLimit := by decide
  refine ⟨le_min ?_ hcap, min_le_right _ _⟩
  unfold stakeSubsidy
  rw [int64_of_inInt64 (x := nCoinAge * 33) ⟨by omega, by omega⟩,
    int64_of_inInt64 ⟨by omega, hproduct⟩]
  exact Int.tdiv_nonneg (by omega) (by decide)

theorem coinYearRate_limit :
    coinYearRate fTestNet v (rewardTargetLimit fTestNet) = maxMintProofOfStakeFix2 := by
  have hbounds := rateSearch_bounds fTestNet v (rewardTargetLimit fTestNet) 64
  have htarget : 0 < rewardTargetLimit fTestNet := by cases fTestNet <;> decide +kernel
  have hupper : (rateSearch fTestNet v (rewardTargetLimit fTestNet) 64).2
      = maxMintProofOfStakeFix2 := by
    rcases hbounds.upper_holds with heq | habove
    · exact heq
    have hpow := lt_of_mul_lt_mul_right (of_decide_eq_true habove) htarget.le
    have hle := pow_le_pow_left₀ (n := v.power) ?_ hbounds.le_upper
    · exact absurd hpow (not_lt.mpr hle)
    · have hzero : 0 ≤ v.lowerBound := by cases v <;> decide
      exact (hzero.trans hbounds.lower_le).trans hbounds.lt.le
  unfold coinYearRate
  rw [hupper]
  rfl

def maxRewardCoinAge : Nat := 279496122328

theorem rewardFits_all_iff (nCoinAge : Nat) :
    (∀ nBits < 2 ^ 32, RewardFits fTestNet v nCoinAge nBits ∧
        0 ≤ v.reward fTestNet nCoinAge nBits false ∧
        v.reward fTestNet nCoinAge nBits false ≤ nSubsidyLimit) ↔
      nCoinAge ≤ maxRewardCoinAge := by
  have hage : (0 : Int) ≤ nCoinAge := Int.natCast_nonneg _
  have hmax : maxMintProofOfStakeFix2 = 1000000 := rfl
  have hbound : maxRewardCoinAge = 279496122328 := rfl
  constructor
  · intro hall
    have hfits := (hall (getCompact (bnProofOfStakeLimit fTestNet)) (getCompact_lt _)).1
    rw [rewardFits_iff fTestNet v _ hage] at hfits
    change (nCoinAge : Int) * 33 * coinYearRate fTestNet v (rewardTargetLimit fTestNet) < _ at hfits
    rw [coinYearRate_limit, hmax] at hfits
    omega
  · intro hle nBits _
    have hrate := (coinYearRate_between fTestNet v (setCompact nBits)).2
    have hfits : RewardFits fTestNet v nCoinAge nBits := by
      rw [rewardFits_iff fTestNet v _ hage]
      calc (nCoinAge : Int) * 33 * coinYearRate fTestNet v (setCompact nBits)
          ≤ nCoinAge * 33 * 1000000 := mul_le_mul_of_nonneg_left (hmax ▸ hrate) (by omega)
        _ < 2 ^ 63 := by omega
    exact ⟨hfits, reward_inRange fTestNet v nBits hage hfits⟩

/-! ## The coin age of a transaction -/

section CoinAge

variable (env : Env) (w : World) (db : CTxDB) (tx : CTransaction)

def valueOfInput (i : Nat) (txin : CTxIn) : Int :=
  match (db.readTxIndex txin.prevout.hash).bind (fun txindex =>
      w.readTx (.coinAgeTx (env.txHash tx) i) txindex.pos) with
  | none => 0
  | some txPrev => if txin.prevout.n ≥ txPrev.vout.length then 0
    else (txPrev.vout.getD txin.prevout.n default).nValue

def valuesFrom : Nat → List CTxIn → List Int
  | _, [] => []
  | i, txin :: rest => valueOfInput env w db tx i txin :: valuesFrom (i + 1) rest

/-- The inputs have values that are not negative and total at most `MAX_MONEY`, as
`ConnectInputs` makes sure. -/
def InputsInRange : Prop :=
  (∀ nValue ∈ valuesFrom env w db tx 0 tx.vin, 0 ≤ nValue) ∧
    (valuesFrom env w db tx 0 tx.vin).sum ≤ maxMoney

variable {env w db tx} {nBestHeight : Int}

theorem coinAgeOfInput_le (htime : tx.nTime < 2 ^ 32) {i : Nat} {txin : CTxIn} {age : Int}
    (h : coinAgeOfInput env w db nBestHeight tx i txin = some age)
    (hvalue : 0 ≤ valueOfInput env w db tx i txin) :
    0 ≤ age ∧ age * cent ≤ valueOfInput env w db tx i txin * 2 ^ 32 := by
  unfold coinAgeOfInput at h
  unfold valueOfInput at hvalue ⊢
  rcases hindex : db.readTxIndex txin.prevout.hash with _ | txindex
  · simp only [hindex, bind_none] at h
    cases h
    simp
  rcases hread : w.readTx (.coinAgeTx (env.txHash tx) i) txindex.pos with _ | txPrev
  · simp only [hindex, hread, bind_some, map_none] at h
    cases h
    simp [hread]
  simp only [hindex, hread, bind_some, map_some] at h hvalue ⊢
  split at h
  next hout =>
    cases h
    rw [if_pos hout]
    simp
  rename_i hin
  rw [if_neg hin] at hvalue ⊢
  split at h
  · cases h
  split at h
  · cases h
  split at h
  · cases h
    exact ⟨le_refl _, mul_nonneg hvalue (by decide)⟩
  cases h
  have hseconds : ((tx.nTime - txPrev.nTime : Nat) : Int) ≤ 2 ^ 32 := by omega
  have hproduct : 0 ≤ (txPrev.vout.getD txin.prevout.n default).nValue
      * ((tx.nTime - txPrev.nTime : Nat) : Int) := mul_nonneg hvalue (Int.natCast_nonneg _)
  have hle := mul_le_mul_of_nonneg_left hseconds hvalue
  have hcent : cent = 10000 := rfl
  rw [Int.tdiv_eq_ediv_of_nonneg hproduct, hcent]
  omega

theorem centSecondsFrom_le (htime : tx.nTime < 2 ^ 32) (vin : List CTxIn) (i : Nat) {total : Int}
    (h : centSecondsFrom env w db nBestHeight tx i vin = some total)
    (hvalues : (∀ nValue ∈ valuesFrom env w db tx i vin, 0 ≤ nValue)) :
    0 ≤ total ∧ total * cent ≤ (valuesFrom env w db tx i vin).sum * 2 ^ 32 := by
  induction vin generalizing i total with
  | nil =>
    cases h
    simp [valuesFrom]
  | cons txin rest ih =>
    simp only [centSecondsFrom, bind_eq_bind, bind_eq_some_iff] at h
    obtain ⟨_, hage, _, hages, heq⟩ := h
    cases heq
    obtain ⟨_, _⟩ := coinAgeOfInput_le htime hage (hvalues _ (by simp [valuesFrom]))
    obtain ⟨_, _⟩ := ih (i + 1) hages (fun nValue hin => hvalues _ (by simp [valuesFrom, hin]))
    refine ⟨by omega, ?_⟩
    rw [valuesFrom, List.sum_cons, add_mul]
    omega

theorem getCoinAge_lt (htime : tx.nTime < 2 ^ 32) (hinputs : InputsInRange env w db tx)
    {nCoinAge : Nat} (h : getCoinAge env w db nBestHeight tx = some nCoinAge) :
    nCoinAge < 2 ^ 63 := by
  unfold getCoinAge at h
  split at h
  · cases h
    decide
  obtain ⟨total, htotal, heq⟩ := map_eq_some_iff.mp h
  obtain ⟨_, hle⟩ := centSecondsFrom_le htime tx.vin 0 htotal hinputs.1
  have hmoney : (valuesFrom env w db tx 0 tx.vin).sum ≤ 120000000000000 := hinputs.2
  have hcent : cent = 10000 := rfl
  have hcoin : coin = 1000000 := rfl
  rw [hcent] at hle heq
  rw [hcoin, Int.tdiv_eq_ediv_of_nonneg (show 0 ≤ total * 10000 by omega),
    Int.tdiv_eq_ediv_of_nonneg (by omega)] at heq
  omega

/-- **When the reward stays in range.** For a transaction after version 1.5 and every target, no
operation of `GetProofOfStakeReward` overflows and the result lies between zero and 250 coins, if
and only if the coin age is at most `maxRewardCoinAge`. -/
theorem stakeReward_inRange_iff (env : Env) (w : World) (db : CTxDB) (nBestHeight : Int)
    (tx : CTransaction) (nCoinAge : Nat) (hinputs : InputsInRange env w db tx)
    (htime : tx.nTime < 2 ^ 32) (hswitch : tx.nTime > version1_5SwitchTime)
    (hage : getCoinAge env w db nBestHeight tx = some nCoinAge) :
    (∀ nBits < 2 ^ 32,
        RewardFits env.fTestNet (.ofTime env.fTestNet tx.nTime) nCoinAge nBits ∧
        0 ≤ getProofOfStakeReward env.fTestNet (int64 nCoinAge) nBits tx.nTime false ∧
        getProofOfStakeReward env.fTestNet (int64 nCoinAge) nBits tx.nTime false ≤ 250 * coin) ↔
      nCoinAge ≤ maxRewardCoinAge := by
  have hlt := getCoinAge_lt htime hinputs hage
  have hkeeps : int64 nCoinAge = nCoinAge := int64_of_inInt64 ⟨by omega, by omega⟩
  rw [← rewardFits_all_iff env.fTestNet (.ofTime env.fTestNet tx.nTime) nCoinAge, hkeeps]
  have hversion : ∀ nBits, getProofOfStakeReward env.fTestNet nCoinAge nBits tx.nTime false
      = (ofTime env.fTestNet tx.nTime).reward env.fTestNet nCoinAge nBits false := by
    intro nBits
    unfold getProofOfStakeReward ofTime
    by_cases hv3 : tx.nTime > version2_0SwitchTime env.fTestNet
    · rw [if_pos hv3, if_pos hv3]
      rfl
    · rw [if_neg hv3, if_neg hv3, if_pos hswitch]
      rfl
  simp only [hversion]
  rfl

end CoinAge

/-! ## Coins that are old enough

All the money there can be, in one output that stays where it is for the given number of days. -/

def hoardBlock : CBlock := sampleBlock 2 1 [sampleCoinbase 100 maxMoney]

def hoardWorld : World := sampleWorld [hoardBlock]

def hoardDb : CTxDB :=
  ⟨(∅ : Table DbVal).insert (.tx 100) ⟨⟨1, 2000, firstTxPos 2000 hoardBlock⟩, [default]⟩, none⟩

def hoardStake (days : Nat) : CTransaction where
  nVersion := 1
  nTime := sampleTime + days * 24 * 60 * 60
  vin := [⟨⟨100, 0⟩, [], uint32Max⟩]
  vout := [⟨0, []⟩, ⟨maxMoney, [0x51]⟩]
  nLockTime := 101

instance (env : Env) (w : World) (db : CTxDB) (tx : CTransaction) :
    Decidable (InputsInRange env w db tx) :=
  inferInstanceAs (Decidable ((∀ nValue ∈ _, _) ∧ _))

theorem stakeReward_inRange_sample :
    getCoinAge sampleEnv hoardWorld hoardDb 0 (hoardStake 1000) = some 120000000000 ∧
      ∀ nBits < 2 ^ 32,
        RewardFits false (.ofTime false (hoardStake 1000).nTime) (120000000000 : Nat) nBits ∧
        0 ≤ getProofOfStakeReward false (int64 (120000000000 : Nat)) nBits (hoardStake 1000).nTime
          false ∧
        getProofOfStakeReward false (int64 (120000000000 : Nat)) nBits (hoardStake 1000).nTime false
          ≤ 250 * coin :=
  ⟨by decide +kernel,
    (stakeReward_inRange_iff sampleEnv hoardWorld hoardDb 0 (hoardStake 1000) 120000000000
      (by decide +kernel) (by decide +kernel) (by decide +kernel) (by decide +kernel)).mpr
      (by decide)⟩

/-- After 2400 days the product has more than 63 bits at the easiest target, and the reward is
negative. -/
theorem stakeReward_overflows :
    InputsInRange sampleEnv hoardWorld hoardDb (hoardStake 2400) ∧
      (hoardStake 2400).nTime < 2 ^ 32 ∧ (hoardStake 2400).nTime > version1_5SwitchTime ∧
      getCoinAge sampleEnv hoardWorld hoardDb 0 (hoardStake 2400) = some 288000000000 ∧
      ¬ RewardFits false (.ofTime false (hoardStake 2400).nTime) 288000000000 0x1e00ffff ∧
      getProofOfStakeReward false (int64 288000000000) 0x1e00ffff (hoardStake 2400).nTime false
        < 0 := by
  decide +kernel

end HoboNickels

import HoboNickels.BigNum

/-!
# Block rewards

`GetProofOfWorkReward` and the three versions of `GetProofOfStakeReward`. The yearly rate is
found by bisecting between a lower bound and the limit of the rate, comparing powers against
the ratio of the targets; products in the subsidy are 64-bit.
-/

namespace HoboNickels

def getProofOfWorkReward : Int := maxMintProofOfWork

/-- The bisection shared by the versions. `power` is the exponent the loop compares with. -/
def bisectRate (bnTargetLimit bnTarget bnRewardLimit : Int) (power : Nat) :
    Nat → Int → Int → Int
  | 0, _, bnUpperBound => bnUpperBound
  | fuel + 1, bnLowerBound, bnUpperBound =>
    if bnLowerBound + cent ≤ bnUpperBound then
      let bnMidValue := (bnLowerBound + bnUpperBound).tdiv 2
      if bnMidValue ^ power * bnTargetLimit > bnRewardLimit ^ power * bnTarget then
        bisectRate bnTargetLimit bnTarget bnRewardLimit power fuel bnLowerBound bnMidValue
      else bisectRate bnTargetLimit bnTarget bnRewardLimit power fuel bnMidValue bnUpperBound
    else bnUpperBound

variable (fTestNet : Bool)

variable (lower : Int) (power : Nat) (nCoinAge : Int) (nBits : Nat) (bCoinYearOnly : Bool)

/-- The yearly rate for the target in `nBits`, before it is cut to whole cents. -/
def rewardCoinYear (lower limit : Int) (power : Nat) : Int :=
  bisectRate (setCompact (getCompact (bnProofOfStakeLimit fTestNet))) (setCompact nBits) limit
    power 64 lower limit

/-- `nCoinAge * 33 * nRewardCoinYear / (365 * 33 + 8)` in 64 bits. -/
def stakeSubsidy (nCoinAge nRewardCoinYear : Int) : Int :=
  (int64 (int64 (nCoinAge * 33) * nRewardCoinYear)).tdiv (365 * 33 + 8)

def nSubsidyLimit : Int := 250 * coin

def getProofOfStakeRewardV1 (nBits nTime : Nat) (bCoinYearOnly : Bool) : Int :=
  let nRewardCoinYear :=
    if fTestNet || decide (nTime > protocolSwitchTime) then
      let limit :=
        if fTestNet || decide (nTime > posRewardFixTime2) then maxMintProofOfStakeFix2
        else if decide (nTime > posRewardFixTime) then maxMintProofOfStakeFix
        else maxMintProofOfStake
      let rate := rewardCoinYear fTestNet nBits (10 * cent) limit 4
      if nTime > posRewardSwitchTime then min rate limit
      else min (rate.tdiv cent * cent) limit
    else 150
  if bCoinYearOnly then nRewardCoinYear
  else if nTime > posRewardSwitchTime then stakeSubsidy nCoinAge nRewardCoinYear
  else int64 ((int64 (nCoinAge * 33)).tdiv (365 * 33 + 8) * nRewardCoinYear)

/-- Versions 2 and 3 differ in the lower bound and in the exponent. -/
def cappedStakeReward : Int :=
  let rate := rewardCoinYear fTestNet nBits lower maxMintProofOfStakeFix2 power
  let nRewardCoinYear := min (rate.tdiv cent * cent) maxMintProofOfStakeFix2
  if bCoinYearOnly then nRewardCoinYear
  else min (stakeSubsidy nCoinAge nRewardCoinYear) nSubsidyLimit

def getProofOfStakeRewardV2 : Int :=
  cappedStakeReward fTestNet (10 * cent) 4 nCoinAge nBits bCoinYearOnly

def getProofOfStakeRewardV3 : Int :=
  cappedStakeReward fTestNet (20 * cent) 6 nCoinAge nBits bCoinYearOnly

def getProofOfStakeReward (nBits nTime : Nat) (bCoinYearOnly : Bool) : Int :=
  if nTime > version2_0SwitchTime fTestNet then
    getProofOfStakeRewardV3 fTestNet nCoinAge nBits bCoinYearOnly
  else if nTime > version1_5SwitchTime then
    getProofOfStakeRewardV2 fTestNet nCoinAge nBits bCoinYearOnly
  else getProofOfStakeRewardV1 fTestNet nCoinAge nBits nTime bCoinYearOnly

/-- The rounds are enough: once the interval is narrower than a cent the loop ends. -/
theorem bisectRate_fuel (bnTargetLimit bnTarget bnRewardLimit : Int) (power : Nat) (fuel : Nat)
    (lower upper : Int) (hlower : 0 ≤ lower) (hwidth : upper - lower ≤ (cent - 1) * 2 ^ fuel) :
    bisectRate bnTargetLimit bnTarget bnRewardLimit power (fuel + 1) lower upper =
      bisectRate bnTargetLimit bnTarget bnRewardLimit power fuel lower upper := by
  induction fuel generalizing lower upper with
  | zero => exact if_neg (by omega)
  | succ fuel ih =>
    by_cases hmore : lower + cent ≤ upper
    · have hcent : cent = 10000 := rfl
      have hmid : (lower + upper).tdiv 2 = (lower + upper) / 2 :=
        Int.tdiv_eq_ediv_of_nonneg (by omega)
      have hpow : (cent - 1) * 2 ^ (fuel + 1) = 2 * ((cent - 1) * 2 ^ fuel) := by ring
      have hleft := ih lower ((lower + upper) / 2) hlower (by omega)
      have hright := ih ((lower + upper) / 2) upper (by omega) (by omega)
      rw [bisectRate, if_pos hmore, bisectRate, if_pos hmore]
      simp only [hmid]
      rw [hleft, hright]
    · rw [bisectRate, if_neg hmore, bisectRate, if_neg hmore]

end HoboNickels

import Mathlib

/-!
# Consensus parameters

The constants of `main.h` and `main.cpp`, for the main and the test network, as the values the C++
constants have after conversion: `nTargetTimespan`, written `0.16 * 24 * 60 * 60`, is the truncation
of the double product. Signed 64-bit results are wrapped by `int64` wherever they can leave the
range.
-/

namespace HoboNickels

def int64 (x : Int) : Int := Int.bmod x (2 ^ 64)

theorem int64_of_range {x : Int} (hlo : -2 ^ 63 ≤ x) (hhi : x < 2 ^ 63) : int64 x = x := by
  rw [int64, Int.bmod_def]
  omega

def uint32 (x : Int) : Nat := (x % 2 ^ 32).toNat

/-- The value of an unsigned 32-bit variable that holds `-1`. -/
def uint32Max : Nat := 2 ^ 32 - 1

def coin : Int := 1000000
def cent : Int := 10000

def maxMoney : Int := 120000000 * coin
def minTxFee : Int := 1000
def minTxoutAmount : Int := minTxFee

def maxMintProofOfWork : Int := 5 * coin
def maxMintProofOfStake : Int := 10 * cent
def maxMintProofOfStakeFix : Int := 1000 * cent
def maxMintProofOfStakeFix2 : Int := 100 * cent

def moneyRange (nValue : Int) : Bool := decide (0 ≤ nValue) && decide (nValue ≤ maxMoney)

theorem moneyRange_iff {v : Int} : moneyRange v = true ↔ 0 ≤ v ∧ v ≤ maxMoney := by
  simp [moneyRange]

def maxBlockSize : Nat := 1000000
def maxBlockSizeGen : Nat := maxBlockSize / 2
def maxBlockSigops : Nat := maxBlockSize / 50
def lockTimeThreshold : Nat := 500000000

def protocolSwitchTime : Nat := 1371686400
def rewardSwitchTime : Nat := 1369432800
def posRewardSwitchTime : Nat := 1378684800
def posRewardFixTime : Nat := 1383177600
def posRewardFixTime2 : Nat := 1383606000
def version1_5SwitchTime : Nat := 1421489410
def version1_5SwitchBlock : Nat := 1600000

variable (fTestNet : Bool)

def version2_0SwitchTime : Nat := if fTestNet then 1505002972 else 1505509200
def spacingTargetSwitch : Nat := if fTestNet then 6390 else 5667000
def powLimitHeight : Nat := if fTestNet then 4500 else 5600000
def powStopHeight : Nat := if fTestNet then 4600 else 6000000
def powTimeLimit : Nat := if fTestNet then 60 else 60 * 10

def nCoinbaseMaturity : Nat := if fTestNet then 10 else 5
def nStakeMaxAge : Nat := 60 * 60 * 24 * 30
def nModifierInterval : Nat := if fTestNet then 60 * 20 else 6 * 60 * 60

def uint256Max : Nat := 2 ^ 256 - 1

def bnProofOfWorkLimit : Nat := uint256Max / 2 ^ (if fTestNet then 16 else 20)
def bnProofOfStakeLimit : Nat := uint256Max / 2 ^ (if fTestNet then 20 else 24)
def bnProofOfStakeHardLimit : Nat := uint256Max / 2 ^ 30

def nTargetTimespan : Int := 13823

def pastDrift (nTime : Int) : Int :=
  if nTime > version1_5SwitchTime then nTime - 5 * 60 else nTime - 2 * 60 * 60

def futureDrift (nTime : Int) : Int :=
  if nTime > version1_5SwitchTime then nTime + 5 * 60 else nTime + 2 * 60 * 60

end HoboNickels

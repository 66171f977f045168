import HoboNickels.Retarget
import HoboNickels.Lib.Fallible

/-!
# What a block header owes its ancestors

The checks of `AcceptBlock` that compare a block's time and `nBits` with the chain it extends. The
best height that `GetTargetSpacing` reads is that of the accepting node, so `ExtendsBy` allows any.
-/

namespace HoboNickels

open Fallible

/-- The checks of `AcceptBlock` on the time and the target of a block whose parent has the
ancestry `chain`. -/
def checkHeaderContext (fTestNet : Bool) (nBestHeight : Int) (chain : List CBlockIndex)
    (nTime nBits : Nat) (fProofOfStake : Bool) : Except Fail Unit :=
  match chain with
  | [] => .error (.reject 10 "AcceptBlock() : prev block not found")
  | pindexPrev :: _ => do
    let nHeight := pindexPrev.nHeight + 1
    let tooSoon := decide ((nTime : Int) - futureDrift pindexPrev.getBlockTime
      < powTimeLimit fTestNet)
    -- proof-of-work is kept for emergencies
    require (!(!fProofOfStake && decide (nHeight > powStopHeight fTestNet) && tooSoon))
      (.reject 10 "AcceptBlock() : PoW is only allowed after 10 mins of no block found")
    -- no run of proof-of-work blocks
    require (!(!fProofOfStake && decide (nHeight > powLimitHeight fTestNet)
        && pindexPrev.isProofOfWork && tooSoon))
      (.reject 10 "AcceptBlock() : PoW must come afer PoS only or after 10 mins")
    require (nBits == nextTargetRequired fTestNet (getTargetSpacing fTestNet nBestHeight) chain
        fProofOfStake)
      (.reject 100 (if fProofOfStake then "AcceptBlock() : incorrect proof-of-stake"
        else "AcceptBlock() : incorrect proof-of-work"))
    require (!(decide ((nTime : Int) ≤ getMedianTimePast chain)
        || decide (futureDrift nTime < pindexPrev.getBlockTime)))
      (.reject 0 "AcceptBlock() : block's timestamp is too early")

theorem checkHeaderContext_nBits {t : Bool} {nBestHeight : Int} {chain : List CBlockIndex}
    {nTime nBits : Nat} {f : Bool}
    (h : checkHeaderContext t nBestHeight chain nTime nBits f = .ok ()) :
    chain ≠ [] ∧ nBits = nextTargetRequired t (getTargetSpacing t nBestHeight) chain f := by
  cases chain with
  | nil => cases h
  | cons prev rest =>
    obtain ⟨_, -, h⟩ := bind_eq_ok.mp h
    obtain ⟨_, -, h⟩ := bind_eq_ok.mp h
    obtain ⟨_, hbits, -⟩ := bind_eq_ok.mp h
    exact ⟨by simp, by simpa using hbits⟩

theorem checkHeaderContext_low {t : Bool} {nBestHeight : Int} {prev : CBlockIndex}
    {rest : List CBlockIndex} {nTime : Nat} {f : Bool} (hlow : prev.nHeight + 1 ≤ 4500)
    (hmedian : getMedianTimePast (prev :: rest) < nTime)
    (hdrift : prev.getBlockTime ≤ futureDrift nTime) :
    checkHeaderContext t nBestHeight (prev :: rest) nTime
      (nextTargetRequired t (getTargetSpacing t nBestHeight) (prev :: rest) f) f = .ok () := by
  have hstop : decide (prev.nHeight + 1 > powStopHeight t) = false := by
    have : 4500 ≤ powStopHeight t := by cases t <;> decide
    exact decide_eq_false (by omega)
  have hflash : decide (prev.nHeight + 1 > powLimitHeight t) = false := by
    have : 4500 ≤ powLimitHeight t := by cases t <;> decide
    exact decide_eq_false (by omega)
  have hearly : decide ((nTime : Int) ≤ getMedianTimePast (prev :: rest)) = false :=
    decide_eq_false (not_le.mpr hmedian)
  have hlate : decide (futureDrift nTime < prev.getBlockTime) = false :=
    decide_eq_false (not_lt.mpr hdrift)
  simp only [checkHeaderContext, hstop, hflash, hearly, hlate, beq_self_eq_true]
  simp only [Bool.and_false, Bool.false_and, Bool.or_false, Bool.not_false, require_true]
  rfl

/-- `b` may follow the chain: it sits one level above its head and some node accepts its time
and target. -/
def CanFollow (fTestNet : Bool) (b : CBlockIndex) (chain : List CBlockIndex) : Prop :=
  (∃ prev rest, chain = prev :: rest ∧ b.nHeight = prev.nHeight + 1) ∧
    ∃ nBestHeight : Nat, checkHeaderContext fTestNet nBestHeight chain b.nTime b.nBits
      b.isProofOfStake = .ok ()

inductive ExtendsBy (fTestNet : Bool) (base : List CBlockIndex) : List CBlockIndex → Prop
  | refl : ExtendsBy fTestNet base base
  | step {b : CBlockIndex} {chain : List CBlockIndex} :
      ExtendsBy fTestNet base chain → CanFollow fTestNet b chain →
      ExtendsBy fTestNet base (b :: chain)

def lastTwo (fProofOfStake : Bool) (chain : List CBlockIndex) :
    Option (CBlockIndex × CBlockIndex) :=
  match getLastBlockIndex fProofOfStake chain with
  | pindexPrev :: pprev :: rest =>
    match getLastBlockIndex fProofOfStake (pprev :: rest) with
    | pindexPrevPrev :: _ :: _ => some (pindexPrev, pindexPrevPrev)
    | _ => none
  | _ => none

def limitAfter (fTestNet fProofOfStake : Bool) (chain : List CBlockIndex) : Nat :=
  match chain with
  | [] => targetLimit fTestNet fProofOfStake
  | pindexLast :: _ =>
    if pindexLast.nHeight + 1 > version1_5SwitchBlock then targetLimit fTestNet fProofOfStake
    else targetLimitV1 fTestNet fProofOfStake (pindexLast.nHeight + 1)

theorem nextTargetRequired_eq (t : Bool) (S : Int) (f : Bool) (last : CBlockIndex)
    (rest : List CBlockIndex) :
    nextTargetRequired t S (last :: rest) f =
      match lastTwo f (last :: rest) with
      | none => getCompact (limitAfter t f (last :: rest))
      | some (pindexPrev, pindexPrevPrev) =>
        let nTargetSpacing := kindTargetSpacing S f last pindexPrev
        let nActualSpacing := pindexPrev.getBlockTime - pindexPrevPrev.getBlockTime
        retarget (limitAfter t f (last :: rest)) pindexPrev.nBits nTargetSpacing
          (if last.nHeight + 1 > version1_5SwitchBlock ∧ nActualSpacing < 0 then nTargetSpacing
           else nActualSpacing) := by
  unfold nextTargetRequired limitAfter lastTwo
  dsimp only
  split
  on_goal 1 =>
    rename_i hv2
    unfold getNextTargetRequiredV2
    simp only [hv2, true_and]
  on_goal 2 =>
    rename_i hv1
    unfold getNextTargetRequiredV1
    simp only [hv1, false_and, if_false]
  all_goals
    rcases getLastBlockIndex f (last :: rest) with _ | ⟨_, _ | ⟨pprev, more⟩⟩
    · rfl
    · rfl
    dsimp only
    rcases getLastBlockIndex f (pprev :: more) with _ | ⟨_, _ | ⟨q, _⟩⟩
    · rfl
    · rfl
    · rfl

theorem limitAfter_le (t f : Bool) (chain : List CBlockIndex) :
    limitAfter t f chain ≤ targetLimit t f := by
  fun_cases limitAfter with
  | case3 =>
    unfold targetLimitV1
    split
    next hhard =>
      -- the harder limit is that of stakes on the main network
      cases t <;> cases f <;> simp at hhard
      decide +kernel
    · exact le_rfl
  | _ => exact le_rfl

theorem nextTargetRequired_eq_getCompact (t : Bool) (S : Int) (chain : List CBlockIndex)
    (f : Bool) :
    ∃ x : Int, nextTargetRequired t S chain f = getCompact x ∧ x ≤ targetLimit t f := by
  cases chain with
  | nil => exact ⟨_, rfl, le_rfl⟩
  | cons last tail =>
    have hlimit : (limitAfter t f (last :: tail) : Int) ≤ targetLimit t f :=
      Int.ofNat_le.mpr (limitAfter_le t f _)
    have hretarget (nBits : Nat) (T A : Int) : ∃ x : Int,
        retarget (limitAfter t f (last :: tail)) nBits T A = getCompact x ∧
          x ≤ targetLimit t f := by
      refine ⟨_, rfl, ?_⟩
      split
      · exact hlimit
      next hle => exact (not_lt.mp hle).trans hlimit
    rw [nextTargetRequired_eq]
    split
    · exact ⟨_, rfl, hlimit⟩
    · exact hretarget _ _ _

end HoboNickels

import HoboNickels.BigNum
import HoboNickels.ChainState

/-!
# Retargeting

`GetTargetSpacing` and `GetNextTargetRequired` with its two versions. The next target of a kind is
computed from the last two blocks of that kind and from the spacing, which depends on the height of
the node's *best* block. All nodes with two given best heights compute the same target for every
shared ancestry exactly when both lie on the same side of the spacing switch
(`getNextTargetRequired_agree_iff`).
-/

namespace HoboNickels

open CBlockIndex

variable (fTestNet : Bool)

section

variable (nTargetStakeSpacing : Int) (chain : List CBlockIndex) (fProofOfStake : Bool)

/-- The test on `nBestHeight` that `GetTargetSpacing` and `GetStakeMinAge` make. -/
def afterSpacingSwitch (nBestHeight : Int) : Bool :=
  decide (nBestHeight + 1 > spacingTargetSwitch fTestNet)

def getTargetSpacing (nBestHeight : Int) : Int :=
  if afterSpacingSwitch fTestNet nBestHeight then 126 else if fTestNet then 60 else 30

def getStakeMinAge (nBestHeight : Int) : Nat :=
  if afterSpacingSwitch fTestNet nBestHeight then 60 * 60 * 24
  else if fTestNet then 2 * 60 * 60 else 60 * 60 * 24 * 10

/-- The exponential move toward the target spacing that both versions end with. `CBigNum`
division truncates toward zero. -/
def retarget (bnTargetLimit : Nat) (nBits : Nat) (nTargetSpacing nActualSpacing : Int) : Nat :=
  let nInterval := nTargetTimespan.tdiv nTargetSpacing
  let bnNew := (setCompact nBits
      * ((nInterval - 1) * nTargetSpacing + nActualSpacing + nActualSpacing)).tdiv
    ((nInterval + 1) * nTargetSpacing)
  getCompact (if bnNew > bnTargetLimit then (bnTargetLimit : Int) else bnNew)

/-- The spacing a kind of block aims at; for proof-of-work it grows with the number of other
blocks since the last one. -/
def kindTargetSpacing (pindexLast pindexPrev : CBlockIndex) : Int :=
  if fProofOfStake then nTargetStakeSpacing
  else min (12 * nTargetStakeSpacing)
    (nTargetStakeSpacing * (1 + pindexLast.nHeight - pindexPrev.nHeight))

def targetLimit : Nat :=
  if fProofOfStake then bnProofOfStakeLimit fTestNet else bnProofOfWorkLimit fTestNet

/-- On the main network proof-of-stake had a harder limit between heights 14060 and 15000. -/
def targetLimitV1 (nHeight : Nat) : Nat :=
  if fProofOfStake && !fTestNet && decide (nHeight ≤ 15000) && decide (nHeight > 14060) then
    bnProofOfStakeHardLimit
  else targetLimit fTestNet fProofOfStake

def getNextTargetRequiredV1 : Nat :=
  match chain with
  | [] => getCompact (targetLimit fTestNet fProofOfStake)
  | pindexLast :: _ =>
    let bnTargetLimit := targetLimitV1 fTestNet fProofOfStake (pindexLast.nHeight + 1)
    match getLastBlockIndex fProofOfStake chain with
    | pindexPrev :: pprev :: rest =>
      match getLastBlockIndex fProofOfStake (pprev :: rest) with
      | pindexPrevPrev :: _ :: _ =>
        retarget bnTargetLimit pindexPrev.nBits
          (kindTargetSpacing nTargetStakeSpacing fProofOfStake pindexLast pindexPrev)
          (pindexPrev.getBlockTime - pindexPrevPrev.getBlockTime)
      | _ => getCompact bnTargetLimit -- second block
    | _ => getCompact bnTargetLimit -- first block

def getNextTargetRequiredV2 : Nat :=
  let bnTargetLimit := targetLimit fTestNet fProofOfStake
  match chain with
  | [] => getCompact bnTargetLimit
  | pindexLast :: _ =>
    match getLastBlockIndex fProofOfStake chain with
    | pindexPrev :: pprev :: rest =>
      match getLastBlockIndex fProofOfStake (pprev :: rest) with
      | pindexPrevPrev :: _ :: _ =>
        let nTargetSpacing :=
          kindTargetSpacing nTargetStakeSpacing fProofOfStake pindexLast pindexPrev
        let nActualSpacing := pindexPrev.getBlockTime - pindexPrevPrev.getBlockTime
        retarget bnTargetLimit pindexPrev.nBits nTargetSpacing
          (if nActualSpacing < 0 then nTargetSpacing else nActualSpacing)
      | _ => getCompact bnTargetLimit
    | _ => getCompact bnTargetLimit

/-- `GetNextTargetRequired` on the ancestry of `pindexLast`. -/
def nextTargetRequired : Nat :=
  match chain with
  | [] => getNextTargetRequiredV1 fTestNet nTargetStakeSpacing chain fProofOfStake
  | pindexLast :: _ =>
    if pindexLast.nHeight + 1 > version1_5SwitchBlock then
      getNextTargetRequiredV2 fTestNet nTargetStakeSpacing chain fProofOfStake
    else getNextTargetRequiredV1 fTestNet nTargetStakeSpacing chain fProofOfStake

end

namespace ChainState

def getNextTargetRequired (fTestNet : Bool) (s : ChainState) (pindexLast : Uint256)
    (fProofOfStake : Bool) : Nat :=
  nextTargetRequired fTestNet (getTargetSpacing fTestNet s.nBestHeight)
    (s.mapBlockIndex.chainOf pindexLast) fProofOfStake

/-- Both states hold the block `p`, with the same ancestors; where each node stores them on
its disk does not matter. -/
def SameAncestry (s₁ s₂ : ChainState) (p : Uint256) : Prop :=
  s₁.mapBlockIndex.chainOf p ≠ [] ∧
    (s₁.mapBlockIndex.chainOf p).map withoutDiskPos
      = (s₂.mapBlockIndex.chainOf p).map withoutDiskPos

end ChainState

/-! ## Disk positions do not matter -/

variable (t : Bool) (S : Int) (chain : List CBlockIndex) (f : Bool)

theorem getLastBlockIndex_map (chain : List CBlockIndex) :
    getLastBlockIndex f (chain.map withoutDiskPos)
      = (getLastBlockIndex f chain).map withoutDiskPos := by
  induction chain with
  | nil => rfl
  | cons b rest ih =>
    cases rest with
    | nil => rfl
    | cons p rest =>
      simp only [List.map_cons] at ih ⊢
      rw [getLastBlockIndex, getLastBlockIndex]
      have hkind : b.withoutDiskPos.isProofOfStake = b.isProofOfStake := rfl
      rw [hkind]
      split
      · exact ih
      · rfl

theorem getNextTargetRequired_map :
    getNextTargetRequiredV1 t S (chain.map withoutDiskPos) f
        = getNextTargetRequiredV1 t S chain f ∧
      getNextTargetRequiredV2 t S (chain.map withoutDiskPos) f
        = getNextTargetRequiredV2 t S chain f := by
  cases chain with
  | nil => exact ⟨rfl, rfl⟩
  | cons last tail =>
    have hlast := getLastBlockIndex_map f (last :: tail)
    simp only [getNextTargetRequiredV1, getNextTargetRequiredV2, hlast]
    rcases getLastBlockIndex f (last :: tail) with _ | ⟨_, _ | ⟨pprev, rest⟩⟩
    · exact ⟨rfl, rfl⟩
    · exact ⟨rfl, rfl⟩
    have hprev := getLastBlockIndex_map f (pprev :: rest)
    rw [List.map_cons] at hprev
    simp only [List.map_cons, hprev]
    rcases getLastBlockIndex f (pprev :: rest) with _ | ⟨_, _ | ⟨q, _⟩⟩
    · exact ⟨rfl, rfl⟩
    · exact ⟨rfl, rfl⟩
    · exact ⟨rfl, rfl⟩

theorem nextTargetRequired_map :
    nextTargetRequired t S (chain.map withoutDiskPos) f
      = nextTargetRequired t S chain f := by
  cases chain with
  | nil => rfl
  | cons last tail =>
    obtain ⟨h1, h2⟩ := getNextTargetRequired_map t S (last :: tail) f
    rw [List.map_cons] at h1 h2 ⊢
    rw [nextTargetRequired, h1, h2]
    rfl

/-! ## A node whose blocks form one line

Block `k` of the line is the proof-of-work block at height `k`, one minute after its parent and
at the proof-of-work limit. `lineState` is a node that holds the line up to its best block at
height `h` (and at least up to height 3). -/

def lineEntry (fTestNet : Bool) (k : Nat) : CBlockIndex where
  hashBlock := k
  pprev := if k = 0 then none else some (k - 1)
  nFile := 1
  nBlockPos := 8 + 1000 * k
  nChainTrust := k + 1
  nHeight := k
  nFlags := 0
  nStakeModifier := 0
  nStakeModifierChecksum := 0
  prevoutStake := COutPoint.null
  nStakeTime := 0
  hashProofOfStake := 0
  nVersion := 4
  hashMerkleRoot := k
  nTime := 1374635824 + 60 * k
  nBits := getCompact (bnProofOfWorkLimit fTestNet)
  nNonce := 0

def lineState (fTestNet : Bool) (h : Nat) : ChainState :=
  { ChainState.initial with
    mapBlockIndex := fun k => if k ≤ max h 3 then some (lineEntry fTestNet k) else none
    pnext := fun k => if k < h then some (k + 1) else none
    pindexGenesisBlock := some 0
    pindexBest := some h
    hashBestChain := h
    nBestHeight := h
    nBestChainTrust := h + 1 }

theorem lineState_index {t : Bool} {h k : Nat} (hk : k ≤ max h 3) :
    (lineState t h).mapBlockIndex k = some (lineEntry t k) :=
  if_pos hk

theorem lineState_wellFormed (h : Nat) : (lineState t h).WellFormed := by
  have hinv : ∀ {k b}, (lineState t h).mapBlockIndex k = some b →
      k ≤ max h 3 ∧ b = lineEntry t k := by
    intro k b hb
    by_cases hk : k ≤ max h 3
    · rw [lineState_index hk] at hb
      exact ⟨hk, (Option.some.inj hb).symm⟩
    · simp only [lineState, if_neg hk] at hb
      cases hb
  refine ⟨⟨?_, ?_, ?_⟩, h, lineEntry t h, rfl, lineState_index (le_max_left _ _), rfl⟩
  · intro k b hb
    rw [(hinv hb).2]
    rfl
  · intro k b p hb hp
    obtain ⟨hk, rfl⟩ := hinv hb
    simp only [lineEntry] at hp
    split at hp
    · cases hp
    cases hp
    refine ⟨lineEntry t (k - 1), lineState_index ((Nat.sub_le k 1).trans hk), ?_⟩
    simp only [lineEntry]
    omega
  · intro k b hb hp
    obtain ⟨-, rfl⟩ := hinv hb
    simp only [lineEntry] at hp ⊢
    by_contra hk
    rw [if_neg hk] at hp
    cases hp

theorem lineState_chainOf (h : Nat) :
    (lineState t h).mapBlockIndex.chainOf 3
      = [lineEntry t 3, lineEntry t 2, lineEntry t 1, lineEntry t 0] := by
  have wf := (lineState_wellFormed t h).index
  have hidx : ∀ k, k ≤ 3 → (lineState t h).mapBlockIndex k = some (lineEntry t k) :=
    fun k hk => lineState_index (le_max_of_le_right hk)
  rw [BlockMap.chainOf_pprev wf (hidx 3 (by decide)) rfl,
    BlockMap.chainOf_pprev wf (hidx 2 (by decide)) rfl,
    BlockMap.chainOf_pprev wf (hidx 1 (by decide)) (p := 0) rfl,
    BlockMap.chainOf_root wf (hidx 0 (by decide)) rfl]

theorem lineState_sameAncestry (h1 h2 : Nat) :
    (lineState t h1).SameAncestry (lineState t h2) 3 := by
  constructor
  · rw [lineState_chainOf]
    simp
  · rw [lineState_chainOf, lineState_chainOf]

theorem lineState_spacing_matters :
    nextTargetRequired t 126
        [lineEntry t 3, lineEntry t 2, lineEntry t 1, lineEntry t 0] false
      ≠ nextTargetRequired t (if t then 60 else 30)
        [lineEntry t 3, lineEntry t 2, lineEntry t 1, lineEntry t 0] false := by
  cases t <;> decide +kernel

/-- **When retargeting is a function of the chain.** Nodes with best heights `h₁` and `h₂` compute
the same `nBits` for every shared `pindexLast` and both kinds of proof, if and only if the heights
are on the same side of the spacing switch. -/
theorem getNextTargetRequired_agree_iff (fTestNet : Bool) (h₁ h₂ : Nat) :
    (∀ (s₁ s₂ : ChainState) (pindexLast : Uint256) (fProofOfStake : Bool),
        s₁.WellFormed → s₂.WellFormed → s₁.nBestHeight = h₁ → s₂.nBestHeight = h₂ →
        s₁.SameAncestry s₂ pindexLast →
        s₁.getNextTargetRequired fTestNet pindexLast fProofOfStake
          = s₂.getNextTargetRequired fTestNet pindexLast fProofOfStake)
      ↔ afterSpacingSwitch fTestNet h₁ = afterSpacingSwitch fTestNet h₂ := by
  constructor
  · intro hagree
    have hline := hagree (lineState fTestNet h₁) (lineState fTestNet h₂) 3 false
      (lineState_wellFormed _ _) (lineState_wellFormed _ _) rfl rfl
      (lineState_sameAncestry _ _ _)
    simp only [ChainState.getNextTargetRequired, lineState_chainOf] at hline
    change nextTargetRequired fTestNet (getTargetSpacing fTestNet h₁) _ false
      = nextTargetRequired fTestNet (getTargetSpacing fTestNet h₂) _ false at hline
    -- if one height is past the switch and the other is not, the line tells them apart
    unfold getTargetSpacing at hline
    have hdiff := lineState_spacing_matters fTestNet
    cases hs1 : afterSpacingSwitch fTestNet h₁ <;> cases hs2 : afterSpacingSwitch fTestNet h₂
    · rfl
    · rw [hs1, hs2] at hline
      exact absurd hline.symm hdiff
    · rw [hs1, hs2] at hline
      exact absurd hline hdiff
    · rfl
  · intro hside s₁ s₂ p f _ _ hh1 hh2 hsame
    have hspacing : getTargetSpacing fTestNet s₁.nBestHeight =
        getTargetSpacing fTestNet s₂.nBestHeight := by
      rw [hh1, hh2, getTargetSpacing, getTargetSpacing, hside]
    unfold ChainState.getNextTargetRequired
    rw [← nextTargetRequired_map fTestNet _ (s₁.mapBlockIndex.chainOf p), hsame.2, hspacing,
      nextTargetRequired_map]

/-- Two nodes one block apart, at the switch, require different proof-of-work for the same
block at height 4. -/
theorem getNextTargetRequired_at_switch :
    (lineState false 5666999).WellFormed ∧ (lineState false 5667000).WellFormed ∧
      (lineState false 5666999).SameAncestry (lineState false 5667000) 3 ∧
      (lineState false 5666999).getNextTargetRequired false 3 false
        ≠ (lineState false 5667000).getNextTargetRequired false 3 false := by
  refine ⟨lineState_wellFormed _ _, lineState_wellFormed _ _, lineState_sameAncestry _ _ _, ?_⟩
  exact (lineState_spacing_matters false).symm

end HoboNickels

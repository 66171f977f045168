import HoboNickels.Retarget

/-!
# The stake kernel

`CheckStakeKernelHash`. The stake modifier of a coin is the one in force about a selection interval
after the coin's block; `GetKernelStakeModifier` finds it by walking `pnext`, that is along the main
chain of the node. So the verdict is not a function of the ancestry of the staked block alone
(`checkStakeKernelHash_fork`), but of the blocks the walk visits and of the side of the spacing
switch the node is on (`checkStakeKernelHash_agree`).
-/

namespace HoboNickels

open ChainState CBlockIndex

section

variable (c : Crypto) (fTestNet : Bool) (s : ChainState) (nBits : Nat) (k : StakeKernel)

def modifierIntervalRatio : Nat := 3

def getStakeModifierSelectionIntervalSection (nSection : Nat) : Nat :=
  nModifierInterval fTestNet * 63 / (63 + (63 - nSection) * (modifierIntervalRatio - 1))

def getStakeModifierSelectionInterval : Nat :=
  ((List.range 64).map (getStakeModifierSelectionIntervalSection fTestNet)).sum

/-- The blocks that `pnext` leads to from `h`, at most `fuel` of them. -/
def ChainState.followNext (s : ChainState) : Nat → Uint256 → List CBlockIndex
  | 0, _ => []
  | fuel + 1, h =>
    match (s.pnext h).bind s.mapBlockIndex with
    | none => []
    | some b => b :: followNext s fuel b.hashBlock

/-- The main chain above an entry. There are as many blocks as levels up to the best block. -/
def ChainState.mainChainAfter (b : CBlockIndex) : List CBlockIndex :=
  s.followNext (s.nBestHeight - b.nHeight).toNat b.hashBlock

/-- The loop of `GetKernelStakeModifier`; `none` when the main chain ends before a modifier is old
enough. -/
def kernelWalk (nStakeModifierTime nLimit : Int) (pindex : CBlockIndex) :
    List CBlockIndex → Option Nat
  | [] => if nStakeModifierTime < nLimit then none else some pindex.nStakeModifier
  | next :: rest =>
    if nStakeModifierTime < nLimit then
      kernelWalk (if next.generatedStakeModifier then next.getBlockTime else nStakeModifierTime)
        nLimit next rest
    else some pindex.nStakeModifier

def ChainState.getKernelStakeModifier (hashBlockFrom : Uint256) : Option Nat :=
  match s.mapBlockIndex hashBlockFrom with
  | none => none
  | some pindexFrom =>
    kernelWalk pindexFrom.getBlockTime
      (pindexFrom.getBlockTime + getStakeModifierSelectionInterval fTestNet) pindexFrom
      (s.mainChainAfter pindexFrom)

def getWeight (nBestHeight : Int) (nIntervalBeginning nIntervalEnd : Int) : Int :=
  if nIntervalEnd > version1_5SwitchTime then
    min (nIntervalEnd - nIntervalBeginning - getStakeMinAge fTestNet nBestHeight) nStakeMaxAge
  else
    min (nIntervalEnd - nIntervalBeginning) nStakeMaxAge - getStakeMinAge fTestNet nBestHeight

/-- The header of the block the coin comes from, its transaction and the offset there, the output,
and the time of the coinstake. -/
structure StakeKernel where
  blockFrom : CBlockHeader
  nTxPrevOffset : Nat
  txPrev : CTransaction
  prevout : COutPoint
  nTimeTx : Nat

structure KernelResult where
  fValid : Bool
  hashProofOfStake : Uint256
  targetProofOfStake : Uint256
  deriving DecidableEq, Repr

def ChainState.checkStakeKernelHash : KernelResult :=
  if k.nTimeTx < k.txPrev.nTime then ⟨false, 0, 0⟩
  -- the sum is taken in 32 bits
  else if uint32 (k.blockFrom.nTime + getStakeMinAge fTestNet s.nBestHeight : Nat) > k.nTimeTx then
    ⟨false, 0, 0⟩
  else
    let nValueIn := (k.txPrev.vout.getD k.prevout.n default).nValue
    let bnCoinDayWeight := ((nValueIn
      * getWeight fTestNet s.nBestHeight k.txPrev.nTime k.nTimeTx).tdiv coin).tdiv (24 * 60 * 60)
    let bnTarget := bnCoinDayWeight * setCompact nBits
    let targetProofOfStake := bnTarget.natAbs % 2 ^ 256
    match s.getKernelStakeModifier fTestNet (c.scryptBlockhash k.blockFrom) with
    | none => ⟨false, 0, targetProofOfStake⟩
    | some nStakeModifier =>
      let hashProofOfStake := c.hashKernel nStakeModifier k.blockFrom.nTime k.nTxPrevOffset
        k.txPrev.nTime k.prevout.n k.nTimeTx
      ⟨decide ((hashProofOfStake : Int) ≤ bnTarget), hashProofOfStake, targetProofOfStake⟩

end

/-! ## What the walk looks at -/

def kernelWindow (nStakeModifierTime nLimit : Int) : List CBlockIndex → List CBlockIndex
  | [] => []
  | next :: rest =>
    if nStakeModifierTime < nLimit then
      next :: kernelWindow
        (if next.generatedStakeModifier then next.getBlockTime else nStakeModifierTime) nLimit rest
    else []

theorem kernelWalk_window (nLimit : Int) :
    ∀ (rest : List CBlockIndex) (t : Int) (p : CBlockIndex),
      kernelWalk t nLimit p rest = kernelWalk t nLimit p (kernelWindow t nLimit rest) := by
  intro rest
  induction rest with
  | nil => intro t p; rfl
  | cons next rest ih =>
    intro t p
    by_cases ht : t < nLimit
    · rw [kernelWindow, if_pos ht, kernelWalk, if_pos ht, kernelWalk, if_pos ht]
      exact ih _ next
    · rw [kernelWindow, if_neg ht, kernelWalk, if_neg ht, kernelWalk, if_neg ht]

theorem kernelWalk_map (nLimit : Int) :
    ∀ (rest : List CBlockIndex) (t : Int) (p : CBlockIndex),
      kernelWalk t nLimit p.withoutDiskPos (rest.map withoutDiskPos)
        = kernelWalk t nLimit p rest := by
  intro rest
  induction rest with
  | nil => intro t p; rfl
  | cons next rest ih =>
    intro t p
    rw [List.map_cons, kernelWalk, kernelWalk]
    split
    · exact ih _ next
    · rfl

namespace ChainState

/-- The main-chain blocks `GetKernelStakeModifier` visits, the start included. -/
def kernelWindowFrom (fTestNet : Bool) (s : ChainState) (hashBlockFrom : Uint256) :
    List CBlockIndex :=
  match s.mapBlockIndex hashBlockFrom with
  | none => []
  | some pindexFrom =>
    pindexFrom :: kernelWindow pindexFrom.getBlockTime
      (pindexFrom.getBlockTime + getStakeModifierSelectionInterval fTestNet)
      (s.mainChainAfter pindexFrom)

def SameKernelWindow (fTestNet : Bool) (s₁ s₂ : ChainState) (hashBlockFrom : Uint256) : Prop :=
  (s₁.kernelWindowFrom fTestNet hashBlockFrom).map withoutDiskPos
    = (s₂.kernelWindowFrom fTestNet hashBlockFrom).map withoutDiskPos

theorem getKernelStakeModifier_agree {t : Bool} {s1 s2 : ChainState} {h : Uint256}
    (hsame : SameKernelWindow t s1 s2 h) :
    s1.getKernelStakeModifier t h = s2.getKernelStakeModifier t h := by
  unfold SameKernelWindow kernelWindowFrom at hsame
  unfold getKernelStakeModifier
  cases h1 : s1.mapBlockIndex h with
  | none =>
    cases h2 : s2.mapBlockIndex h with
    | none => rfl
    | some b2 =>
      rw [h1, h2] at hsame
      cases hsame
  | some b1 =>
    cases h2 : s2.mapBlockIndex h with
    | none =>
      rw [h1, h2] at hsame
      cases hsame
    | some b2 =>
      rw [h1, h2] at hsame
      simp only [List.map_cons] at hsame ⊢
      obtain ⟨hfrom, hrest⟩ := List.cons.inj hsame
      have htime : b1.getBlockTime = b2.getBlockTime := by
        change b1.withoutDiskPos.getBlockTime = b2.withoutDiskPos.getBlockTime
        rw [hfrom]
      rw [htime] at hrest ⊢
      calc kernelWalk b2.getBlockTime _ b1 (s1.mainChainAfter b1)
          = kernelWalk b2.getBlockTime _ b1.withoutDiskPos
              ((kernelWindow b2.getBlockTime _ (s1.mainChainAfter b1)).map
                withoutDiskPos) := by
            rw [kernelWalk_window, kernelWalk_map]
        _ = kernelWalk b2.getBlockTime _ b2.withoutDiskPos
              ((kernelWindow b2.getBlockTime _ (s2.mainChainAfter b2)).map
                withoutDiskPos) := by
            rw [hfrom, hrest]
        _ = kernelWalk b2.getBlockTime _ b2 (s2.mainChainAfter b2) := by
            rw [kernelWalk_map, ← kernelWalk_window]

end ChainState

/-- **Kernel validity depends on the visited main chain.** Nodes whose walks visit the same blocks,
and whose best heights are on the same side of the spacing switch, compute the same verdict,
`hashProofOfStake` and target. -/
theorem checkStakeKernelHash_agree (c : Crypto) (fTestNet : Bool) (s₁ s₂ : ChainState)
    (nBits : Nat) (k : StakeKernel)
    (hwindow : SameKernelWindow fTestNet s₁ s₂ (c.scryptBlockhash k.blockFrom))
    (hside : afterSpacingSwitch fTestNet s₁.nBestHeight
      = afterSpacingSwitch fTestNet s₂.nBestHeight) :
    s₁.checkStakeKernelHash c fTestNet nBits k = s₂.checkStakeKernelHash c fTestNet nBits k := by
  have hage : getStakeMinAge fTestNet s₁.nBestHeight = getStakeMinAge fTestNet s₂.nBestHeight := by
    rw [getStakeMinAge, getStakeMinAge, hside]
  unfold checkStakeKernelHash getWeight
  rw [hage, getKernelStakeModifier_agree hwindow]

theorem kernelWindow_append (nLimit : Int) (more : List CBlockIndex) (seg : List CBlockIndex)
    (t : Int) (p : CBlockIndex) (hends : kernelWalk t nLimit p seg ≠ none) :
    kernelWindow t nLimit (seg ++ more) = kernelWindow t nLimit seg := by
  induction seg generalizing t p with
  | nil =>
    by_cases ht : t < nLimit
    · rw [kernelWalk, if_pos ht] at hends
      exact absurd rfl hends
    cases more with
    | nil => rfl
    | cons next more =>
      exact if_neg ht
  | cons next seg ih =>
    rw [List.cons_append]
    by_cases ht : t < nLimit
    · rw [kernelWalk, if_pos ht] at hends
      rw [kernelWindow, if_pos ht, kernelWindow, if_pos ht, ih _ next hends]
    · rw [kernelWindow, if_neg ht, kernelWindow, if_neg ht]

namespace ChainState

def LinksUp (s : ChainState) : Prop :=
  ∀ h n, s.pnext h = some n → ∃ b nb, s.mapBlockIndex h = some b ∧ s.mapBlockIndex n = some nb ∧
    nb.hashBlock = n ∧ nb.nHeight = b.nHeight + 1 ∧ (nb.nHeight : Int) ≤ s.nBestHeight

theorem followNext_fuel {s : ChainState} (hlinks : s.LinksUp) (fuel : Nat) (h : Uint256)
    (b : CBlockIndex) (hb : s.mapBlockIndex h = some b)
    (hfuel : (s.nBestHeight - b.nHeight).toNat ≤ fuel) :
    s.followNext fuel h = s.followNext (s.nBestHeight - b.nHeight).toNat h := by
  induction fuel generalizing h b with
  | zero => rw [Nat.le_zero.mp hfuel]
  | succ fuel ih =>
    cases hn : s.pnext h with
    | none =>
      have hstop : ∀ n, s.followNext n h = [] := by
        intro n
        cases n with
        | zero => rfl
        | succ n => rw [followNext, hn]; rfl
      rw [hstop, hstop]
    | some n =>
      obtain ⟨_, nb, hb', hnb, hhash, _, _⟩ := hlinks h n hn
      rw [hb] at hb'
      cases hb'
      obtain ⟨m, hm⟩ : ∃ m, (s.nBestHeight - b.nHeight).toNat = m + 1 :=
        ⟨(s.nBestHeight - b.nHeight).toNat - 1, by omega⟩
      have hrest : (s.nBestHeight - nb.nHeight).toNat = m := by omega
      rw [hm, followNext, followNext, hn, Option.bind_some, hnb]
      simp only
      rw [hhash, ih n nb hnb (by omega), hrest]

end ChainState

/-! ## Two branches

A coin of a million, created in block 1 and staked thirty days later on top of block 2, with
the proof-of-stake limit as target: its weight is large enough for any 256-bit hash. The second
node has the same blocks, but its main chain runs through blocks 11 and 12. -/

def forkTime : Nat := 1500000000

def forkEntry (hash : Uint256) (pprev : Option Uint256) (nHeight nTime nFlags : Nat) :
    CBlockIndex :=
  { lineEntry false hash with
    pprev, nChainTrust := nHeight + 1, nHeight, nFlags, nStakeModifier := hash, nTime
    nBits := 0x1e00ffff }

/-- Blocks 0, 1, 2 and the branch 0, 1, 12; blocks 2 and 12 generated a modifier. -/
def forkIndex : BlockMap := fun h =>
  if h = 0 then some (forkEntry 0 none 0 forkTime 4)
  else if h = 1 then some (forkEntry 1 (some 0) 1 (forkTime + 60) 0)
  else if h = 2 then some (forkEntry 2 (some 1) 2 (forkTime + 60 + 10 * 86400) 4)
  else if h = 12 then some (forkEntry 12 (some 1) 2 (forkTime + 90 + 10 * 86400) 4)
  else none

def forkState (fOther : Bool) : ChainState :=
  { lineState false 2 with
    mapBlockIndex := forkIndex
    pnext := fun h =>
      if h = 0 then some 1 else if h = 1 then some (if fOther then 12 else 2) else none
    pindexBest := some (if fOther then 12 else 2)
    hashBestChain := if fOther then 12 else 2 }

def forkCrypto : Crypto where
  txHash := fun tx => tx.nTime
  scryptBlockhash := fun h => h.hashMerkleRoot
  hashPair := fun a b => a * 2 ^ 64 + b
  hashKernel := fun nStakeModifier _ _ _ _ nTimeTx => 2 ^ 255 + nStakeModifier * 2 ^ 32 + nTimeTx

/-- A hash that is low for the modifier of block 2 and high for that of block 12. -/
def branchCrypto : Crypto :=
  { forkCrypto with hashKernel := fun nStakeModifier _ _ _ _ _ => nStakeModifier * 2 ^ 247 }

def forkKernel : StakeKernel where
  blockFrom := { nVersion := 4, hashPrevBlock := 0, hashMerkleRoot := 1, nTime := forkTime + 60,
                 nBits := 0x1e00ffff, nNonce := 0 }
  nTxPrevOffset := 81
  txPrev := { nVersion := 1, nTime := forkTime + 60, vin := [],
              vout := [⟨1000000 * coin, [0x51]⟩], nLockTime := 0 }
  prevout := ⟨forkTime + 60, 0⟩
  nTimeTx := forkTime + 60 + 30 * 86400

theorem mem_of_forkIndex {h : Uint256} {b : CBlockIndex} (hb : forkIndex h = some b) :
    h ∈ [0, 1, 2, 12] := by
  by_contra hnot
  simp only [List.mem_cons, List.not_mem_nil, or_false, not_or] at hnot
  simp [forkIndex, hnot] at hb

theorem forkIndex_wellFormed : forkIndex.WellFormed :=
  BlockMap.wellFormed_of_hashes [0, 1, 2, 12] mem_of_forkIndex (by decide)

theorem forkState_wellFormed (fOther : Bool) : (forkState fOther).WellFormed := by
  refine ⟨forkIndex_wellFormed, ?_⟩
  cases fOther with
  | false => exact ⟨2, _, rfl, rfl, rfl⟩
  | true => exact ⟨12, _, rfl, rfl, rfl⟩

/-- The same coinstake on top of block 2 is valid for the first node and invalid for the second. The
coin is in block 1, which is on the main chain of both. -/
theorem checkStakeKernelHash_fork :
    (forkState false).WellFormed ∧ (forkState true).WellFormed ∧
      (forkState false).SameAncestry (forkState true) 2 ∧
      (forkState false).isInMainChain 1 = true ∧ (forkState true).isInMainChain 1 = true ∧
      (forkState false).nBestHeight = (forkState true).nBestHeight ∧
      ((forkState false).checkStakeKernelHash branchCrypto false 0x1d00ffff forkKernel).fValid
        = true ∧
      ((forkState true).checkStakeKernelHash branchCrypto false 0x1d00ffff forkKernel).fValid
        = false := by
  refine ⟨forkState_wellFormed _, forkState_wellFormed _, ⟨?_, rfl⟩, rfl, rfl, rfl, ?_, ?_⟩
  · decide +kernel
  · decide +kernel
  · decide +kernel

def longerState : ChainState :=
  { forkState false with
    mapBlockIndex := fun h =>
      if h = 3 then some (forkEntry 3 (some 2) 3 (forkTime + 120 + 10 * 86400) 0) else forkIndex h
    pnext := fun h => if h = 2 then some 3 else (forkState false).pnext h
    pindexBest := some 3
    hashBestChain := 3
    nBestHeight := 3
    nBestChainTrust := 4 }

theorem checkStakeKernelHash_agree_longer :
    SameKernelWindow false (forkState false) longerState 1 ∧
      (forkState false).checkStakeKernelHash forkCrypto false 0x1e00ffff forkKernel
        = longerState.checkStakeKernelHash forkCrypto false 0x1e00ffff forkKernel := by
  have hwindow : SameKernelWindow false (forkState false) longerState 1 := by
    unfold SameKernelWindow
    decide +kernel
  exact ⟨hwindow, checkStakeKernelHash_agree forkCrypto false _ _ _ forkKernel hwindow rfl⟩

end HoboNickels

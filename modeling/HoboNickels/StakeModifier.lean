import HoboNickels.Kernel
import HoboNickels.BlockCheck

/-!
# The stake modifier

`ComputeNextStakeModifier`. Every modifier interval a new 64-bit modifier is collected from the
entropy bits of up to 64 blocks, one a round; the block of a round is the one with the least
selection hash among the candidates up to the end of the round's section of the interval.
-/

namespace HoboNickels

/-- `GetLastStakeModifier` on an ancestry: the last generated modifier and its time. -/
def getLastStakeModifier : List CBlockIndex → Option (Nat × Int)
  | [] => none
  | [p] => if p.generatedStakeModifier then some (p.nStakeModifier, p.getBlockTime) else none
  | p :: q :: rest =>
    if p.generatedStakeModifier then some (p.nStakeModifier, p.getBlockTime)
    else getLastStakeModifier (q :: rest)

/-- The hash by which a candidate is compared: that of a proof-of-stake block is divided by
`2 ^ 32`. -/
def CBlockIndex.selectionHash (env : Env) (nStakeModifierPrev : Nat) (p : CBlockIndex) : Uint256 :=
  if p.isProofOfStake then env.hashSelection p.hashProofOfStake nStakeModifierPrev / 2 ^ 32
  else env.hashSelection p.hashBlock nStakeModifierPrev

/-- `SelectBlockFromCandidates`, with the best candidate so far and its hash. -/
def selectBlockFromCandidates (env : Env) (m : BlockMap) (mapSelectedBlocks : List Uint256)
    (nSelectionIntervalStop : Int) (nStakeModifierPrev : Nat) :
    List (Int × Uint256) → Option (CBlockIndex × Uint256) → Option CBlockIndex
  | [], best => best.map Prod.fst
  | item :: rest, best =>
    match m item.2 with
    | none => none
    | some pindex =>
      if best.isSome && decide (pindex.getBlockTime > nSelectionIntervalStop) then
        best.map Prod.fst
      else if mapSelectedBlocks.contains pindex.hashBlock then
        selectBlockFromCandidates env m mapSelectedBlocks nSelectionIntervalStop
          nStakeModifierPrev rest best
      else
        let hashSelection := pindex.selectionHash env nStakeModifierPrev
        let better := match best with
          | none => true
          | some (_, hashBest) => decide (hashSelection < hashBest)
        selectBlockFromCandidates env m mapSelectedBlocks nSelectionIntervalStop
          nStakeModifierPrev rest (if better then some (pindex, hashSelection) else best)

structure SelectionState where
  nSelectionIntervalStop : Int
  mapSelectedBlocks : List Uint256
  nStakeModifierNew : Nat

def selectionRound (env : Env) (m : BlockMap) (vSortedByTimestamp : List (Int × Uint256))
    (nStakeModifier : Nat) (st : SelectionState) (nRound : Nat) : Option SelectionState :=
  let nStop := st.nSelectionIntervalStop
    + getStakeModifierSelectionIntervalSection env.fTestNet nRound
  match selectBlockFromCandidates env m st.mapSelectedBlocks nStop nStakeModifier
      vSortedByTimestamp none with
  | none => none
  | some pindex => some {
      nSelectionIntervalStop := nStop
      mapSelectedBlocks := pindex.hashBlock :: st.mapSelectedBlocks
      nStakeModifierNew := st.nStakeModifierNew ||| (pindex.getStakeEntropyBit <<< nRound) }

/-- The candidates: the ancestors since the start of the selection interval, by time and hash. -/
def selectionCandidates (nSelectionIntervalStart : Int) (chain : List CBlockIndex) :
    List (Int × Uint256) :=
  (((chain.takeWhile (fun p => decide (p.getBlockTime ≥ nSelectionIntervalStart))).map
    (fun p => (p.getBlockTime, p.hashBlock))).reverse).mergeSort
      (fun x y => decide (x.1 < y.1) || (decide (x.1 = y.1) && decide (x.2 ≤ y.2)))

/-- `ComputeNextStakeModifier` for a child of the first block of `chain`: the modifier and
whether it is a new one. -/
def computeNextStakeModifier (env : Env) (m : BlockMap) (chain : List CBlockIndex) :
    Option (Nat × Bool) :=
  match chain with
  | [] => some (0, true)
  | pindexPrev :: _ =>
    match getLastStakeModifier chain with
    | none => none
    | some (nStakeModifier, nModifierTime) =>
      let nInterval : Int := nModifierInterval env.fTestNet
      if nModifierTime / nInterval ≥ pindexPrev.getBlockTime / nInterval then
        some (nStakeModifier, false)
      else
        let nSelectionIntervalStart := pindexPrev.getBlockTime / nInterval * nInterval
          - getStakeModifierSelectionInterval env.fTestNet
        let vSortedByTimestamp := selectionCandidates nSelectionIntervalStart chain
        match (List.range (min 64 vSortedByTimestamp.length)).foldlM
            (selectionRound env m vSortedByTimestamp nStakeModifier)
            ⟨nSelectionIntervalStart, [], 0⟩ with
        | none => none
        | some st => some (st.nStakeModifierNew, true)

/-- `GetStakeModifierChecksum` of a block with these fields, over the checksum of its parent. -/
def getStakeModifierChecksum (env : Env) (pprevChecksum : Option Nat) (nFlags : Nat)
    (hashProofOfStake : Uint256) (nStakeModifier : Nat) : Nat :=
  env.hashChecksum pprevChecksum nFlags hashProofOfStake nStakeModifier / 2 ^ (256 - 32) % 2 ^ 64

def mapStakeModifierCheckpoints : List (Nat × Nat) :=
  [(0, 0x0e00670b), (261031, 0x08c12bdb8), (435735, 0x0b956cfa0), (750000, 0x0b86ffee4),
    (1000000, 0x0a68f1279), (2000000, 0x0029173a3), (3000000, 0x0ecd4d6c7),
    (4000000, 0x0a655151a), (5000000, 0x0e02d611e), (5499330, 0x03026e5af),
    (5499331, 0x00e5f8ce1), (5499332, 0x091436a27), (5500000, 0x0a053fcf3),
    (5520100, 0x05c7752ee)]

def checkStakeModifierCheckpoints (fTestNet : Bool) (nHeight nStakeModifierChecksum : Nat) : Bool :=
  if fTestNet then true
  else match mapStakeModifierCheckpoints.lookup nHeight with
    | some checksum => nStakeModifierChecksum == checksum
    | none => true

end HoboNickels

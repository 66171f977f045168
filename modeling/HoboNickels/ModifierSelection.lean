import HoboNickels.ChainSwitch
import HoboNickels.MoneySupply
import HoboNickels.StakeModifier

/-!
# What the stake modifier is made of

A round of `ComputeNextStakeModifier` takes the candidate that `Picks` describes: of those not taken
before and not later than the round's stop time the one with the least selection hash, or the
earliest if all are later. The scan of one round is followed with and without a candidate in hand,
the rounds by the list of blocks taken so far.
-/

namespace HoboNickels

open List CBlockIndex

variable {env : Env} {m m' : BlockMap} {nModifier : Nat} {nStop : Int} {taken : List Uint256}
  {cands : List CBlockIndex} {b p q pindexPrev : CBlockIndex}

def CBlockIndex.sortKey (p : CBlockIndex) : Int × Uint256 := (p.getBlockTime, p.hashBlock)

/-- The order of pairs by which the candidates are sorted. -/
def keyLe (x y : Int × Uint256) : Bool :=
  decide (x.1 < y.1) || (decide (x.1 = y.1) && decide (x.2 ≤ y.2))

/-- The block has not been taken and is not later than the stop time. -/
def Fits (taken : List Uint256) (nStop : Int) (q : CBlockIndex) : Prop :=
  q.hashBlock ∉ taken ∧ q.getBlockTime ≤ nStop

/-- `p` is the candidate that a round takes. -/
structure Picks (env : Env) (nModifier : Nat) (cands : List CBlockIndex) (taken : List Uint256)
    (nStop : Int) (p : CBlockIndex) : Prop where
  mem : p ∈ cands
  fresh : p.hashBlock ∉ taken
  least : ∀ q ∈ cands, Fits taken nStop q → Fits taken nStop p ∧
    p.selectionHash env nModifier ≤ q.selectionHash env nModifier
  earliest : (∀ q ∈ cands, ¬ Fits taken nStop q) →
    ∀ q ∈ cands, q.hashBlock ∉ taken → keyLe p.sortKey q.sortKey = true

theorem Picks.of_perm {cands' : List CBlockIndex} {taken' : List Uint256}
    (h : Picks env nModifier cands taken nStop p) (hcands : cands.Perm cands')
    (htaken : taken.Perm taken') : Picks env nModifier cands' taken' nStop p := by
  constructor <;> simp only [Fits, ← hcands.mem_iff, ← htaken.mem_iff]
  exacts [h.mem, h.fresh, h.least, h.earliest]

/-- With the candidate `b` in hand, the scan of `cands` ends with `p`. -/
structure Improves (env : Env) (nModifier : Nat) (cands : List CBlockIndex) (taken : List Uint256)
    (nStop : Int) (b p : CBlockIndex) : Prop where
  origin : p = b ∨ p ∈ cands ∧ Fits taken nStop p
  le : p.selectionHash env nModifier ≤ b.selectionHash env nModifier
  least : ∀ q ∈ cands, Fits taken nStop q →
    p.selectionHash env nModifier ≤ q.selectionHash env nModifier

/-- The scan goes on after `c` with `b'`, the better one of `b` and `c`. -/
theorem Improves.cons {b' c : CBlockIndex} (h : Improves env nModifier cands taken nStop b' p)
    (horigin : b' = b ∨ b' = c ∧ Fits taken nStop c)
    (hle : b'.selectionHash env nModifier ≤ b.selectionHash env nModifier)
    (hc : Fits taken nStop c →
      b'.selectionHash env nModifier ≤ c.selectionHash env nModifier) :
    Improves env nModifier (c :: cands) taken nStop b p := by
  refine ⟨?_, h.le.trans hle, fun q hq hfits => ?_⟩
  · rcases h.origin with rfl | hp
    · rcases horigin with rfl | ⟨rfl, hfits⟩
      · exact .inl rfl
      · exact .inr ⟨mem_cons_self, hfits⟩
    · exact .inr ⟨mem_cons_of_mem _ hp.1, hp.2⟩
  · rcases mem_cons.mp hq with rfl | hq
    · exact h.le.trans (hc hfits)
    · exact h.least q hq hfits

/-! ## One round -/

section Round

variable (hidx : ∀ p ∈ cands, m.Indexed p)
  (hsorted : cands.Pairwise fun p q => keyLe p.sortKey q.sortKey = true)

theorem getBlockTime_le_of_keyLe (h : keyLe p.sortKey q.sortKey = true) :
    p.getBlockTime ≤ q.getBlockTime := by
  simp only [keyLe, Bool.or_eq_true, Bool.and_eq_true, decide_eq_true_eq] at h
  rcases h with h | h
  · exact h.le
  · exact h.1.le

include hidx hsorted

theorem selectBlockFromCandidates_some (b : CBlockIndex) :
    ∃ p, selectBlockFromCandidates env m taken nStop nModifier (cands.map sortKey)
      (some (b, b.selectionHash env nModifier)) = some p ∧
      Improves env nModifier cands taken nStop b p := by
  induction cands generalizing b with
  | nil => exact ⟨b, rfl, .inl rfl, le_rfl, by simp⟩
  | cons c rest ih =>
    have hc : m c.sortKey.2 = some c := hidx c mem_cons_self
    obtain ⟨hle, hsorted⟩ := pairwise_cons.mp hsorted
    have ih := ih (fun p hp => hidx p (mem_cons_of_mem _ hp)) hsorted
    rw [map_cons, selectBlockFromCandidates]
    simp only [hc, Option.isSome_some, Bool.true_and, decide_eq_true_eq, contains_iff_mem]
    split
    · -- the blocks from here on are all later
      rename_i hlate
      refine ⟨b, rfl, .inl rfl, le_rfl, fun q hq hfits => ?_⟩
      rcases mem_cons.mp hq with rfl | hq
      · exact absurd hfits.2 (not_le.mpr hlate)
      · have hge := getBlockTime_le_of_keyLe (hle q hq)
        exact absurd hfits.2 (not_le.mpr (hlate.trans_le hge))
    rename_i hnot
    split
    next hmem =>
      obtain ⟨p, hp, himp⟩ := ih b
      exact ⟨p, hp, himp.cons (.inl rfl) le_rfl fun hfits => absurd hmem hfits.1⟩
    rename_i hmem
    split
    next hless =>
      obtain ⟨p, hp, himp⟩ := ih c
      exact ⟨p, hp, himp.cons (.inr ⟨rfl, hmem, not_lt.mp hnot⟩) hless.le fun _ => le_rfl⟩
    next hless =>
      obtain ⟨p, hp, himp⟩ := ih b
      exact ⟨p, hp, himp.cons (.inl rfl) le_rfl fun _ => not_lt.mp hless⟩

theorem selectBlockFromCandidates_none (hleft : ∃ q ∈ cands, q.hashBlock ∉ taken) :
    ∃ p, selectBlockFromCandidates env m taken nStop nModifier (cands.map sortKey) none
        = some p ∧ Picks env nModifier cands taken nStop p := by
  induction cands with
  | nil => simp at hleft
  | cons c rest ih =>
    have hc : m c.sortKey.2 = some c := hidx c mem_cons_self
    have hrest : ∀ p ∈ rest, m.Indexed p := fun p hp => hidx p (mem_cons_of_mem _ hp)
    obtain ⟨hle, hsorted⟩ := pairwise_cons.mp hsorted
    rw [map_cons, selectBlockFromCandidates]
    simp only [hc, Option.isSome_none, Bool.false_and, contains_iff_mem, Bool.false_eq_true,
      if_false]
    split
    next hmem =>
      have hskip : ∀ q ∈ c :: rest, q.hashBlock ∉ taken → q ∈ rest := fun q hq hfresh => by
        rcases mem_cons.mp hq with rfl | hq
        · exact absurd hmem hfresh
        · exact hq
      obtain ⟨q, hq, hfresh⟩ := hleft
      obtain ⟨p, hp, hpick⟩ := ih hrest hsorted ⟨q, hskip q hq hfresh, hfresh⟩
      exact ⟨p, hp, mem_cons_of_mem _ hpick.mem, hpick.fresh,
        fun q hq hfits => hpick.least q (hskip q hq hfits.1) hfits,
        fun hlate q hq hfresh => hpick.earliest
          (fun q hq => hlate q (mem_cons_of_mem _ hq)) q (hskip q hq hfresh) hfresh⟩
    next hmem =>
      have hfirst : ∀ q ∈ c :: rest, keyLe c.sortKey q.sortKey = true := fun q hq => by
        rcases mem_cons.mp hq with rfl | hq
        · simp [keyLe]
        · exact hle q hq
      obtain ⟨p, hp, hfrom, hb, hleast⟩ :=
        @selectBlockFromCandidates_some env m nModifier nStop taken rest hrest hsorted c
      refine ⟨p, hp, ?_⟩
      rcases hfrom with rfl | ⟨hin, hfits⟩
      · refine ⟨mem_cons_self, hmem, fun q hq hfits => ⟨⟨hmem, ?_⟩, ?_⟩,
          fun _ q hq _ => hfirst q hq⟩
        · exact (getBlockTime_le_of_keyLe (hfirst q hq)).trans hfits.2
        · rcases mem_cons.mp hq with rfl | hq
          · exact le_rfl
          · exact hleast q hq hfits
      · refine ⟨mem_cons_of_mem _ hin, hfits.1, fun q hq hfits' => ⟨hfits, ?_⟩,
          fun hlate => absurd hfits (hlate p (mem_cons_of_mem _ hin))⟩
        rcases mem_cons.mp hq with rfl | hq
        · exact hb
        · exact hleast q hq hfits'

end Round

theorem selectBlockFromCandidates_congr {items : List (Int × Uint256)}
    (h : ∀ item ∈ items, m item.2 = m' item.2) (best : Option (CBlockIndex × Uint256)) :
    selectBlockFromCandidates env m taken nStop nModifier items best =
      selectBlockFromCandidates env m' taken nStop nModifier items best := by
  induction items generalizing best with
  | nil => rfl
  | cons item rest ih =>
    have ih := ih fun item hitem => h item (mem_cons_of_mem _ hitem)
    simp only [selectBlockFromCandidates, h item mem_cons_self, ih]

/-! ## The rounds -/

/-- The stop time of a round: the sections up to its own are added to the start. -/
def roundStop (env : Env) (nStart : Int) (nRound : Nat) : Int :=
  nStart + (((List.range (nRound + 1)).map
    (getStakeModifierSelectionIntervalSection env.fTestNet)).sum : Nat)

/-- The rounds have taken the blocks `picks`, and `nNew` has their bits. -/
structure RoundsTake (env : Env) (nModifier : Nat) (nStart : Int) (cands picks : List CBlockIndex)
    (nNew : Nat) : Prop where
  nodup : (picks.map CBlockIndex.hashBlock).Nodup
  each : ∀ r p, picks[r]? = some p → Picks env nModifier cands
    ((picks.take r).map CBlockIndex.hashBlock) (roundStop env nStart r) p
  bits : ∀ r, nNew.testBit r = (picks[r]?.map CBlockIndex.getStakeEntropyBit == some 1)

theorem RoundsTake.concat {nStart : Int} {picks : List CBlockIndex} {nNew : Nat}
    (h : RoundsTake env nModifier nStart cands picks nNew)
    (hp : Picks env nModifier cands (picks.map hashBlock)
      (roundStop env nStart picks.length) p) :
    RoundsTake env nModifier nStart cands (picks ++ [p])
      (nNew ||| (p.getStakeEntropyBit <<< picks.length)) where
  nodup := by
    rw [map_append, nodup_append]
    refine ⟨h.nodup, nodup_singleton _, ?_⟩
    rintro a ha b hb rfl
    rw [map_singleton, mem_singleton] at hb
    exact hp.fresh (hb ▸ ha)
  each r q hq := by
    rcases lt_trichotomy r picks.length with hlt | rfl | hgt
    · rw [getElem?_append_left hlt] at hq
      rw [take_append_of_le_length hlt.le]
      exact h.each r q hq
    · rw [getElem?_append_right le_rfl, Nat.sub_self] at hq
      obtain rfl := Option.some.inj hq
      rwa [take_left']
      rfl
    · rw [getElem?_eq_none (by simp; omega)] at hq
      cases hq
  bits r := by
    have hbit : ∀ i, p.getStakeEntropyBit.testBit i =
        (decide (i = 0) && p.getStakeEntropyBit == 1) := by
      intro i
      rw [getStakeEntropyBit]
      split
      · cases i <;> simp [Nat.testBit_succ]
      · simp
    rw [Nat.testBit_or, Nat.testBit_shiftLeft, h.bits, hbit]
    rcases lt_trichotomy r picks.length with hlt | rfl | hgt
    · simp [getElem?_append_left hlt, not_le.mpr hlt]
    · simp
    · have hne : r - picks.length ≠ 0 := by omega
      rw [getElem?_eq_none hgt.le, getElem?_eq_none (by simp; omega)]
      simp [hne]

theorem selectionRounds (hidx : ∀ p ∈ cands, m.Indexed p)
    (hsorted : cands.Pairwise fun p q => keyLe p.sortKey q.sortKey = true)
    (hnodup : (cands.map hashBlock).Nodup) (nStart : Int) (n : Nat) :
    n ≤ cands.length → ∃ picks nNew, picks.length = n ∧
      RoundsTake env nModifier nStart cands picks nNew ∧
      (range n).foldlM (selectionRound env m (cands.map sortKey) nModifier)
        ⟨nStart, [], 0⟩ = some ⟨nStart + (((range n).map
          (getStakeModifierSelectionIntervalSection env.fTestNet)).sum : Nat),
          (picks.map hashBlock).reverse, nNew⟩ := by
  induction n with
  | zero => exact fun _ => ⟨[], 0, rfl, ⟨nodup_nil, by simp, by simp⟩, by simp⟩
  | succ n ih =>
    intro hn
    obtain ⟨picks, nNew, hlen, htake, hfold⟩ := ih (by omega)
    -- fewer blocks have been taken than there are
    obtain ⟨q, hq, hfresh⟩ : ∃ q ∈ cands, q.hashBlock ∉ (picks.map hashBlock).reverse := by
      by_contra hall
      push Not at hall
      have hsub : cands.map hashBlock ⊆ (picks.map hashBlock).reverse :=
        fun h hh => by
          obtain ⟨q, hq, rfl⟩ := mem_map.mp hh
          exact hall q hq
      have := (hnodup.subperm hsub).length_le
      simp only [length_map, length_reverse] at this
      omega
    have hstop : nStart + (((range n).map
        (getStakeModifierSelectionIntervalSection env.fTestNet)).sum : Nat)
        + (getStakeModifierSelectionIntervalSection env.fTestNet n : Nat)
        = roundStop env nStart n := by
      simp [roundStop, range_succ, add_assoc]
    obtain ⟨p, hp, hpick⟩ := @selectBlockFromCandidates_none env m nModifier
      (roundStop env nStart n) _ cands hidx hsorted ⟨q, hq, hfresh⟩
    refine ⟨picks ++ [p], nNew ||| (p.getStakeEntropyBit <<< n), by simp [hlen], ?_, ?_⟩
    · subst hlen
      exact htake.concat (hpick.of_perm (.refl _) (reverse_perm _))
    · rw [range_succ, foldlM_append, hfold]
      simp only [bind, Option.bind, foldlM, selectionRound, hstop, hp, pure]
      simp [roundStop, range_succ]

theorem getLastStakeModifier_eq_some {root : CBlockIndex} :
    ∀ {chain : List CBlockIndex}, chain.getLast? = some root →
      root.generatedStakeModifier = true → ∃ last, getLastStakeModifier chain = some last
  | [], h, _ => by cases h
  | [p], h, hgen => by
    obtain rfl : p = root := by simpa using h
    exact ⟨_, if_pos hgen⟩
  | p :: q :: rest, h, hgen => by
    rw [getLastStakeModifier]
    split
    · exact ⟨_, rfl⟩
    · exact getLastStakeModifier_eq_some (by simpa using h) hgen

/-- The start of the selection interval for a child of `pindexPrev`. -/
def selectionStart (env : Env) (pindexPrev : CBlockIndex) : Int :=
  pindexPrev.getBlockTime / nModifierInterval env.fTestNet * nModifierInterval env.fTestNet
    - getStakeModifierSelectionInterval env.fTestNet

theorem keyLe_iff {x y : Int × Uint256} : keyLe x y = true ↔ toLex x ≤ toLex y := by
  simp [keyLe, Prod.Lex.toLex_le_toLex]

/-- The sorted candidates are the keys of a sorted list of blocks. -/
theorem selectionCandidates_eq (nStart : Int) (chain : List CBlockIndex) :
    ∃ sorted : List CBlockIndex,
      sorted.Perm (chain.takeWhile fun p => decide (p.getBlockTime ≥ nStart)) ∧
      sorted.Pairwise (fun p q => keyLe p.sortKey q.sortKey = true) ∧
      selectionCandidates nStart chain = sorted.map sortKey := by
  refine ⟨(chain.takeWhile fun p => decide (p.getBlockTime ≥ nStart)).reverse.mergeSort
    (fun p q => keyLe p.sortKey q.sortKey), ?_, ?_, ?_⟩
  · exact (mergeSort_perm _ _).trans (reverse_perm _)
  · refine pairwise_mergeSort (fun a b c hab hbc => ?_) (fun a b => ?_) _
    · exact keyLe_iff.mpr ((keyLe_iff.mp hab).trans (keyLe_iff.mp hbc))
    · rw [Bool.or_eq_true, keyLe_iff, keyLe_iff]
      exact le_total _ _
  · rw [map_mergeSort (s := keyLe) (fun _ _ _ _ => rfl), map_reverse]
    rfl

/-- **The stake modifier selects as specified.** In every tree with the ancestors `chain` of
`pindexPrev`, `m` included, the next modifier is the same; a new one is made of the bits of as many
candidates as there are, at most 64. -/
theorem computeNextStakeModifier_selects (env : Env) {chain : List CBlockIndex} (wf : m.WellFormed)
    (hprev : m.Indexed pindexPrev) (hchain : m.chainOf pindexPrev.hashBlock = chain)
    (hgen : ∀ root, chain.getLast? = some root → root.generatedStakeModifier = true) :
    ∃ nModifier nModifierTime nNext fGenerated,
      getLastStakeModifier chain = some (nModifier, nModifierTime) ∧
      (fGenerated = false → nNext = nModifier) ∧
      (fGenerated = true → ∃ cands picks,
        chain.takeWhile (fun p => decide (p.getBlockTime ≥ selectionStart env pindexPrev)) = cands ∧
        picks.length = min 64 cands.length ∧
        RoundsTake env nModifier (selectionStart env pindexPrev) cands picks nNext) ∧
      ∀ m' : BlockMap, m'.WellFormed → m'.chainOf pindexPrev.hashBlock = chain →
        computeNextStakeModifier env m' chain = some (nNext, fGenerated) := by
  obtain ⟨root, hlast, -⟩ := BlockMap.getLast?_chainOf wf pindexPrev hprev
  obtain ⟨_, hhead⟩ := BlockMap.chainOf_head hprev
  obtain ⟨⟨nModifier, nModifierTime⟩, hmodifier⟩ :=
    getLastStakeModifier_eq_some (hchain ▸ hlast) (hgen root (hchain ▸ hlast))
  obtain ⟨sorted, hperm, hsorted, hcands⟩ :=
    selectionCandidates_eq (selectionStart env pindexPrev) chain
  have hmem : ∀ p ∈ sorted, p ∈ chain := fun p hp =>
    (takeWhile_sublist _).mem (hperm.mem_iff.mp hp)
  have hidx : ∀ m' : BlockMap, m'.WellFormed → m'.chainOf pindexPrev.hashBlock = chain →
      ∀ p ∈ sorted, m'.Indexed p := fun m' wf' hsame p hp =>
    BlockMap.mem_chainOf_indexed wf' (hsame ▸ hmem p hp)
  have hnodup : (sorted.map hashBlock).Nodup := by
    have hhashes := BlockMap.nodup_hashes wf pindexPrev.hashBlock
    rw [BlockMap.hashes, hchain] at hhashes
    exact (hperm.map _).nodup_iff.mpr (((takeWhile_sublist _).map _).nodup hhashes)
  obtain ⟨picks, nNew, hlen, htake, hfold⟩ := @selectionRounds env m nModifier sorted
    (hidx m wf hchain) hsorted hnodup (selectionStart env pindexPrev) (min 64 sorted.length)
    (min_le_right _ _)
  have heq : ∀ m' : BlockMap, m'.WellFormed → m'.chainOf pindexPrev.hashBlock = chain →
      computeNextStakeModifier env m' chain = if nModifierTime / nModifierInterval env.fTestNet ≥
            pindexPrev.getBlockTime / nModifierInterval env.fTestNet then some (nModifier, false)
        else some (nNew, true) := by
    intro m' wf' hsame
    have hlookup : ∀ item ∈ sorted.map sortKey, m' item.2 = m item.2 := by
      intro item hitem
      obtain ⟨p, hp, rfl⟩ := mem_map.mp hitem
      exact (hidx m' wf' hsame p hp).trans (hidx m wf hchain p hp).symm
    have hround : selectionRound env m' (sorted.map sortKey) nModifier =
        selectionRound env m (sorted.map sortKey) nModifier := by
      funext st nRound
      simp only [selectionRound, selectBlockFromCandidates_congr hlookup]
    rw [selectionStart] at hcands hfold
    rw [← hchain, hhead] at hmodifier hcands ⊢
    simp only [computeNextStakeModifier, hmodifier, hcands, length_map, hround, hfold]
  by_cases hold : nModifierTime / nModifierInterval env.fTestNet ≥
      pindexPrev.getBlockTime / nModifierInterval env.fTestNet
  · simp only [if_pos hold] at heq
    exact ⟨nModifier, nModifierTime, nModifier, false, hmodifier, fun _ => rfl, nofun, heq⟩
  simp only [if_neg hold] at heq
  refine ⟨nModifier, nModifierTime, nNew, true, hmodifier, nofun, fun _ =>
    ⟨_, picks, rfl, hperm.length_eq ▸ hlen, htake.nodup, ?_, htake.bits⟩, heq⟩
  exact fun r p hp => (htake.each r p hp).of_perm hperm (.refl _)

/-- A block a day after the last modifier. -/
def dayLater : CBlockIndex := forkEntry 3 (some 1) 2 (forkTime + 86400) 2

def dayLaterIndex : BlockMap := Function.update forkIndex dayLater.hashBlock (some dayLater)

def dayLaterChain : List CBlockIndex :=
  [dayLater, forkEntry 1 (some 0) 1 (forkTime + 60) 0, forkEntry 0 none 0 forkTime 4]

theorem computeNextStakeModifier_selects_day :
    ∃ nNext picks, computeNextStakeModifier sampleEnv dayLaterIndex dayLaterChain
        = some (nNext, true) ∧ picks.length = 3 ∧
      RoundsTake sampleEnv 0 (selectionStart sampleEnv dayLater) dayLaterChain picks nNext := by
  have wf : dayLaterIndex.WellFormed := forkIndex_wellFormed.insert (by decide) (by
    rintro p ⟨⟩
    exact ⟨_, rfl, rfl⟩) nofun
  have hchain : dayLaterIndex.chainOf dayLater.hashBlock = dayLaterChain := by decide +kernel
  obtain ⟨_, _, nNext, fGenerated, hlast, -, hselects, hnext⟩ :=
    @computeNextStakeModifier_selects _ dayLater sampleEnv _ wf (by decide +kernel) hchain
      (by decide +kernel)
  have hfirst : getLastStakeModifier dayLaterChain = some (0, (forkTime : Int)) := by
    decide +kernel
  cases hlast.symm.trans hfirst
  have hmade := hnext _ wf hchain
  have hgenerated : fGenerated = true := by
    unfold computeNextStakeModifier at hmade
    rw [hfirst] at hmade
    dsimp only [dayLaterChain] at hmade
    rw [if_neg (by decide +kernel)] at hmade
    split at hmade
    · cases hmade
    · exact (Prod.mk.inj (Option.some.inj hmade)).2.symm
  obtain ⟨_, picks, rfl, hlen, htake⟩ := hselects hgenerated
  have hall : dayLaterChain.takeWhile (fun p => decide (p.getBlockTime ≥
      selectionStart sampleEnv dayLater)) = dayLaterChain := by decide +kernel
  rw [hall] at hlen htake
  exact ⟨nNext, picks, hgenerated ▸ hmade, hlen, htake⟩

end HoboNickels

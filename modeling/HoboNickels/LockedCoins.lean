import HoboNickels.Selection
import HoboNickels.StakeSearch

/-!
# Locked coins

`lockunspent` keeps a set of outputs that are to be "temporarily unspendable". None of the three
enumerations of coins asks for it, so a locked coin is selected like any other
(`locked_coin_selected`), and the lock is kept exactly of the outputs that could not be selected
anyway (`locked_kept_iff`).
-/

namespace HoboNickels

open Fallible List

namespace WalletView

variable (W : WalletView)

/-- Some selection without coin control contains the outpoint: for a send, a coinstake, or
`MergeCoins`. -/
def SelectedAutomatically (op : COutPoint) : Prop :=
  (∃ nTargetValue nSpendTime chance sel, nSpendTime ≤ uint32Max ∧
    W.selectCoins nTargetValue nSpendTime [] chance = .ok (some sel) ∧ op ∈ sel.outPoints) ∨
  (∃ nTargetValue nSpendTime, nSpendTime ≤ uint32Max ∧
    op ∈ (W.selectCoinsForStaking nTargetValue nSpendTime).outPoints) ∨
  (∃ nTargetValue nMinValue nMaxValue nSpendTime nMinConf, nSpendTime ≤ uint32Max ∧
    op ∈ (W.selectCoinsSimple nTargetValue nMinValue nMaxValue nSpendTime nMinConf).outPoints)

/-- A mature unspent output of the wallet's own that is final, or confirmed and not too small. -/
def Selectable (op : COutPoint) : Prop :=
  ∃ out ∈ W.unspent, out.outPoint = op ∧ out.fSpendable = true ∧
    W.getBlocksToMaturity out.tx ≤ 0 ∧ (W.isFinal out.tx.toCTransaction = true ∨
      (1 ≤ W.depth out.tx ∧ out.nValue ≥ W.nMinimumInputValue))

variable {W} {out : COutput} {nSpendTime : Nat} {e : Uint256 × WalletRecord}

theorem mem_stakeableOf : out ∈ W.stakeableOf nSpendTime e ↔
      out ∈ W.outputsOf e (W.depth e.2) (fun _ _ => true) ∧
      uint32 (e.2.nTime + getStakeMinAge W.env.fTestNet W.node.chain.nBestHeight : Nat)
        ≤ nSpendTime ∧
      W.getBlocksToMaturity e.2 ≤ 0 ∧ 1 ≤ W.depth e.2 ∧ out.nValue ≥ W.nMinimumInputValue := by
  rw [stakeableOf]
  split_ifs with htime hmature hdepth
  · simp only [not_mem_nil, false_iff]
    exact fun h => absurd h.2.1 (not_le.mpr htime)
  · simp [hmature]
  · simp [hdepth]
  rw [mem_outputsOf, decide_eq_true_eq]
  constructor
  · exact fun h => ⟨h.1, not_lt.mp htime, not_lt.mp hmature, not_lt.mp hdepth, h.2⟩
  · exact fun h => ⟨h.1, h.2.2.2.2⟩

theorem mem_minConfOf {nConf nMinValue nMaxValue : Int} :
    out ∈ W.minConfOf nConf nMinValue nMaxValue e ↔
      out ∈ W.outputsOf e (W.depth e.2) (fun _ _ => true) ∧
      W.isFinal e.2.toCTransaction = true ∧ nConf ≤ W.depth e.2 ∧
      nMinValue ≤ out.nValue ∧ out.nValue < nMaxValue := by
  rw [minConfOf]
  split_ifs with hfinal hdepth
  · have : W.isFinal e.2.toCTransaction = false := by simpa using hfinal
    simp [this]
  · simp [hdepth]
  · have : W.isFinal e.2.toCTransaction = true := by simpa using hfinal
    rw [mem_outputsOf]
    simp [this, not_lt.mp hdepth]

theorem selectable_of_selected {op : COutPoint} (h : W.SelectedAutomatically op) :
    W.Selectable op := by
  obtain ⟨nTargetValue, nSpendTime, _, _, -, hsel, hop⟩ | ⟨nTargetValue, nSpendTime, -, hop⟩ |
    ⟨nTargetValue, _, _, nSpendTime, _, -, hop⟩ := h
  · obtain ⟨out, hout, rfl⟩ := mem_map.mp hop
    obtain ⟨_, hcoins, _, _, _, hsel⟩ := selectCoins_cases hsel
    obtain ⟨hmem, hspend, -⟩ := mem_selectCoinsMinConf hsel hout
    obtain ⟨hunspent, hfinal, hmature, -⟩ := mem_availableCoins hcoins hmem
    exact ⟨out, hunspent, rfl, hspend, hmature, .inl hfinal⟩
  · obtain ⟨out, hout, rfl⟩ := mem_map.mp hop
    rcases mem_selectInOrder hout with hout | ⟨hout, hspend, -, -⟩
    · simp at hout
    obtain ⟨e, he, hout⟩ := mem_flatMap.mp hout
    obtain ⟨hmem, -, hmature, hdepth, hmin⟩ := mem_stakeableOf.mp hout
    rw [← (mem_outputsOf_all hmem).2.1] at hmature hdepth
    exact ⟨out, mem_unspent.mpr ⟨e, he, hmem⟩, rfl, hspend, hmature, .inr ⟨hdepth, hmin⟩⟩
  · obtain ⟨out, hout, rfl⟩ := mem_map.mp hop
    rcases mem_selectInOrder hout with hout | ⟨hout, hspend, hskip, -⟩
    · simp at hout
    obtain ⟨e, he, hout⟩ := mem_flatMap.mp hout
    obtain ⟨hmem, hfinal, -, -, -⟩ := mem_minConfOf.mp hout
    rw [← (mem_outputsOf_all hmem).2.1] at hfinal
    exact ⟨out, mem_unspent.mpr ⟨e, he, hmem⟩, rfl, hspend, by simpa using hskip, .inl hfinal⟩

theorem selected_of_selectable (hmod : W.Moderate) {op : COutPoint} (h : W.Selectable op) :
    W.SelectedAutomatically op := by
  obtain ⟨out, hunspent, rfl, hspend, hmature, hreason⟩ := h
  obtain ⟨e, he, hmem⟩ := mem_unspent.mp hunspent
  obtain ⟨-, htx, -, -⟩ := mem_outputsOf_all hmem
  have htime : out.tx.nTime ≤ uint32Max := by
    have := nTime_of_mem_unspent hunspent
    simp only [uint32Max]
    omega
  -- with a target that all coins together do not reach, every coin in question is taken
  have htakes : ∀ {vCoins : List COutput} (skip : COutput → Bool), vCoins.Sublist W.unspent →
      out ∈ vCoins → skip out = false → out.outPoint ∈
        (selectInOrder (2 ^ 62) uint32Max skip vCoins Selection.empty).outPoints := by
    intro vCoins skip hsub hout hskip
    refine (selectInOrder_takes (by decide) (fun x hx => hmod.nonneg x (hsub.mem hx)) le_rfl ?_).2
      out hout ⟨hspend, hskip, htime⟩
    simpa using (hmod.sound.sublist hsub).total
  rcases hreason with hfinal | ⟨hdepth, hmin⟩
  · have hlt : out.nValue < 2 ^ 62 := by
      simpa using (hmod.sound.sublist (singleton_sublist.mpr hunspent)).total
    refine .inr (.inr ⟨2 ^ 62, 0, 2 ^ 62, uint32Max, W.depth out.tx, le_rfl, ?_⟩)
    refine htakes _ (availableCoinsMinConf_sublist ..) ?_ (by simpa using hmature)
    rw [htx] at hfinal ⊢
    exact mem_flatMap.mpr
      ⟨e, he, mem_minConfOf.mpr ⟨hmem, hfinal, le_rfl, hmod.nonneg out hunspent, hlt⟩⟩
  · refine .inr (.inl ⟨2 ^ 62, uint32Max, le_rfl, ?_⟩)
    refine htakes _ (availableCoinsForStaking_sublist _) ?_ rfl
    rw [htx] at hdepth hmature
    exact mem_flatMap.mpr ⟨e, he, mem_stakeableOf.mpr
      ⟨hmem, Nat.le_pred_of_lt (uint32_lt _), hmature, hdepth, hmin⟩⟩

/-- The lock is kept exactly of the outputs that could not be selected anyway. -/
theorem locked_kept_iff (hmod : W.Moderate) :
    (∀ op ∈ W.setLockedCoins, ¬ W.SelectedAutomatically op) ↔
      ∀ op ∈ W.setLockedCoins, ¬ W.Selectable op := by
  constructor
  · exact fun h op hop hsel => h op hop (selected_of_selectable hmod hsel)
  · exact fun h op hop hsel => h op hop (selectable_of_selected hsel)

end WalletView

theorem lockedTime_lt : 1000 < 2 ^ 32 := by decide

def lockedWallet : WalletView := sampleWallet 1000 [5 * coin] [] [⟨100, 0⟩] lockedTime_lt

/-- A send, a coinstake and a merge all select the locked coin. -/
theorem locked_coin_selected :
    (⟨100, 0⟩ : COutPoint) ∈ lockedWallet.setLockedCoins ∧
    ((lockedWallet.selectCoins coin sampleTime [] fun _ => CoinChance.trivial).toOption.bind
      (Option.map Selection.outPoints)) = some [⟨100, 0⟩] ∧
    (lockedWallet.selectCoinsForStaking coin sampleTime).outPoints = [⟨100, 0⟩] ∧
    (lockedWallet.selectCoinsSimple coin 0 (10 * coin) sampleTime 1).outPoints = [⟨100, 0⟩] := by
  decide +kernel

theorem locked_kept_spent :
    let W : WalletView := sampleWallet 1000 [5 * coin, coin] [true] [⟨100, 0⟩] (by decide)
    W.Moderate ∧ ∀ op ∈ W.setLockedCoins, ¬ W.SelectedAutomatically op := by
  intro W
  have hmod : W.Moderate := ⟨by decide +kernel, by decide +kernel⟩
  refine ⟨hmod, (WalletView.locked_kept_iff hmod).mpr ?_⟩
  rintro op hop ⟨out, hout, rfl, -⟩
  have hmem : out.outPoint ∈ W.unspent.map COutput.outPoint := mem_map_of_mem hout
  rw [mem_singleton.mp hop] at hmem
  revert hmem
  decide

end HoboNickels

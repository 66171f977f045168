import HoboNickels.CreditCache

/-!
# Repairing the wallet

`FixSpentCoins` sets the flags of the wallet's own outputs as the transaction index has them, and
erases the coinbases and coinstakes that have left the main chain. `EraseFromWallet` returns at
once when the wallet has no file, and what is in the memory pool is no orphan.
-/

namespace HoboNickels

open List CWalletTx

structure FixReport where
  nMismatchFound : Nat
  nBalanceInQuestion : Int
  nOrphansFound : Nat
  deriving DecidableEq, Repr

def WalletRecord.isGenerated (wtx : WalletRecord) : Bool := wtx.isCoinBase || wtx.isCoinStake

namespace WalletView

variable (W : WalletView) (fFileBacked fCheckOnly : Bool)

variable (wtx : WalletRecord)

def txIndexOf : Option CTxIndex :=
  W.node.chain.db.readOnly.readTxIndex (W.env.txHash wtx.toCTransaction)

/-- Without an index `vSpent` is empty, and beyond its end nothing is spent. -/
def fNull (n : Nat) : Bool :=
  ((((W.txIndexOf wtx).map CTxIndex.vSpent).getD []).getD n .null).isNull

def ownOutput (n : Nat) : Bool :=
  wtx.vout[n]?.any fun txout => W.isMine txout.scriptPubKey ≠ .no

/-- One output. It is there, so neither `IsSpent` nor the marking throws. -/
def fixOutput (st : FixReport × WalletRecord) (n : Nat) : FixReport × WalletRecord :=
  let found (fSpent : Bool) : FixReport × WalletRecord :=
    ({ st.1 with
        nMismatchFound := st.1.nMismatchFound + 1
        nBalanceInQuestion := st.1.nBalanceInQuestion + (st.2.vout.getD n default).nValue },
      if fCheckOnly then st.2
      else { st.2 with vfSpent := (resizeSpent st.2.vfSpent st.2.vout.length).set n fSpent })
  if W.ownOutput st.2 n && st.2.vfSpent.getD n false && W.fNull st.2 n then found false
  else if W.ownOutput st.2 n && !st.2.vfSpent.getD n false && !W.fNull st.2 n then found true
  else st

/-- Whether the loop goes past `continue`. -/
def isChecked : Bool :=
  (W.txIndexOf wtx).isSome || wtx.isGenerated

/-- One transaction, with what it adds to the report. A coinbase or coinstake has outputs, so the
hash that is erased is its key. -/
def fixTransaction : FixReport × Option WalletRecord :=
  if !W.isChecked wtx then (⟨0, 0, 0⟩, some wtx)
  else
    let st := (range wtx.vout.length).foldl (W.fixOutput fCheckOnly) (⟨0, 0, 0⟩, wtx)
    if wtx.isGenerated && decide (W.depth wtx < 0) then
      ({ st.1 with nOrphansFound := 1 }, if !fCheckOnly && fFileBacked then none else some st.2)
    else (st.1, some st.2)

def fixSpentCoins (mapWallet : List (Uint256 × WalletRecord)) :
    FixReport × List (Uint256 × WalletRecord) :=
  let reports := mapWallet.map fun e => (W.fixTransaction fFileBacked fCheckOnly e.2).1
  (⟨(reports.map (·.nMismatchFound)).sum, (reports.map (·.nBalanceInQuestion)).sum,
      (reports.map (·.nOrphansFound)).sum⟩,
    mapWallet.filterMap fun e => (W.fixTransaction fFileBacked fCheckOnly e.2).2.map (e.1, ·))

variable {W fFileBacked fCheckOnly} {wtx wtx' : WalletRecord} {w : List (Uint256 × WalletRecord)}

/-- The flags of the own outputs are those of the index. -/
def FlagsRight (W : WalletView) (wtx : WalletRecord) : Prop :=
  ∀ n, W.ownOutput wtx n = true → wtx.vfSpent.getD n false = !W.fNull wtx n

theorem fixTransaction_fixed (hchain : wtx.isGenerated = true → 0 < W.depth wtx)
    (h : W.isChecked wtx = true → W.FlagsRight wtx) :
    W.fixTransaction fFileBacked fCheckOnly wtx = (⟨0, 0, 0⟩, some wtx) := by
  unfold fixTransaction
  split
  · rfl
  next hchecked =>
    have hflags := h (by simpa using hchecked)
    have hloop : (range wtx.vout.length).foldl (W.fixOutput fCheckOnly) (⟨0, 0, 0⟩, wtx) =
        (⟨0, 0, 0⟩, wtx) := by
      refine foldl_fixed' (fun n => ?_) _
      have hn := hflags n
      unfold fixOutput
      grind
    rw [hloop, if_neg]
    intro horphan
    obtain ⟨hgen, hdepth⟩ := Bool.and_eq_true_iff.mp horphan
    have := hchain hgen
    have := of_decide_eq_true hdepth
    omega

theorem lt_of_ownOutput {n : Nat} (h : W.ownOutput wtx n = true) : n < wtx.vout.length := by
  by_contra hn
  simp [ownOutput, getElem?_eq_none (Nat.le_of_not_lt hn)] at h

theorem fixOutput_flags (st : FixReport × WalletRecord) (n : Nat) :
    ∃ vfSpent, (W.fixOutput false st n).2 = { st.2 with vfSpent } ∧
      ∀ k, W.ownOutput st.2 k = true →
        vfSpent.getD k false = if k = n then !W.fNull st.2 k else st.2.vfSpent.getD k false := by
  have hset : ∀ f k, W.ownOutput st.2 k = true → W.ownOutput st.2 n = true →
      ((resizeSpent st.2.vfSpent st.2.vout.length).set n f).getD k false =
        if k = n then f else st.2.vfSpent.getD k false :=
    fun f _ hk hn => getD_set_resizeSpent _ f (lt_of_ownOutput hn) (lt_of_ownOutput hk)
  simp only [fixOutput, Bool.false_eq_true, if_false]
  split
  · exact ⟨_, rfl, by grind⟩
  split
  · exact ⟨_, rfl, by grind⟩
  refine ⟨st.2.vfSpent, rfl, fun k hk => ?_⟩
  split
  · cases hf : st.2.vfSpent.getD n false <;> simp_all
  · rfl

theorem foldl_fixOutput (ns : List Nat) : ∀ st : FixReport × WalletRecord,
    ∃ vfSpent, (ns.foldl (W.fixOutput false) st).2 = { st.2 with vfSpent } ∧
      ∀ k, W.ownOutput st.2 k = true →
        vfSpent.getD k false = if k ∈ ns then !W.fNull st.2 k else st.2.vfSpent.getD k false := by
  induction ns with
  | nil => exact fun st => ⟨st.2.vfSpent, rfl, fun k _ => by simp⟩
  | cons n ns ih =>
    intro st
    obtain ⟨vfFirst, hfirst, _⟩ := fixOutput_flags (W := W) st n
    obtain ⟨vfSpent, hrest, hflags⟩ := ih (W.fixOutput false st n)
    rw [hfirst] at hrest hflags
    refine ⟨vfSpent, hrest, fun k hk => (hflags k hk).trans ?_⟩
    have hnull : W.fNull { st.2 with vfSpent := vfFirst } k = W.fNull st.2 k := rfl
    grind

/-- A transaction that stays differs in its flags only, and those are right if it was checked. -/
theorem fixTransaction_some (h : (W.fixTransaction fFileBacked false wtx).2 = some wtx') :
    (∃ vfSpent, wtx' = { wtx with vfSpent }) ∧ (W.isChecked wtx = false → wtx' = wtx) ∧
      (W.isChecked wtx = true → W.FlagsRight wtx') := by
  obtain ⟨vfSpent, _, hflags⟩ :=
    foldl_fixOutput (W := W) (range wtx.vout.length) (⟨0, 0, 0⟩, wtx)
  unfold fixTransaction at h
  split at h
  next hchecked =>
    obtain rfl := Option.some.inj h
    exact ⟨⟨_, rfl⟩, fun _ => rfl, fun hc => by simp [hc] at hchecked⟩
  next hchecked =>
    have hwtx : wtx' = { wtx with vfSpent } := by grind
    subst hwtx
    refine ⟨⟨_, rfl⟩, fun hc => by simp [hc] at hchecked, fun _ k hk => (hflags k hk).trans ?_⟩
    exact if_pos (mem_range.mpr (lt_of_ownOutput hk))

theorem fixTransaction_eq_none : (W.fixTransaction fFileBacked false wtx).2 = none ↔
    wtx.isGenerated = true ∧ W.depth wtx < 0 ∧ fFileBacked = true := by
  unfold fixTransaction isChecked
  cases wtx.isGenerated <;> by_cases hdepth : W.depth wtx < 0 <;> cases fFileBacked <;>
    cases W.txIndexOf wtx <;> simp [hdepth]

theorem mem_fixSpentCoins {hash : Uint256} :
    (hash, wtx') ∈ (W.fixSpentCoins fFileBacked fCheckOnly w).2 ↔
      ∃ wtx, (hash, wtx) ∈ w ∧ (W.fixTransaction fFileBacked fCheckOnly wtx).2 = some wtx' := by
  simp [fixSpentCoins]

theorem fixSpentCoins_fixed
    (h : ∀ e ∈ w, W.fixTransaction fFileBacked fCheckOnly e.2 = (⟨0, 0, 0⟩, some e.2)) :
    W.fixSpentCoins fFileBacked fCheckOnly w = (⟨0, 0, 0⟩, w) := by
  have hreports : (w.map fun e => (W.fixTransaction fFileBacked fCheckOnly e.2).1) =
      w.map fun _ => ⟨0, 0, 0⟩ := map_congr_left fun e he => by rw [h e he]
  have hkept := filterMap_congr fun e he => congrArg (fun r => r.2.map (e.1, ·)) (h e he)
  simp [fixSpentCoins, hreports, hkept]

/-- **Repairing reaches a fixed point.** After the call the flags agree with the index, what is
generated is in the main chain, what is not checked is as it was, and a second call finds nothing,
exactly if each coinbase and coinstake was in the main chain, or was an orphan of a wallet with a
file. -/
theorem fixSpentCoins_settles_iff (W : WalletView) (fFileBacked : Bool) :
    (let mapWallet := (W.fixSpentCoins fFileBacked false W.mapWallet).2;
      (∀ e ∈ mapWallet, ∀ txindex, W.txIndexOf e.2 = some txindex → ∀ n txout,
        e.2.vout[n]? = some txout → W.isMine txout.scriptPubKey ≠ .no →
          e.2.isSpent n = .ok (!(txindex.vSpent.getD n .null).isNull)) ∧
      (∀ e ∈ mapWallet, e.2.isGenerated = true → 0 < W.depth e.2) ∧
      (∀ e, W.isChecked e.2 = false → (e ∈ mapWallet ↔ e ∈ W.mapWallet)) ∧
      ∀ fCheckOnly, W.fixSpentCoins fFileBacked fCheckOnly mapWallet = (⟨0, 0, 0⟩, mapWallet)) ↔
    ∀ e ∈ W.mapWallet, e.2.isGenerated = true →
      0 < W.depth e.2 ∨ W.depth e.2 < 0 ∧ fFileBacked = true := by
  constructor
  · rintro ⟨-, hchain, -⟩ ⟨hash, wtx⟩ he hgen
    by_contra hcond
    -- the transaction stays, whatever becomes of its flags
    have hstay : (W.fixTransaction fFileBacked false wtx).2 ≠ none := fun hnone =>
      hcond (.inr (fixTransaction_eq_none.mp hnone).2)
    obtain ⟨wtx', hfix⟩ := Option.ne_none_iff_exists'.mp hstay
    obtain ⟨⟨vfSpent, rfl⟩, -⟩ := fixTransaction_some hfix
    have hmem := mem_fixSpentCoins.mpr ⟨wtx, he, hfix⟩
    have hdepth := hchain _ hmem hgen
    exact hcond (.inl hdepth)
  intro hcond
  have hrepaired : ∀ e ∈ (W.fixSpentCoins fFileBacked false W.mapWallet).2,
      (e.2.isGenerated = true → 0 < W.depth e.2) ∧ (W.isChecked e.2 = true → W.FlagsRight e.2) := by
    rintro ⟨hash, wtx'⟩ he
    obtain ⟨wtx, hwtx, hfix⟩ := mem_fixSpentCoins.mp he
    obtain ⟨⟨vfSpent, rfl⟩, -, hflags⟩ := fixTransaction_some hfix
    refine ⟨fun hgen => ?_, hflags⟩
    rcases hcond _ hwtx hgen with hdepth | hdepth
    · exact hdepth
    · have hnone : (W.fixTransaction fFileBacked false wtx).2 = none :=
        fixTransaction_eq_none.mpr ⟨hgen, hdepth⟩
      cases hnone.symm.trans hfix
  refine ⟨?_, fun e he => (hrepaired e he).1, ?_, ?_⟩
  · intro e he txindex hindex n txout hout hmine
    have hflag := (hrepaired e he).2 (by simp [isChecked, hindex]) n
      (by simp [ownOutput, hout, hmine])
    rw [isSpent_eq_ok, hflag, fNull, hindex]
    exact ⟨(List.getElem?_eq_some_iff.mp hout).1, rfl⟩
  · rintro ⟨hash, wtx⟩ hchecked
    rw [mem_fixSpentCoins]
    constructor
    · rintro ⟨wtx', _, hfix⟩
      obtain ⟨⟨vfSpent, rfl⟩, hsame, -⟩ := fixTransaction_some hfix
      have hwtx : _ = wtx' := hsame hchecked
      rwa [hwtx]
    · exact fun he => ⟨wtx, he, by simp [fixTransaction, hchecked]⟩
  · intro fCheckOnly
    exact fixSpentCoins_fixed fun e he => (hrepaired e he).elim fixTransaction_fixed

end WalletView

theorem orphanedTime_lt : 1 < 2 ^ 32 := by decide

/-- A wallet whose only transaction is a coinbase of an unknown block. -/
def orphanedWallet : WalletView :=
  { sampleWallet 1 [1000] [] [] orphanedTime_lt with
    mapWallet := [(100, { sampleCoinRecord 100 1 [1000] [] with
      vin := [⟨.null, [], uint32Max⟩], hashBlock := 0 })]
    times := by simp [sampleCoinRecord]
    sorted := by simp
    keyed := by simp [sampleCoinRecord, sampleWallet, sampleEnv] }

theorem fixSpentCoins_keeps_orphan :
    orphanedWallet.fixSpentCoins false false orphanedWallet.mapWallet =
      (⟨0, 0, 1⟩, orphanedWallet.mapWallet) := by decide +kernel

end HoboNickels

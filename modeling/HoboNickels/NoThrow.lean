import HoboNickels.PoolConsistency

/-!
# ConnectBlock does not throw

`GetValueOut` throws when an amount is out of range, and `ConnectInputs` asserts that `FetchInputs`
has found every input. A block that has passed `CheckBlock` once has its amounts in range, whatever
the clock says now; so `ConnectBlock` may refuse such a block but does not throw.
-/

namespace HoboNickels

open Fallible

def Fail.IsReject : Fail → Prop
  | reject _ _ => True
  | throw _ => False

def CBlock.ValuesInRange (b : CBlock) : Prop := ∀ tx ∈ b.vtx, tx.getValueOut ≠ none

section CheckBlock

variable {env : Env} {tx : CTransaction} {b : CBlock}

theorem CTransaction.valueOutFrom_of_checkOutput {l : List CTxOut} {total v : Int}
    (h : l.foldlM (checkOutput tx) total = .ok v) : valueOutFrom total l = some v := by
  induction l generalizing total with
  | nil =>
    cases h
    rfl
  | cons out l ih =>
    obtain ⟨_, hout, h⟩ := bind_eq_ok.mp h
    simp only [checkOutput, bind_eq_ok, require_eq_ok] at hout
    obtain ⟨_, -, _, -, _, hlow, _, hhigh, _, hrange, hout⟩ := hout
    cases hout
    have hvalue : moneyRange out.nValue = true :=
      moneyRange_iff.mpr ⟨by simpa using hlow, by simpa using hhigh⟩
    rw [valueOutFrom, hvalue, hrange]
    exact ih h

theorem CTransaction.getValueOut_of_checked {now : Int} (h : tx.checkTransaction now = .ok ()) :
    tx.getValueOut ≠ none := by
  simp only [checkTransaction, bind_eq_ok] at h
  obtain ⟨_, -, _, -, _, -, _, -, v, hout, -⟩ := h
  rw [getValueOut, valueOutFrom_of_checkOutput hout]
  simp

theorem CBlock.valuesInRange_of_checked {now : Int} {f1 f2 f3 : Bool}
    (h : b.checkBlock env now f1 f2 f3 = .ok ()) : b.ValuesInRange ∧ b.vtx ≠ [] := by
  obtain ⟨_, _, hvtx, -⟩ := (checkBlock_ok h).coinbase_first
  refine ⟨?_, by simp [hvtx]⟩
  intro tx htx
  simp only [checkBlock, bind_eq_ok] at h
  obtain ⟨_, -, _, -, _, -, _, -, _, -, _, -, _, -, _, htxs, -⟩ := h
  exact CTransaction.getValueOut_of_checked (checkBlockTransaction_ok (forM_eq_ok.mp htxs tx htx))

theorem errs_valueOutOrThrow (h : tx.getValueOut ≠ none) :
    Errs Fail.IsReject (CBlock.valueOutOrThrow tx) := errs_demand fun hnone => absurd hnone h

theorem errs_checkTransaction (now : Int) : Errs Fail.IsReject (tx.checkTransaction now) := by
  iterate 4 refine errs_bind (errs_require trivial) fun _ _ => ?_
  refine errs_bind
    (errs_foldlM (fun _ => True) (fun s out _ _ => ⟨?_, fun _ _ => trivial⟩) 0 trivial)
    fun _ _ => errs_bind (errs_require trivial) fun _ _ => ?_
  · iterate 5 refine errs_bind (errs_require trivial) fun _ _ => ?_
    exact errs_ok _
  · split
    · exact errs_require trivial
    · exact errs_require trivial

/-- The block passes the checks before the one of its reward, which only a proof-of-work block
comes to. -/
def CBlock.reachesReward (env : Env) (now : Int) (b : CBlock) (fCheckPOW : Bool) : Bool :=
  !(b.vtx.isEmpty || decide (b.vtx.length > maxBlockSize)
      || decide (b.serializeSize > maxBlockSize)) &&
    !(fCheckPOW && b.isProofOfWork
      && !checkProofOfWork env.fTestNet (env.scryptBlockhash b.toCBlockHeader) b.nBits) &&
    !decide ((b.nTime : Int) > futureDrift now) && (b.vtx.headD default).isCoinBase &&
    !b.vtx.tail.any (·.isCoinBase) &&
    !decide ((b.nTime : Int) > futureDrift (b.vtx.headD default).nTime) && !b.isProofOfStake

/-- **CheckBlock** throws only at the reward, which it reads before it checks the amounts. -/
theorem errs_checkBlock_or (now : Int) (f1 f2 f3 : Bool) :
    Errs (fun e => e.IsReject ∨ b.reachesReward env now f1 = true ∧
      (b.vtx.headD default).getValueOut = none) (b.checkBlock env now f1 f2 f3) := by
  iterate 6 refine errs_bind (errs_require (.inl trivial)) fun _ _ => ?_
  refine errs_bind ?_ fun _ _ => errs_bind (errs_forM fun tx _ => ?_) fun _ _ => ?_
  · rw [CBlock.checkKindRules]
    split
    · iterate 3 refine errs_bind (errs_require (.inl trivial)) fun _ _ => ?_
      exact errs_require (.inl trivial)
    refine errs_bind (errs_demand fun hnone => .inr ⟨?_, hnone⟩)
      fun _ _ => errs_require (.inl trivial)
    simp_all [CBlock.reachesReward]
  · rw [CBlock.checkBlockTransaction]
    have htx := @errs_checkTransaction tx now
    split
    · exact errs_error (.inl trivial)
    next message hthrow => exact absurd (htx _ hthrow) id
    · exact errs_require (.inl trivial)
  · iterate 2 refine errs_bind (errs_require (.inl trivial)) fun _ _ => ?_
    exact errs_require (.inl trivial)

theorem errs_checkBlock (hvalues : b.ValuesInRange) (now : Int) (f1 f2 f3 : Bool) :
    Errs Fail.IsReject (b.checkBlock env now f1 f2 f3) := by
  intro e he
  rcases errs_checkBlock_or now f1 f2 f3 e he with hreject | ⟨hreach, hnone⟩
  · exact hreject
  -- the size check leaves no empty block
  rcases hvtx : b.vtx with _ | ⟨coinbase, _⟩
  · simp [CBlock.reachesReward, hvtx] at hreach
  · exact absurd (by simpa [hvtx] using hnone) (hvalues coinbase (by simp [hvtx]))

theorem CTransaction.valueOutFrom_ne_none {l : List CTxOut} {total : Int} :
    valueOutFrom total l ≠ none ↔ ∀ pre out post, l = pre ++ out :: post →
      moneyRange out.nValue = true ∧
        moneyRange (total + (pre.map (·.nValue)).sum + out.nValue) = true := by
  induction l generalizing total with
  | nil => simp [valueOutFrom]
  | cons first l ih =>
    rw [valueOutFrom]
    constructor
    · intro h pre out post heq
      split at h
      next hfirst =>
        rcases pre with _ | ⟨x, pre⟩
        · obtain ⟨rfl, rfl⟩ := List.cons.inj heq
          simpa using hfirst
        · obtain ⟨rfl, rfl⟩ := List.cons.inj heq
          simpa [add_assoc] using ih.mp h pre out post rfl
      · exact absurd rfl h
    · intro h
      have hfirst := h [] first l rfl
      simp only [List.map_nil, List.sum_nil, add_zero] at hfirst
      rw [if_pos (by simp [hfirst])]
      refine ih.mpr fun pre out post heq => ?_
      simpa [add_assoc] using h (first :: pre) out post (by rw [heq]; rfl)

/-- **CheckBlock decides every block** but a proof-of-work block that passes the earlier checks and
whose coinbase pays an amount or a total out of range. -/
theorem CBlock.checkBlock_decides_iff (env : Env) (now : Int) (b : CBlock) (f₁ f₂ f₃ : Bool) :
    (∀ message, b.checkBlock env now f₁ f₂ f₃ ≠ .error (.throw message)) ↔
      (b.reachesReward env now f₁ = true →
        ∀ pre out post, (b.vtx.headD default).vout = pre ++ out :: post →
          moneyRange out.nValue = true ∧
            moneyRange ((pre.map (·.nValue)).sum + out.nValue) = true) := by
  have hvalues := @CTransaction.valueOutFrom_ne_none (b.vtx.headD default).vout 0
  simp only [zero_add] at hvalues
  rw [← hvalues]
  constructor
  · intro h hreach hnone
    refine h "CTransaction::GetValueOut() : value out of range" ?_
    have hvalue : (b.vtx.headD default).getValueOut = none := hnone
    simp only [reachesReward, Bool.and_eq_true] at hreach
    obtain ⟨⟨⟨⟨⟨⟨hsize, hwork⟩, htime⟩, hfirst⟩, hothers⟩, hearly⟩, hkind⟩ := hreach
    rw [checkBlock, hsize, hwork, htime, hfirst, hothers, hearly, checkKindRules,
      if_neg (by simpa using hkind), checkWorkReward, valueOutOrThrow, hvalue]
    rfl
  · intro h message hthrow
    rcases errs_checkBlock_or now f₁ f₂ f₃ _ hthrow with hreject | ⟨hreach, hnone⟩
    · exact hreject
    · exact h hreach hnone

/-- A coinbase that pays one satoshi more than all the money there can be. -/
theorem checkBlock_exits_by_exception :
    (sampleBlock 2 1 [sampleCoinbase 2 (maxMoney + 1)]).checkBlock sampleEnv sampleTime
        true true true = .error (.throw "CTransaction::GetValueOut() : value out of range") := by
  decide +kernel

end CheckBlock

section ConnectInputs

variable {env : Env} {w : World} {tx : CTransaction}

theorem errs_fetchInputs (c : FetchContext) : Errs Fail.IsReject (fetchInputs env w c tx) := by
  have hloop : ∀ (l : List CTxIn) (i : Nat) (inputs : MapPrevTx),
      Errs Fail.IsReject (fetchInputsFrom env w c tx i l inputs) := by
    intro l
    induction l with
    | nil => exact fun i inputs => errs_ok inputs
    | cons txin l ih =>
      intro i inputs
      refine errs_bind ?_ fun inputs' _ => ih (i + 1) inputs'
      simp only [fetchInput]
      repeat' split
      all_goals first | exact errs_ok _ | exact errs_error trivial
  rw [fetchInputs]
  split
  · exact errs_ok _
  · exact errs_bind (hloop _ _ _) fun _ _ => errs_bind (errs_require trivial) fun _ _ => errs_ok _

variable {inputs : MapPrevTx}

variable {c : ConnectContext}

theorem errs_checkInput {txin : CTxIn} (h : inputs txin.prevout.hash ≠ none) (v : Int) :
    Errs Fail.IsReject (checkInput env c inputs tx v txin) := by
  rw [checkInput]
  split
  next hnone => exact absurd hnone h
  · iterate 4 refine errs_bind (errs_require trivial) fun _ _ => ?_
    exact errs_ok _

theorem errs_spendInputsFrom (l : List CTxIn) :
    ∀ (i : Nat) (st : SpendState), (∀ txin ∈ l, st.inputs txin.prevout.hash ≠ none) →
      Errs Fail.IsReject (spendInputsFrom env c tx i l st) := by
  induction l with
  | nil => exact fun i st _ => errs_ok st
  | cons txin l ih =>
    intro i st hall
    refine errs_bind ?_ fun st' hst' => ih (i + 1) st' fun txin' htxin' => ?_
    · rw [spendInput]
      split
      next hnone => exact absurd hnone (hall txin List.mem_cons_self)
      refine errs_bind (errs_require trivial) fun _ _ => errs_bind ?_ fun _ _ => errs_ok _
      rw [checkScript]
      repeat' split
      all_goals first | exact errs_ok _ | exact errs_error trivial
    · obtain ⟨_, _, -, -, hinputs, -⟩ := spendInput_cases hst'
      rw [hinputs]
      by_cases hhash : txin'.prevout.hash = txin.prevout.hash
      · simp [hhash]
      · rw [Function.update_of_ne hhash]
        exact hall txin' (List.mem_cons_of_mem _ htxin')

theorem errs_connectInputs {changes : QueuedChanges}
    {db : CTxDB} {nBestHeight : Int} (hvalue : tx.getValueOut ≠ none)
    (hfound : ∀ txin ∈ tx.vin, inputs txin.prevout.hash ≠ none) :
    Errs Fail.IsReject (connectInputs env w db nBestHeight c inputs changes tx) := by
  rw [connectInputs]
  split
  · exact errs_ok _
  refine errs_bind (errs_foldlM (fun _ => True)
    (fun v txin htxin _ => ⟨errs_checkInput (hfound txin htxin) v, fun _ _ => trivial⟩) 0 trivial)
    fun _ _ => errs_bind (errs_spendInputsFrom _ _ _ hfound) fun _ _ => errs_bind ?_
      fun _ _ => errs_ok _
  rw [checkReward]
  split
  · refine errs_bind (errs_demand fun _ => trivial) fun _ _ =>
      errs_bind (errs_valueOutOrThrow hvalue) fun _ _ => errs_require trivial
  refine errs_bind (errs_valueOutOrThrow hvalue) fun _ _ => ?_
  iterate 3 refine errs_bind (errs_require trivial) fun _ _ => ?_
  exact errs_require trivial

end ConnectInputs

variable {env : Env} {w : World} {s : ChainState} {mempool : Uint256 → Option CTransaction}
  {b : CBlock} {pindex : CBlockIndex}

/-- **ConnectBlock** refuses a block with its amounts in range, or accepts it. -/
theorem errs_connectBlock (hvalues : b.ValuesInRange) :
    Errs Fail.IsReject (s.connectBlock env w mempool b pindex) := by
  refine errs_bind (errs_checkBlock hvalues _ _ _ _) fun _ _ => errs_bind
    (errs_foldlM (fun _ => True) (fun st tx htx _ => ⟨?_, fun _ _ => trivial⟩) _ trivial)
    fun _ _ => errs_bind (errs_require trivial) fun _ _ => errs_ok _
  have hvalue := hvalues tx htx
  iterate 2 refine errs_bind (errs_require trivial) fun _ _ => ?_
  refine errs_bind ?_ fun _ _ => errs_ok _
  rw [connectTxValues]
  split
  · exact errs_bind (errs_valueOutOrThrow hvalue) fun _ _ => errs_ok _
  rename_i hcb
  refine errs_bind (errs_fetchInputs _) fun inputs hfetch => ?_
  have hrange := (fetchInputs_ok rfl (by simpa using hcb) hfetch).2
  refine errs_bind (errs_require trivial) fun _ _ =>
    errs_bind (errs_valueOutOrThrow hvalue) fun _ _ => errs_bind ?_ fun _ _ => errs_ok _
  refine errs_connectInputs hvalue fun txin htxin hnone => ?_
  simpa [MapPrevTx.inRange, hnone] using hrange txin htxin

end HoboNickels

import HoboNickels.CreditCache

/-!
# Two ways to a balance

`GetBalance` adds the outputs of trusted transactions that are not flagged as spent. The call
`getbalance '*'` adds what each trusted transaction received and takes off what it sent and its fee;
the comment there says that with `minconf` 0 both "should return the same number".

The second way skips a transaction that is not trusted, where the first sees the flags of what it
spends (`spent_untrusted_differs`). `getbalance_star_eq` says that nothing else sets the two apart.
-/

namespace HoboNickels

open Fallible List CachedTx CachedAmount CTxOut IsMineFilter

namespace CachedTx

/-- What `GetAmounts` returns, without the addresses. -/
structure Amounts where
  listReceived : List Int
  listSent : List Int
  nFee : Int

variable (r : CachedTx) (filter : IsMineFilter)

def getAmounts : Except String Amounts := do
  let nDebit ← (r.getDebit filter).2
  let nFee ← if nDebit > 0 then
      match r.wtx.getValueOut with
      | some nValueOut => pure (nDebit - nValueOut)
      | none => throw "CTransaction::GetValueOut() : value out of range"
    else pure 0
  let isMine (txout : CTxOut) := filter.has (r.pwallet.isMine txout.scriptPubKey)
  let listed := r.wtx.vout.filter fun txout =>
    !txout.scriptPubKey.isEmpty && if nDebit > 0 then !r.pwallet.isChange txout else isMine txout
  return {
    listReceived := (listed.filter isMine).map nValue
    listSent := if nDebit > 0 then listed.map nValue else []
    nFee }

/-- One round of the loop of `getbalance '*'`. -/
def starAmount (nMinDepth : Int) : Except String Int := do
  let amounts ← r.getAmounts filter
  let nReceived := if r.nDepth ≥ nMinDepth ∧ r.getBlocksToMaturity = 0 then amounts.listReceived.sum
    else 0
  return nReceived - amounts.listSent.sum - amounts.nFee

end CachedTx

def OwnerWallet.worth (pwallet : OwnerWallet) (txout : CTxOut) : Int :=
  if pwallet.isMine txout.scriptPubKey = .spendable then txout.nValue else 0

namespace WalletView

variable (W : WalletView) (book : CScript → Bool)

def owner : OwnerWallet where
  isMine := W.isMine
  inAddressBook := book
  mapWallet hash := (W.mapWallet.find? fun e => e.1 == hash).map fun e => e.2.toCWalletTx

def record (wtx : WalletRecord) : CachedTx :=
  ⟨W.env.fTestNet, wtx.toCWalletTx, .init, W.owner book, W.depth wtx⟩

/-- The loops over the trusted transactions of the wallet. -/
def sumTrusted (amount : WalletRecord → Except String Int) :
    List (Uint256 × WalletRecord) → Except String Int
  | [] => .ok 0
  | e :: rest => do
    let nAmount ← if ← W.isTrusted e.2 then amount e.2 else pure 0
    let nRest ← sumTrusted amount rest
    return nAmount + nRest

def getBalance : Except String Int :=
  W.sumTrusted (fun wtx => ((W.record book wtx).getAvailableCredit true).2) W.mapWallet

def getbalanceStar (filter : IsMineFilter) (nMinDepth : Int) : Except String Int :=
  W.sumTrusted (fun wtx => (W.record book wtx).starAmount filter nMinDepth) W.mapWallet

/-! ## When they agree -/

/-- The spendable output of a wallet transaction that an outpoint names. -/
def ownCoin (o : COutPoint) : Option CTxOut :=
  (((W.owner book).mapWallet o.hash).bind (·.vout[o.n]?)).filter
    fun txout => W.isMine txout.scriptPubKey = .spendable

def coinValue (o : COutPoint) : Int := ((W.ownCoin book o).map nValue).getD 0

def debitSum (vin : List CTxIn) : Int := (vin.map fun txin => W.coinValue book txin.prevout).sum

def isMature (wtx : WalletRecord) : Bool :=
  decide ((W.record book wtx).getBlocksToMaturity = 0)

def trusted : List (Uint256 × WalletRecord) :=
  W.mapWallet.filter fun e => (W.isTrusted e.2).toOption = some true

def spends : List COutPoint :=
  W.trusted.flatMap fun e => (e.2.vin.map CTxIn.prevout).filter
    fun o => (W.ownCoin book o).isSome

def flagged : List COutPoint :=
  (W.trusted.filter fun e => W.isMature book e.2).flatMap fun e =>
    (e.2.vout.zipIdx.filter fun x => e.2.vfSpent.getD x.2 false &&
      decide (W.isMine x.1.scriptPubKey = .spendable)).map fun x => ⟨e.1, x.2⟩

structure Settled : Prop where
  decided : ∀ e ∈ W.mapWallet, ∃ f, W.isTrusted e.2 = .ok f
  nonneg : ∀ e ∈ W.trusted, ∀ txout ∈ e.2.vout, 0 ≤ txout.nValue
  coins : ∀ e ∈ W.mapWallet, ∀ txout ∈ e.2.vout, W.isMine txout.scriptPubKey = .spendable →
    0 ≤ txout.nValue
  valueOut : ∀ e ∈ W.trusted, (e.2.vout.map nValue).sum ≤ maxMoney
  debit : ∀ e ∈ W.trusted, W.debitSum book e.2.vin ≤ maxMoney
  /-- Coins are flagged as spent one for one as trusted transactions spend them. -/
  spent : (W.spends book).Perm (W.flagged book)
  /-- Outputs without a script carry nothing, if they are spendable or the transaction spends
  coins. -/
  empty : ∀ e ∈ W.trusted, ∀ txout ∈ e.2.vout, txout.scriptPubKey.isEmpty →
    W.isMine txout.scriptPubKey = .spendable ∨ 0 < W.debitSum book e.2.vin → txout.nValue = 0
  /-- Change of a transaction that spends coins is spendable, and an immature one has none. -/
  change : ∀ e ∈ W.trusted, 0 < W.debitSum book e.2.vin →
    ∀ txout ∈ e.2.vout, (W.owner book).isChange txout → txout.nValue = 0 ∨
      W.isMine txout.scriptPubKey = .spendable ∧ W.isMature book e.2

section Sums

variable {α : Type}

theorem sum_map_filter (p : α → Bool) (g : α → Int) (l : List α) :
    ((l.filter p).map g).sum = (l.map fun x => if p x then g x else 0).sum := by
  induction l with
  | nil => rfl
  | cons x rest ih => by_cases hx : p x <;> simp [hx, ih]

theorem sum_map_flatMap {β : Type} (f : α → List β) (g : β → Int) (l : List α) :
    ((l.flatMap f).map g).sum = (l.map fun x => ((f x).map g).sum).sum := by
  induction l with
  | nil => rfl
  | cons x rest ih => simp [ih]

theorem sum_map_nonneg {l : List α} {f : α → Int} (h : ∀ x ∈ l, 0 ≤ f x) : 0 ≤ (l.map f).sum :=
  sum_nonneg fun a ha => by
    obtain ⟨x, hx, rfl⟩ := mem_map.mp ha
    exact h x hx

theorem sum_balance {l : List α} {f g f' g' : α → Int} (h : ∀ x ∈ l, f x + g x = f' x + g' x) :
    (l.map f).sum + (l.map g).sum = (l.map f').sum + (l.map g').sum := by
  rw [← sum_map_add, ← sum_map_add]
  exact congrArg sum (map_congr_left h)

end Sums

variable {W book}

theorem has_mineSpendable (t : IsMineType) : mineSpendable.has t = decide (t = .spendable) := by
  cases t <;> rfl

theorem debitOf_eq (txin : CTxIn) :
    ((W.owner book).keys .mineSpendable).debitOf (W.owner book).mapWallet txin =
      W.coinValue book txin.prevout := by
  unfold KeyStore.debitOf coinValue ownCoin
  cases (W.owner book).mapWallet txin.prevout.hash with
  | none => rfl
  | some prev =>
    dsimp only [Option.bind_some]
    cases prev.vout[txin.prevout.n]? with
    | none => rfl
    | some txout =>
      by_cases hm : W.isMine txout.scriptPubKey = .spendable <;>
        simp [OwnerWallet.keys, owner, has_mineSpendable, hm, Option.filter]

theorem coinValue_nonneg (h : W.Settled book) (o : COutPoint) : 0 ≤ W.coinValue book o := by
  unfold coinValue
  cases ho : W.ownCoin book o with
  | none => simp
  | some txout =>
    obtain ⟨hb, hmine⟩ := Option.filter_eq_some_iff.mp ho
    obtain ⟨_, hp, hn⟩ := Option.bind_eq_some_iff.mp hb
    obtain ⟨e, he, rfl⟩ := Option.map_eq_some_iff.mp hp
    exact h.coins e (mem_of_find?_eq_some he) txout (mem_of_getElem? hn) (of_decide_eq_true hmine)

theorem debitSum_nonneg (h : W.Settled book) (vin : List CTxIn) : 0 ≤ W.debitSum book vin :=
  sum_map_nonneg fun txin _ => coinValue_nonneg h txin.prevout

theorem debitFrom_eq (h : W.Settled book) {vin : List CTxIn} {acc : Int} (hacc : 0 ≤ acc)
    (hsum : acc + W.debitSum book vin ≤ maxMoney) :
    ((W.owner book).keys .mineSpendable).debitFrom (W.owner book).mapWallet acc vin =
      .ok (acc + W.debitSum book vin) := by
  have hmap : vin.map (((W.owner book).keys .mineSpendable).debitOf (W.owner book).mapWallet) =
      vin.map fun txin => W.coinValue book txin.prevout :=
    map_congr_left fun txin _ => debitOf_eq txin
  rw [debitSum, ← hmap] at hsum ⊢
  refine KeyStore.debitFrom_eq hacc (fun txin _ => ?_) hsum
  rw [debitOf_eq]
  exact coinValue_nonneg h txin.prevout

theorem availableFrom_eq {pwallet : OwnerWallet} (msg : String) {l : List (CTxOut × Bool)}
    {acc : Int} (hacc : 0 ≤ acc) (hnonneg : ∀ x ∈ l, 0 ≤ x.1.nValue)
    (hsum : acc + (l.map fun x => x.1.nValue).sum ≤ maxMoney) :
    pwallet.availableFrom .mineSpendable msg acc l =
      .ok (acc + (l.map fun x => if x.2 then 0 else pwallet.worth x.1).sum) := by
  induction l generalizing acc with
  | nil => simp [OwnerWallet.availableFrom]
  | cons x rest ih =>
    obtain ⟨txout, fSpent⟩ := x
    have hv := hnonneg _ (mem_cons_self)
    have hr : ∀ x ∈ rest, 0 ≤ x.1.nValue := fun x hx => hnonneg x (mem_cons_of_mem _ hx)
    have hrest : 0 ≤ (rest.map fun x => x.1.nValue).sum := sum_map_nonneg hr
    rw [map_cons, sum_cons] at hsum
    dsimp only at hv hsum
    cases fSpent with
    | true => simpa [OwnerWallet.availableFrom] using ih hacc hr (by omega)
    | false =>
      have hworth : 0 ≤ pwallet.worth txout ∧ pwallet.worth txout ≤ txout.nValue := by
        unfold OwnerWallet.worth
        split <;> omega
      simp only [OwnerWallet.availableFrom, has_mineSpendable, decide_eq_true_eq]
      change (do
        require (moneyRange txout.nValue) _
        require (moneyRange (acc + pwallet.worth txout)) msg
        pwallet.availableFrom .mineSpendable msg (acc + pwallet.worth txout) rest) = _
      rw [moneyRange_iff.mpr ⟨hv, by omega⟩, moneyRange_iff.mpr ⟨by omega, by omega⟩]
      exact (ih (by omega) hr (by omega)).trans (by simp [add_assoc])

/-! ### One transaction -/

section Record

variable {e : Uint256 × WalletRecord}

def coinSum (W : WalletView) (book : CScript → Bool) (fSpent : Bool) (wtx : WalletRecord) : Int :=
  if W.isMature book wtx then (wtx.vout.zipIdx.map fun x =>
    if wtx.vfSpent.getD x.2 false = fSpent then (W.owner book).worth x.1 else 0).sum
  else 0

theorem isTrusted_of_mem (he : e ∈ W.trusted) : W.isTrusted e.2 = .ok true := by
  have ht := of_mem_filter he
  cases hw : W.isTrusted e.2 with
  | error msg => simp [hw, Except.toOption] at ht
  | ok f => simpa [hw, Except.toOption] using ht

theorem depth_nonneg (he : e ∈ W.trusted) : 0 ≤ W.depth e.2 := by
  have ht := isTrusted_of_mem he
  unfold isTrusted at ht
  by_contra hneg
  have h1 : ¬ W.depth e.2 ≥ 1 := by omega
  by_cases hf : W.isFinal e.2.toCTransaction <;> simp [hf, h1, not_le.mp hneg] at ht

theorem isImmature_eq (wtx : WalletRecord) :
    (W.record book wtx).isImmature = !W.isMature book wtx := by
  unfold CachedTx.isImmature isMature CachedTx.getBlocksToMaturity
  by_cases hg : (W.record book wtx).wtx.isCoinBase || (W.record book wtx).wtx.isCoinStake
  · simp only [hg, if_true, Bool.true_and, ← decide_not]
    exact decide_eq_decide.mpr (by omega)
  · simp [hg]

theorem coinSum_add (wtx : WalletRecord) : W.coinSum book false wtx + W.coinSum book true wtx =
      if W.isMature book wtx then (wtx.vout.map (W.owner book).worth).sum else 0 := by
  unfold coinSum
  split
  · have hv : wtx.vout = wtx.vout.zipIdx.map Prod.fst := by simp
    conv_rhs => rw [hv, map_map]
    rw [← sum_map_add]
    refine congrArg sum (map_congr_left fun x _ => ?_)
    cases wtx.vfSpent.getD x.2 false <;> simp
  · rfl

theorem getDebit_eq (h : W.Settled book) (he : e ∈ W.trusted) :
    ((W.record book e.2).getDebit .mineSpendable).2 =
      .ok (W.debitSum book e.2.vin) := by
  have hd := debitFrom_eq h le_rfl ((zero_add _).trans_le (h.debit e he))
  unfold getDebit
  split
  next hvin =>
    have : e.2.vin = [] := isEmpty_iff.mp hvin
    simp [debitSum, this]
  next =>
    have : (W.record book e.2).pwallet.getDebit .mineSpendable
        (W.record book e.2).wtx.toCTransaction = .ok (W.debitSum book e.2.vin) := by
      simpa [OwnerWallet.getDebit, record] using hd
    rw [this]
    simp [record, CreditCaches.init, init, Except.map, reuseIf, reuse, mineSpendable]

theorem getAvailableCredit_eq (h : W.Settled book) (he : e ∈ W.trusted) :
    ((W.record book e.2).getAvailableCredit true).2 =
      .ok (W.coinSum book false e.2) := by
  unfold getAvailableCredit coinSum
  rw [isImmature_eq]
  cases W.isMature book e.2 with
  | false => rfl
  | true =>
    have hpairs : ∀ x ∈ (W.record book e.2).outputs, 0 ≤ x.1.nValue := by
      intro x hx
      obtain ⟨y, hy, rfl⟩ := mem_map.mp hx
      exact h.nonneg e he _ (fst_mem_of_mem_zipIdx hy)
    have hsum : ((W.record book e.2).outputs.map fun x => x.1.nValue) =
        e.2.vout.map nValue := by
      simp only [outputs, record, map_map]
      exact (map_map (f := Prod.fst)).symm.trans (by simp)
    have ha : (W.record book e.2).availableSum = _ := availableFrom_eq _ le_rfl hpairs
      (by rw [hsum, zero_add]; exact h.valueOut e he)
    simp only [ha, reuse]
    simp only [record, CreditCaches.init, init, outputs, map_map, zero_add]
    refine congrArg (Except.ok ∘ sum) (map_congr_left fun x _ => ?_)
    dsimp only [Function.comp_apply]
    cases e.2.vfSpent.getD x.2 false <;> rfl

theorem starAmount_sum (pwallet : OwnerWallet) {vout : List CTxOut} (fMature : Bool)
    (hempty : ∀ txout ∈ vout, txout.scriptPubKey.isEmpty → txout.nValue = 0)
    (hchange : ∀ txout ∈ vout, pwallet.isChange txout → txout.nValue = 0 ∨
      pwallet.isMine txout.scriptPubKey = .spendable ∧ fMature) :
    let listed := vout.filter fun txout =>
      !txout.scriptPubKey.isEmpty && !pwallet.isChange txout
    (if fMature then ((listed.filter fun txout =>
        mineSpendable.has (pwallet.isMine txout.scriptPubKey)).map nValue).sum
      else 0) + (vout.map nValue).sum =
    (if fMature then (vout.map pwallet.worth).sum else 0) + (listed.map nValue).sum := by
  intro listed
  simp only [listed, filter_filter, sum_map_filter, has_mineSpendable]
  have hout : ∀ txout ∈ vout, (!txout.scriptPubKey.isEmpty && !pwallet.isChange txout) = false →
      txout.nValue = 0 ∨ pwallet.isMine txout.scriptPubKey = .spendable ∧ fMature := by
    intro txout hmem hl
    by_cases he : txout.scriptPubKey.isEmpty
    · exact .inl (hempty txout hmem he)
    · exact hchange txout hmem (by simpa [he] using hl)
  cases fMature with
  | true =>
    refine sum_balance fun txout hmem => ?_
    cases hl : !txout.scriptPubKey.isEmpty && !pwallet.isChange txout with
    | true => simp [OwnerWallet.worth]
    | false => rcases hout txout hmem hl with _ | ⟨_, -⟩ <;> simp [OwnerWallet.worth, *]
  | false =>
    simp only [Bool.false_eq_true, if_false, zero_add]
    refine congrArg sum (map_congr_left fun txout hmem => ?_)
    cases hl : !txout.scriptPubKey.isEmpty && !pwallet.isChange txout with
    | true => simp
    | false => simpa using hout txout hmem hl

theorem starAmount_eq (h : W.Settled book) (he : e ∈ W.trusted) :
    (W.record book e.2).starAmount .mineSpendable 0 =
      .ok (W.coinSum book false e.2 + W.coinSum book true e.2
        - W.debitSum book e.2.vin) := by
  rw [coinSum_add]
  have hd := getDebit_eq h he
  have hvout : (W.record book e.2).wtx.getValueOut = _ :=
    CTransaction.getValueOut_of (h.nonneg e he) (h.valueOut e he)
  have hdepth : (W.record book e.2).nDepth ≥ 0 := depth_nonneg he
  have hmature : (0 ≤ (W.record book e.2).nDepth ∧
      (W.record book e.2).getBlocksToMaturity = 0) ↔ W.isMature book e.2 := by
    simp [isMature, hdepth]
  simp only [starAmount, getAmounts, hd, bind, Except.bind, pure, Except.pure,
    ge_iff_le, hmature, hvout]
  by_cases hpos : W.debitSum book e.2.vin > 0
  · have hsum := starAmount_sum (W.owner book) (W.isMature book e.2)
      (fun txout hmem hs => h.empty e he txout hmem hs (.inr hpos)) (h.change e he hpos)
    simp only [hpos, if_true]
    refine congrArg Except.ok ?_
    dsimp only [record] at hsum ⊢
    omega
  · have hzero : W.debitSum book e.2.vin = 0 :=
      le_antisymm (not_lt.mp hpos) (debitSum_nonneg h e.2.vin)
    simp only [hpos, if_false]
    refine congrArg Except.ok ?_
    rw [hzero, filter_filter, sum_map_filter]
    simp only [sum_nil, sub_zero]
    congr 1
    refine congrArg sum (map_congr_left fun txout hmem => ?_)
    have h0 := h.empty e he txout hmem
    by_cases hm : W.isMine txout.scriptPubKey = .spendable <;>
      by_cases hs : txout.scriptPubKey.isEmpty <;>
        simp_all [record, owner, has_mineSpendable, OwnerWallet.worth]

end Record

/-! ### All transactions -/

variable {l : List (Uint256 × WalletRecord)}

theorem sumTrusted_eq {amount : WalletRecord → Except String Int} {g : WalletRecord → Int}
    (hd : ∀ e ∈ l, ∃ f, W.isTrusted e.2 = .ok f)
    (hg : ∀ e ∈ l, W.isTrusted e.2 = .ok true → amount e.2 = .ok (g e.2)) :
    W.sumTrusted amount l = .ok ((l.filter fun e => (W.isTrusted e.2).toOption = some true).map
      fun e => g e.2).sum := by
  induction l with
  | nil => rfl
  | cons e rest ih =>
    have hr := ih (fun e he => hd e (by simp [he])) (fun e he => hg e (by simp [he]))
    obtain ⟨f, hf⟩ := hd e (by simp)
    cases f with
    | false => simp [sumTrusted, hf, hr, Except.toOption, pure, Except.pure, bind, Except.bind]
    | true =>
      simp [sumTrusted, hf, hr, hg e (by simp) hf, Except.toOption, pure, Except.pure, bind,
        Except.bind]

theorem sum_debits : (W.trusted.map fun e => W.debitSum book e.2.vin).sum =
    ((W.spends book).map (W.coinValue book)).sum := by
  rw [spends, sum_map_flatMap]
  refine congrArg sum (map_congr_left fun e _ => ?_)
  rw [sum_map_filter, map_map]
  refine congrArg sum (map_congr_left fun txin _ => ?_)
  by_cases hs : (W.ownCoin book txin.prevout).isSome
  · simp [hs]
  · simp [coinValue, Option.not_isSome_iff_eq_none.mp hs]

variable {e : Uint256 × WalletRecord}

theorem find?_of_sorted (hs : l.Pairwise fun a b => a.1 < b.1)
    (he : e ∈ l) : l.find? (fun x => x.1 == e.1) = some e := by
  induction l with
  | nil => cases he
  | cons x rest ih =>
    obtain ⟨hx, hrest⟩ := pairwise_cons.mp hs
    rcases mem_cons.mp he with rfl | hmem
    · simp
    · have hne : x.1 ≠ e.1 := ne_of_lt (hx e hmem)
      simpa [hne] using ih hrest hmem

theorem sum_flagged : (W.trusted.map fun e => W.coinSum book true e.2).sum =
    ((W.flagged book).map (W.coinValue book)).sum := by
  rw [flagged, sum_map_flatMap, sum_map_filter]
  refine congrArg sum (map_congr_left fun e he => ?_)
  unfold coinSum
  split
  · rw [map_map, sum_map_filter]
    refine congrArg sum (map_congr_left fun x hx => ?_)
    have hi := mem_zipIdx_iff_getElem?.mp hx
    by_cases hm : W.isMine x.1.scriptPubKey = .spendable
    · have hfind := find?_of_sorted W.sorted (mem_of_mem_filter he)
      have hv : W.coinValue book ⟨e.1, x.2⟩ = x.1.nValue := by
        simp [coinValue, ownCoin, owner, hfind, hi, hm, Option.filter]
      simp [hm, hv, OwnerWallet.worth, owner]
    · simp [hm, OwnerWallet.worth, owner]
  · rfl

/-- **`getbalance` and `getbalance '*' 0` return the same number** in a wallet whose flags match
its trusted transactions. -/
theorem getbalance_star_eq (h : W.Settled book) :
    ∃ nBalance, W.getbalanceStar book .mineSpendable 0 = .ok nBalance ∧
      W.getBalance book = .ok nBalance := by
  have hmem : ∀ e ∈ W.mapWallet, W.isTrusted e.2 = .ok true → e ∈ W.trusted := fun e he ht =>
    mem_filter.mpr ⟨he, by simp [ht, Except.toOption]⟩
  refine ⟨_, sumTrusted_eq (g := fun wtx => W.coinSum book false wtx +
      W.coinSum book true wtx - W.debitSum book wtx.vin) h.decided
      fun e he ht => starAmount_eq h (hmem e he ht), ?_⟩
  rw [getBalance, sumTrusted_eq h.decided fun e he ht => getAvailableCredit_eq h (hmem e he ht)]
  have hspent := sum_debits.trans ((h.spent.map _).sum_eq.trans sum_flagged.symm)
  have hsplit : (W.trusted.map fun e => W.coinSum book false e.2 + W.coinSum book true e.2 -
        W.debitSum book e.2.vin).sum + (W.trusted.map fun e => W.debitSum book e.2.vin).sum =
      (W.trusted.map fun e => W.coinSum book false e.2).sum +
        (W.trusted.map fun e => W.coinSum book true e.2).sum := sum_balance fun e _ => by ring
  refine congrArg Except.ok ?_
  change (W.trusted.map _).sum = (W.trusted.map _).sum
  omega

end WalletView

def spendingWallet (hashBlock : Uint256) : WalletView :=
  { sampleWallet 1 [1000] [true] [] (by decide) with
    mapWallet := [(100, sampleCoinRecord 100 1 [1000] [true]),
      (101, { sampleCoinRecord 101 1 [900] [] with vin := [⟨⟨100, 0⟩, [], uint32Max⟩], hashBlock })]
    times := by simp [sampleCoinRecord]
    sorted := by simp
    keyed := by simp [sampleCoinRecord, sampleWallet, sampleEnv] }

/-- The transaction is not trusted, and the coin it spent counts for `getbalance '*'`. -/
theorem spent_untrusted_differs :
    (spendingWallet 0).getbalanceStar (fun _ => true) .mineSpendable 0 = .ok 1000 ∧
      (spendingWallet 0).getBalance (fun _ => true) = .ok 0 := ⟨rfl, rfl⟩

theorem getbalance_star_eq_spending : (spendingWallet 1).spends (fun _ => true) = [⟨100, 0⟩] ∧
    ∃ nBalance,
      (spendingWallet 1).getbalanceStar (fun _ => true) .mineSpendable 0 = .ok nBalance ∧
      (spendingWallet 1).getBalance (fun _ => true) = .ok nBalance :=
  ⟨rfl, WalletView.getbalance_star_eq
    { decided := by
        intro e he
        rcases mem_cons.mp he with rfl | he
        · exact ⟨true, rfl⟩
        · exact ⟨true, by rw [mem_singleton.mp he]; rfl⟩
      nonneg := by decide +kernel
      coins := by decide +kernel
      valueOut := by decide +kernel
      debit := by decide +kernel
      spent := by decide +kernel
      empty := by decide +kernel
      change := by decide +kernel }⟩

/-! ## Account by account -/

structure AccountAmounts where
  nReceived : Int
  nSent : Int
  nFee : Int

def AccountAmounts.net (x : AccountAmounts) : Int := x.nReceived - x.nSent - x.nFee

namespace CachedTx

variable (r : CachedTx) (filter : IsMineFilter)

def receives (txout : CTxOut) : Bool := filter.has (r.pwallet.isMine txout.scriptPubKey)

/-- The outputs behind `listReceived`. -/
def received (nDebit : Int) : List CTxOut :=
  (r.wtx.vout.filter fun txout => !txout.scriptPubKey.isEmpty &&
    if nDebit > 0 then !r.pwallet.isChange txout else r.receives filter txout).filter
      (r.receives filter)

/-- `account` looks the address of a script up in `mapAddressBook`. -/
def getAccountAmounts (account : CScript → Option String) (strFromAccount strAccount : String) :
    Except String AccountAmounts := do
  let nDebit ← (r.getDebit filter).2
  let amounts ← r.getAmounts filter
  return {
    nReceived := (((r.received filter nDebit).filter fun txout =>
      (account txout.scriptPubKey).getD "" = strAccount).map nValue).sum
    nSent := if strAccount = strFromAccount then amounts.listSent.sum else 0
    nFee := if strAccount = strFromAccount then amounts.nFee else 0 }

/-- Outputs without a script are passed over, and so is change, under the filter or not. -/
def Overlooked (nDebit : Int) (txout : CTxOut) : Prop :=
  if nDebit > 0 then
    ¬r.receives filter txout ∧ (txout.scriptPubKey.isEmpty ∨ r.pwallet.isChange txout)
  else r.receives filter txout ∧ txout.scriptPubKey.isEmpty

end CachedTx

theorem sum_accounts {name : CTxOut → String} {names : Finset String} {l : List CTxOut}
    (h : ∀ txout ∈ l, name txout ∈ names) :
    ∑ a ∈ names, ((l.filter fun txout => name txout = a).map nValue).sum =
      (l.map nValue).sum := by
  induction l with
  | nil => simp
  | cons txout rest ih =>
    simp only [WalletView.sum_map_filter, map_cons, sum_cons, Finset.sum_add_distrib,
      decide_eq_true_eq, Finset.sum_ite_eq, h txout mem_cons_self, if_true] at ih ⊢
    rw [ih fun x hx => h x (mem_cons_of_mem _ hx)]

theorem sum_map_eq_iff {l : List CTxOut} {f g : CTxOut → Int} (h : ∀ x ∈ l, f x ≤ g x) :
    (l.map f).sum = (l.map g).sum ↔ ∀ x ∈ l, f x = g x := by
  induction l with
  | nil => simp
  | cons x rest ih =>
    have hx := h x mem_cons_self
    have hrest : ∀ y ∈ rest, f y ≤ g y := fun y hy => h y (mem_cons_of_mem _ hy)
    have hle : (rest.map f).sum ≤ (rest.map g).sum := sum_le_sum hrest
    rw [forall_mem_cons, ← ih hrest, map_cons, map_cons, sum_cons, sum_cons]
    omega

/-- What the accounts have adds up to the credit of the outputs less the debit, exactly if nothing
of value is overlooked. `names` are any that include the accounts of the sender and the outputs. -/
theorem accounts_balance_iff {r : CachedTx} {filter : IsMineFilter} {nDebit : Int}
    (hdebit : (r.getDebit filter).2 = .ok nDebit) (hrange : 0 ≤ nDebit)
    (hnonneg : ∀ txout ∈ r.wtx.vout, 0 ≤ txout.nValue)
    (hsum : (r.wtx.vout.map nValue).sum ≤ maxMoney) {account : CScript → Option String}
    {strFromAccount : String} {names : Finset String} (hfrom : strFromAccount ∈ names)
    (hnames : ∀ txout ∈ r.wtx.vout, (account txout.scriptPubKey).getD "" ∈ names) :
    ∃ amounts : String → AccountAmounts,
      (∀ a, r.getAccountAmounts filter account strFromAccount a = .ok (amounts a)) ∧
      (∑ a ∈ names, (amounts a).net =
          ((r.wtx.vout.filter (r.receives filter)).map nValue).sum - nDebit ↔
        ∀ txout ∈ r.wtx.vout, r.Overlooked filter nDebit txout → txout.nValue = 0) := by
  have hvout : r.wtx.getValueOut = _ := CTransaction.getValueOut_of hnonneg hsum
  have hrec : ∀ txout ∈ r.received filter nDebit, (account txout.scriptPubKey).getD "" ∈ names :=
    fun txout hmem => hnames txout (mem_of_mem_filter (mem_of_mem_filter hmem))
  simp only [getAccountAmounts, getAmounts, hdebit, hvout, bind, Except.bind,
    pure, Except.pure, CachedTx.Overlooked]
  by_cases hpos : nDebit > 0
  all_goals
    simp only [hpos, if_true, if_false]
    refine ⟨_, fun a => rfl, ?_⟩
    simp only [AccountAmounts.net, Finset.sum_sub_distrib, Finset.sum_ite_eq', hfrom, if_true,
      sum_accounts hrec]
    simp only [received, hpos, if_true, if_false, filter_filter, WalletView.sum_map_filter]
  · have hle := sum_map_eq_iff (f := fun x => (if r.receives filter x then x.nValue else 0) +
        if !x.scriptPubKey.isEmpty && !r.pwallet.isChange x then x.nValue else 0)
      (g := fun x => (if r.receives filter x && (!x.scriptPubKey.isEmpty && !r.pwallet.isChange x)
        then x.nValue else 0) + x.nValue)
      fun x hx => by have := hnonneg x hx; grind
    rw [sum_map_add, sum_map_add] at hle
    refine Iff.trans (by omega) (hle.trans (forall₂_congr fun x hx => ?_))
    grind
  · rw [show nDebit = 0 by omega, sum_nil, sub_zero, sub_zero, sub_zero,
      sum_map_eq_iff fun x hx => by have := hnonneg x hx; grind]
    refine forall₂_congr fun x hx => ?_
    grind

/-- Change of 900 to a watched address. -/
def watchedChange : CachedTx where
  fTestNet := false
  wtx := { (sampleCoinRecord 101 1 [] []).toCWalletTx with vout := [⟨900, [0x52]⟩] }
  caches := .init
  pwallet := {
    isMine script := if script = [0x51] then .spendable else .watchOnly
    inAddressBook _ := false
    mapWallet _ := some (sampleCoinRecord 100 1 [1000] []).toCWalletTx }
  nDepth := 1

/-- Of the spendable coins 1000 is gone, and the only account knows of a fee of 100. -/
theorem accounts_miss_change :
    (watchedChange.getDebit .mineSpendable).2 = .ok 1000 ∧
      watchedChange.wtx.vout.filter (watchedChange.receives .mineSpendable) = [] ∧
      watchedChange.getAccountAmounts .mineSpendable (fun _ => none) "" "" = .ok ⟨0, 0, 100⟩ :=
  ⟨rfl, rfl, rfl⟩

theorem accounts_balance_iff_watched : ∃ amounts : String → AccountAmounts,
    (∀ a, watchedChange.getAccountAmounts .mineAll (fun _ => none) "" a = .ok (amounts a)) ∧
      ∑ a ∈ {""}, (amounts a).net = 900 - 1000 := by
  obtain ⟨amounts, hok, hnet⟩ := @accounts_balance_iff watchedChange .mineAll 1000 rfl (by decide)
    (by decide) (by decide) (fun _ => none) "" {""} (by decide) (by decide)
  refine ⟨amounts, hok, hnet.mpr ?_⟩
  simp [watchedChange, CachedTx.Overlooked, receives, has, mineAll]

end HoboNickels

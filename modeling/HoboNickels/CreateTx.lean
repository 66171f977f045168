import HoboNickels.Selection

/-!
# Making a transaction

`CWallet::CreateTransaction`. Each round of its loop makes the outputs, selects coins for the
amounts and the fee so far, gives the change to a new output or to the fee, signs, and looks at the
size; if the fee does not suffice, another round is made, at most 101 (`createFrom_rounds`).

The fee is added to the sum of the amounts without a check for overflow. If the sum wraps around,
coins are selected for a negative target and a transaction without inputs is made
(`overflow_unbalanced`). The accounts balance exactly if the amounts asked for do not exceed the
coins available (`createTransaction_conserves_iff`). The priority is left out.
-/

namespace HoboNickels

open Fallible List COutput WalletView Prod Except

/-- `CCoinControl`; `destChange` is the script of the custom address for change, if any. -/
structure CoinControl where
  setSelected : List COutPoint
  destChange : Option CScript

/-- The wallet and its settings as `CreateTransaction` finds them. The fee is an amount that
`ParseMoney` can return. -/
structure Sender where
  view : WalletView
  nTransactionFee : Int
  feeRange : 0 ≤ nTransactionFee ∧ nTransactionFee ≤ 10 ^ 10 * coin
  fSplitBlock : Bool
  /-- The script of `strStakeForCharityChangeAddress`, if that is valid. -/
  charityChange : Option CScript
  /-- The script that pays the key of `GetReservedKey`, if there is one. -/
  reservedKey : Option CScript
  /-- `SignSignature(txFrom, txTo, nIn)`: the script for the input. -/
  signSignature : CTransaction → CTransaction → Nat → Option CScript

structure SendRequest where
  vecSend : List (CScript × Int)
  nTime : Nat
  nSplitBlock : Int
  fAllowS4C : Bool
  coinControl : Option CoinControl

/-- The random choices of each round: those of `SelectCoins`, the order of the set of coins, and the
position of the change. -/
structure SendChance where
  select : Nat → Nat → CoinChance
  order : Nat → Rearrangement
  position : Nat → Nat

structure Created where
  tx : CTransaction
  coins : List COutput
  nFeeRet : Int
  deriving DecidableEq

def sumAmounts : Int → List (CScript × Int) → Option Int
  | nValue, [] => if nValue < 0 then none else some nValue
  | nValue, s :: vecSend =>
    if nValue < 0 then none else sumAmounts (int64 (nValue + s.2)) vecSend

namespace SendRequest

variable (q : SendRequest)

def setSelected : List COutPoint := (q.coinControl.map CoinControl.setSelected).getD []

/-- The pieces of a payment: the last one takes the remainder. -/
def pieces (s : CScript × Int) : List CTxOut :=
  let nSplitBlock := max 1 q.nSplitBlock
  List.replicate (nSplitBlock - 1).toNat ⟨s.2.tdiv nSplitBlock, s.1⟩
    ++ [⟨s.2.tdiv nSplitBlock + s.2.tmod nSplitBlock, s.1⟩]

def payees (fSplitBlock : Bool) : List CTxOut :=
  if !fSplitBlock then q.vecSend.map fun s => ⟨s.2, s.1⟩ else q.vecSend.flatMap q.pieces

end SendRequest

/-- Change that is too small is moved to the fee; `nChange` and `nFeeRet` after it. -/
def moveToFee (nChange nFeeRet : Int) : Int × Int :=
  let moved :=
    if nFeeRet < minTxFee ∧ nChange > 0 ∧ nChange < cent then
      let nMoveToFee := min nChange (minTxFee - nFeeRet)
      (nChange - nMoveToFee, nFeeRet + nMoveToFee)
    else (nChange, nFeeRet)
  if moved.1 > 0 ∧ moved.1 < minTxoutAmount then (0, int64 (moved.2 + moved.1)) else moved

def signInputs (sign : CTransaction → CTransaction → Nat → Option CScript) :
    Nat → List CTransaction → CTransaction → Option CTransaction
  | _, [], tx => some tx
  | i, prev :: rest, tx =>
    match sign prev tx i with
    | none => none
    | some scriptSig =>
      signInputs sign (i + 1) rest
        { tx with vin := tx.vin.modify i (fun txin => { txin with scriptSig := scriptSig }) }

inductive Round where
  | failed
  | again (nFeeRet : Int)
  | done (c : Created)
  deriving DecidableEq

namespace Sender

variable (s : Sender) (q : SendRequest) (r : SendChance)

/-- The script for the change; there is none if the assertion on the reserved key fails. -/
def scriptChange : Option CScript :=
  match (if q.fAllowS4C then s.charityChange else none),
    q.coinControl.bind CoinControl.destChange with
  | some script, _ => some script
  | none, some script => some script
  | none, none => s.reservedKey

/-- The outputs of a round: the payees, and the change at a random position. -/
def outputs (k : Nat) (nChange : Int) : Except String (List CTxOut) :=
  let vout := q.payees s.fSplitBlock
  if nChange > 0 then do
    let script ← demand (s.scriptChange q) "reservekey.GetReservedKey(vchPubKey)"
    return vout.insertIdx (r.position k % vout.length) ⟨nChange, script⟩
  else .ok vout

def feeFor (tx : CTransaction) : Int :=
  max (int64 (s.nTransactionFee * (1 + (tx.serializeSize : Int) / 1000)))
    (tx.getMinFee 1 tx.serializeSize)

/-- The end of a round, with the transaction filled and not signed. -/
def signAndCheck (coins : List COutput) (tx : CTransaction) (nFeeRet : Int) : Round :=
  match signInputs s.signSignature 0 (coins.map fun coin => coin.tx.toCTransaction) tx with
  | none => .failed
  | some tx =>
    if tx.serializeSize ≥ maxBlockSizeGen / 5 then .failed
    else if nFeeRet < s.feeFor tx then .again (s.feeFor tx)
    else .done ⟨tx, coins, nFeeRet⟩

def round (nValue : Int) (k : Nat) (nFeeRet : Int) : Except String Round := do
  let selected ← s.view.selectCoins (int64 (nValue + nFeeRet)) q.nTime q.setSelected (r.select k)
  match selected with
  | none => return .failed
  | some sel =>
    let moved := moveToFee (int64 (int64 (sel.nValue - nValue) - nFeeRet)) nFeeRet
    let vout ← s.outputs q r k moved.1
    let coins := (r.order k).toFun sel.setCoins
    let vin := coins.map fun coin =>
      (⟨⟨s.view.env.txHash coin.tx.toCTransaction, coin.i⟩, [], uint32Max⟩ : CTxIn)
    return s.signAndCheck coins ⟨1, q.nTime, vin, vout, 0⟩ moved.2

def createFrom (nValue : Int) : Nat → Nat → Int → Except String (Option Created)
  | 0, _, _ => .ok none
  | rounds + 1, k, nFeeRet => do
    let result ← s.round q r nValue k nFeeRet
    match result with
    | .failed => return none
    | .again nFeeRet => createFrom nValue rounds (k + 1) nFeeRet
    | .done c => return some c

/-- `CWallet::CreateTransaction`; `none` when it returns false. -/
def createTransaction : Except String (Option Created) :=
  match sumAmounts 0 q.vecSend with
  | none => .ok none
  | some nValue =>
    if q.vecSend.isEmpty then .ok none else s.createFrom q r nValue 101 0 s.nTransactionFee

end Sender

/-! ## Amounts -/

theorem sumAmounts_eq {vecSend : List (CScript × Int)} {nValue total : Int}
    (hamounts : ∀ p ∈ vecSend, 0 < p.2 ∧ p.2 < 2 ^ 63) (hlo : 0 ≤ nValue) (hhi : nValue < 2 ^ 63)
    (h : sumAmounts nValue vecSend = some total) :
    total = nValue + (vecSend.map snd).sum ∧ total < 2 ^ 63 := by
  induction vecSend generalizing nValue with
  | nil =>
    rw [sumAmounts, if_neg (by omega)] at h
    rw [← Option.some.inj h]
    exact ⟨by simp, hhi⟩
  | cons p vecSend ih =>
    obtain ⟨_, _⟩ := hamounts p (by simp)
    rw [sumAmounts, if_neg (by omega)] at h
    by_cases hfits : nValue + p.2 < 2 ^ 63
    · rw [int64_of_range (by omega) hfits] at h
      have := ih (fun x hx => hamounts x (by simp [hx])) (by omega) hfits h
      simpa [add_assoc] using this
    -- the sum is negative now, and nothing after it succeeds
    have hneg : int64 (nValue + p.2) < 0 := by
      rw [int64, Int.bmod_def]
      omega
    cases vecSend <;> simp [sumAmounts, hneg] at h

def amountTo (payee : CScript → Bool) (outs : List CTxOut) : Int :=
  ((outs.filter fun out => payee out.scriptPubKey).map CTxOut.nValue).sum

theorem amountTo_append (payee : CScript → Bool) (outs outs' : List CTxOut) :
    amountTo payee (outs ++ outs') = amountTo payee outs + amountTo payee outs' := by
  simp [amountTo]

namespace SendRequest

variable (q : SendRequest)

variable (payee : CScript → Bool) (fSplitBlock : Bool)

def requested : Int :=
  ((q.vecSend.filter fun p => payee p.1).map snd).sum

theorem amountTo_pieces (p : CScript × Int) : amountTo payee (q.pieces p) = if payee p.1 then p.2
    else 0 := by
  have hpos : (0 : Int) ≤ max 1 q.nSplitBlock - 1 := by omega
  have hsum := Int.mul_tdiv_add_tmod p.2 (max 1 q.nSplitBlock)
  rw [pieces, amountTo_append]
  by_cases hto : payee p.1 = true
  · simp only [amountTo, filter_replicate, hto, if_true, map_replicate,
      sum_replicate, filter_cons, filter_nil, map_cons, map_nil,
      sum_cons, sum_nil, nsmul_eq_mul, Int.natCast_toNat_eq_self.mpr hpos]
    linarith
  · simp [amountTo, hto]

theorem amountTo_payees : amountTo payee (q.payees fSplitBlock) = q.requested payee := by
  cases fSplitBlock with
  | false => simp [payees, amountTo, requested, filter_map, Function.comp_def]
  | true =>
    simp only [payees, Bool.not_true, Bool.false_eq_true, if_false, requested]
    induction q.vecSend with
    | nil => simp [amountTo]
    | cons p vecSend ih =>
      rw [flatMap_cons, amountTo_append, amountTo_pieces, ih]
      by_cases hto : payee p.1 = true
      · simp [hto]
      · simp [hto]

theorem payees_length_pos (h : q.vecSend ≠ []) : 0 < (q.payees fSplitBlock).length := by
  obtain ⟨p, vecSend, hp⟩ := exists_cons_of_ne_nil h
  cases fSplitBlock with
  | false => simp [payees, hp]
  | true => simp [payees, hp, pieces]

end SendRequest

/-! ## Change and fee -/

def feeCap : Int := 10 ^ 18

theorem moveToFee_spec {nChange nFeeRet : Int} (hlo : 0 ≤ nFeeRet) (hhi : nFeeRet ≤ feeCap) :
    (moveToFee nChange nFeeRet).1 + (moveToFee nChange nFeeRet).2 = nChange + nFeeRet ∧
      nFeeRet ≤ (moveToFee nChange nFeeRet).2 ∧
      (0 ≤ nChange → 0 ≤ (moveToFee nChange nFeeRet).1) ∧
      (0 < (moveToFee nChange nFeeRet).1 → minTxoutAmount ≤ (moveToFee nChange nFeeRet).1) := by
  have hcap : feeCap = 10 ^ 18 := rfl
  have hout : minTxoutAmount = 1000 := rfl
  have hcent : cent = 10000 := rfl
  rw [moveToFee]
  split_ifs with hsub hdust hdust
  · rw [int64_of_range (by dsimp only; omega) (by dsimp only; omega)]
    dsimp only at hdust ⊢
    omega
  · dsimp only at hdust ⊢
    omega
  · rw [int64_of_range (by dsimp only; omega) (by dsimp only at hdust ⊢; omega)]
    omega
  · omega

theorem signInputs_eq_some {sign : CTransaction → CTransaction → Nat → Option CScript}
    {prevs : List CTransaction} {i : Nat} {tx tx' : CTransaction}
    (h : signInputs sign i prevs tx = some tx') :
    tx'.nVersion = tx.nVersion ∧ tx'.nTime = tx.nTime ∧ tx'.vout = tx.vout ∧
      tx'.vin.map CTxIn.prevout = tx.vin.map CTxIn.prevout := by
  induction prevs generalizing i tx tx' with
  | nil =>
    rw [← Option.some.inj h]
    exact ⟨rfl, rfl, rfl, rfl⟩
  | cons prev rest ih =>
    rw [signInputs] at h
    split at h
    · cases h
    obtain ⟨hversion, htime, hout, hin⟩ := ih h
    refine ⟨hversion, htime, hout, ?_⟩
    rw [hin]
    apply ext_getElem?
    intro j
    simp only [getElem?_map, getElem?_modify]
    split <;> simp [Function.comp_def]

namespace Sender

variable {s : Sender} {q : SendRequest} {r : SendChance}

def feeAt (s : Sender) (n : Nat) : Int := max s.nTransactionFee minTxFee * (1 + n)

variable {tx : CTransaction}

section

variable (hsize : tx.serializeSize < maxBlockSizeGen / 5)
include hsize

theorem payFee_eq : int64 (s.nTransactionFee * (1 + (tx.serializeSize : Int) / 1000)) =
      s.nTransactionFee * (1 + (tx.serializeSize : Int) / 1000) := by
  have hlimit : maxBlockSizeGen / 5 = 100000 := rfl
  have hcoin : (coin : Int) = 1000000 := rfl
  obtain ⟨hlo, hhi⟩ := s.feeRange
  have hmul : s.nTransactionFee * (1 + (tx.serializeSize : Int) / 1000) ≤ 10 ^ 10 * coin * 100 :=
    mul_le_mul hhi (by omega) (by omega) (by omega)
  have hnonneg : 0 ≤ s.nTransactionFee * (1 + (tx.serializeSize : Int) / 1000) :=
    mul_nonneg hlo (by omega)
  exact int64_of_range (by omega) (by omega)

theorem getMinFee_size :
    tx.getMinFee 1 tx.serializeSize = minTxFee * (1 + (tx.serializeSize : Int) / 1000) := by
  have hlimit : maxBlockSizeGen / 5 = 100000 := rfl
  have hmin : minTxFee = 1000 := rfl
  have hrange : moneyRange ((1 + (tx.serializeSize : Int) / 1000) * minTxFee) = true := by
    rw [moneyRange_iff, hmin, maxMoney, coin]
    constructor <;> omega
  have hbase : ¬ (1 + (tx.serializeSize : Int) / 1000) * minTxFee < minTxFee := by
    rw [hmin]
    omega
  rw [mul_comm minTxFee]
  simp [CTransaction.getMinFee, hbase, hrange]

theorem feeFor_eq :
    s.feeFor tx = s.feeAt (tx.serializeSize / 1000) ∧ tx.serializeSize / 1000 < 100 := by
  have hlimit : maxBlockSizeGen / 5 = 100000 := rfl
  constructor
  · rw [feeFor, payFee_eq hsize, getMinFee_size hsize, ← max_mul_of_nonneg _ _ (by omega)]
    rfl
  · omega

end

theorem feeAt_range {n : Nat} (hn : n < 100) : 0 ≤ s.feeAt n ∧ s.feeAt n ≤ feeCap := by
  obtain ⟨_, _⟩ := s.feeRange
  have hcoin : (coin : Int) = 1000000 := rfl
  have hmin : minTxFee = 1000 := rfl
  have hcap : feeCap = 10 ^ 18 := rfl
  have hmax : max s.nTransactionFee minTxFee ≤ 10 ^ 10 * coin := by omega
  have hle : max s.nTransactionFee minTxFee * (1 + (n : Int)) ≤ 10 ^ 10 * coin * 100 :=
    mul_le_mul hmax (by omega) (by omega) (by omega)
  rw [feeAt]
  exact ⟨mul_nonneg (by omega) (by omega), by omega⟩

theorem feeAt_mono {m n : Nat} (h : m ≤ n) : s.feeAt m ≤ s.feeAt n := by
  have hmin : minTxFee = 1000 := rfl
  exact mul_le_mul_of_nonneg_left (by omega) (by omega)

/-! ## The rounds -/

structure Built (s : Sender) (q : SendRequest) (r : SendChance) (nValue : Int) (k : Nat)
    (nFeeRet : Int) (sel : Selection) (c : Created) : Prop where
  selected : s.view.selectCoins (int64 (nValue + nFeeRet)) q.nTime q.setSelected (r.select k) =
    .ok (some sel)
  coins : c.coins = (r.order k).toFun sel.setCoins
  fee : c.nFeeRet = (moveToFee (int64 (int64 (sel.nValue - nValue) - nFeeRet)) nFeeRet).2
  outputs : s.outputs q r k
    (moveToFee (int64 (int64 (sel.nValue - nValue) - nFeeRet)) nFeeRet).1 = .ok c.tx.vout
  prevouts : c.tx.vin.map CTxIn.prevout =
    c.coins.map fun coin => ⟨s.view.env.txHash coin.tx.toCTransaction, coin.i⟩
  time : c.tx.nTime = q.nTime
  size : c.tx.serializeSize < maxBlockSizeGen / 5
  enough : s.feeFor c.tx ≤ c.nFeeRet

theorem round_cases {nValue nFeeRet : Int} {k : Nat} {result : Round}
    (h : s.round q r nValue k nFeeRet = .ok result) :
    result = .failed ∨
    (∃ tx : CTransaction, tx.serializeSize < maxBlockSizeGen / 5 ∧ result = .again (s.feeFor tx) ∧
      ∃ nChange, (moveToFee nChange nFeeRet).2 < s.feeFor tx) ∨
    ∃ c sel, result = .done c ∧ s.Built q r nValue k nFeeRet sel c := by
  obtain ⟨selected, hselected, h⟩ := bind_eq_ok.mp h
  cases selected with
  | none => exact .inl (ok.inj h).symm
  | some sel =>
    obtain ⟨_, hvout, h⟩ := bind_eq_ok.mp h
    have h := ok.inj h
    rw [signAndCheck] at h
    split at h
    · exact .inl h.symm
    rename_i tx hsign
    obtain ⟨-, htime, hout, hin⟩ := signInputs_eq_some hsign
    split at h
    · exact .inl h.symm
    rename_i hsize
    split at h
    next hfee => exact .inr (.inl ⟨tx, not_le.mp hsize, h.symm, _, hfee⟩)
    rename_i hfee
    refine .inr (.inr ⟨_, sel, h.symm, ?_⟩)
    constructor
    · exact hselected
    · rfl
    · rfl
    · rw [hvout, hout]
    · rw [hin]
      simp
    · exact htime
    · exact not_le.mp hsize
    · exact not_lt.mp hfee

/-- A fee within the limits that is enough for `n` thousand bytes. -/
structure Covers (s : Sender) (n : Nat) (nFeeRet : Int) : Prop where
  size : n ≤ 100
  enough : ∀ m < n, s.feeAt m ≤ nFeeRet
  nonneg : 0 ≤ nFeeRet
  le_cap : nFeeRet ≤ feeCap

theorem covers_start : s.Covers 0 s.nTransactionFee := by
  obtain ⟨hlo, _⟩ := s.feeRange
  have hcoin : (coin : Int) = 1000000 := rfl
  have hcap : feeCap = 10 ^ 18 := rfl
  exact ⟨by omega, by omega, hlo, by omega⟩

/-- A round is made again only with a fee for a greater size. -/
theorem round_again {nValue nFeeRet nFeeRet' : Int} {k n : Nat} (hc : s.Covers n nFeeRet)
    (h : s.round q r nValue k nFeeRet = .ok (.again nFeeRet')) :
    nFeeRet < nFeeRet' ∧ nFeeRet' ≤ s.feeAt 99 ∧ ∃ n' > n, s.Covers n' nFeeRet' := by
  obtain hfail | ⟨tx, hsize, heq, nChange, hgrows⟩ | ⟨c, _, hdone, -⟩ := round_cases h
  · cases hfail
  · rw [Round.again.inj heq]
    obtain ⟨hfee, hlt⟩ := feeFor_eq hsize
    have hkept : nFeeRet ≤ (moveToFee nChange nFeeRet).2 :=
      (moveToFee_spec hc.nonneg hc.le_cap).2.1
    have hmax : s.feeAt (tx.serializeSize / 1000) ≤ s.feeAt 99 := feeAt_mono (by omega)
    rw [← hfee] at hmax
    refine ⟨hkept.trans_lt hgrows, hmax, tx.serializeSize / 1000 + 1, ?_, ?_⟩
    · -- the size is one that the fee did not cover
      by_contra hsmall
      have := hc.enough (tx.serializeSize / 1000) (by omega)
      omega
    · obtain ⟨hlo, hhi⟩ := feeAt_range hlt
      rw [hfee]
      exact ⟨by omega, fun m hm => feeAt_mono (by omega), hlo, hhi⟩
  · cases hdone

/-- 101 rounds are as good as any greater number. -/
theorem createFrom_rounds {nValue : Int} :
    ∀ {rounds rounds' n k : Nat} {nFeeRet : Int}, 101 ≤ rounds + n → 101 ≤ rounds' + n →
      s.Covers n nFeeRet →
      s.createFrom q r nValue rounds k nFeeRet = s.createFrom q r nValue rounds' k nFeeRet := by
  intro rounds
  induction rounds with
  | zero =>
    intro rounds' n k nFeeRet h _ hc
    have := hc.size
    omega
  | succ rounds ih =>
    intro rounds' n k nFeeRet hr hr' hc
    have := hc.size
    obtain ⟨rounds', rfl⟩ : ∃ m, rounds' = m + 1 := ⟨rounds' - 1, by omega⟩
    rw [createFrom, createFrom]
    rcases hround : s.round q r nValue k nFeeRet with e | ⟨⟩ | _ | c
    · rfl
    · rfl
    · obtain ⟨-, -, _, _, hc'⟩ := round_again hc hround
      exact ih (by omega) (by omega) hc'
    · rfl

theorem createFrom_built {nValue : Int} {c : Created} {rounds k : Nat} {nFeeRet : Int}
    (hlo : 0 ≤ nFeeRet) (hhi : nFeeRet ≤ feeCap)
    (h : s.createFrom q r nValue rounds k nFeeRet = .ok (some c)) :
    ∃ k nFeeRet sel, (0 ≤ nFeeRet ∧ nFeeRet ≤ feeCap) ∧ s.Built q r nValue k nFeeRet sel c := by
  induction rounds generalizing k nFeeRet with
  | zero => cases h
  | succ rounds ih =>
    obtain ⟨_, hround, h⟩ := bind_eq_ok.mp h
    obtain rfl | ⟨_, hsize, rfl, -⟩ | ⟨_, sel, rfl, hbuilt⟩ := round_cases hround
    · cases h
    · obtain ⟨hfee, hlt⟩ := feeFor_eq hsize
      rw [hfee] at h
      exact ih (feeAt_range hlt).1 (feeAt_range hlt).2 h
    · obtain rfl := Option.some.inj (ok.inj h)
      exact ⟨k, nFeeRet, sel, ⟨hlo, hhi⟩, hbuilt⟩

theorem createTransaction_built {c : Created} (hamounts : ∀ p ∈ q.vecSend, 0 < p.2 ∧ p.2 < 2 ^ 63)
    (h : s.createTransaction q r = .ok (some c)) :
    (q.vecSend.map snd).sum < 2 ^ 63 ∧ q.vecSend ≠ [] ∧
      ∃ k nFeeRet sel, (0 ≤ nFeeRet ∧ nFeeRet ≤ feeCap) ∧
        s.Built q r (q.vecSend.map snd).sum k nFeeRet sel c := by
  rw [createTransaction] at h
  split at h
  · cases h
  rename_i nValue hsum
  obtain ⟨rfl, hlt⟩ := sumAmounts_eq hamounts le_rfl (by decide) hsum
  rw [zero_add] at h hlt
  split at h
  · cases h
  rename_i hempty
  obtain ⟨hlo, _⟩ := s.feeRange
  have hcoin : (coin : Int) = 1000000 := rfl
  have hcap : feeCap = 10 ^ 18 := rfl
  exact ⟨hlt, by simpa using hempty, createFrom_built hlo (by omega) h⟩

end Sender

/-! ## The accounts of a transaction -/

namespace WalletView

variable {W : WalletView}

def spendableCoins (W : WalletView) (setSelected : List COutPoint) : List COutput :=
  ((W.availableCoins true setSelected).toOption.getD []).filter COutput.fSpendable

theorem spendableCoins_sublist (setSelected : List COutPoint) :
    (W.spendableCoins setSelected).Sublist W.unspent := by
  rw [spendableCoins]
  cases h : W.availableCoins true setSelected with
  | error e => simp [Except.toOption]
  | ok vCoins => exact filter_sublist.trans (availableCoins_sublist h)

variable {nTargetValue : Int} {nSpendTime : Nat} {setSelected : List COutPoint}
  {chance : Nat → CoinChance} {sel : Selection}
  (h : W.selectCoins nTargetValue nSpendTime setSelected chance = .ok (some sel))
include h

theorem selectCoins_spendable :
    sel.outPoints.Nodup ∧ ∀ out ∈ sel.setCoins, out ∈ W.spendableCoins setSelected := by
  by_cases hctl : setSelected = []
  · subst hctl
    obtain ⟨vCoins, hcoins, _, _, k, hsel⟩ := selectCoins_cases h
    refine ⟨nodup_selectCoinsMinConf hsel, ?_⟩
    intro out hout
    obtain ⟨hmem, hspend, -⟩ := mem_selectCoinsMinConf hsel hout
    simp [spendableCoins, hcoins, Except.toOption, hmem, hspend]
  · obtain ⟨vCoins, hcoins, rfl, -⟩ := selectCoins_controlled hctl h
    refine ⟨Selection.nodup_addAll Selection.nodup_empty _, ?_⟩
    intro out hout
    rcases Selection.mem_addAll hout with hout | hout
    · simp at hout
    · simpa [spendableCoins, hcoins, Except.toOption] using hout

theorem selectCoins_value (hmod : W.Moderate) (hpos : 0 ≤ nTargetValue)
    (hlt : nTargetValue + cent < 2 ^ 63) :
    sel.nValue = (sel.setCoins.map nValue).sum ∧ nTargetValue ≤ sel.nValue := by
  by_cases hctl : setSelected = []
  · subst hctl
    obtain ⟨vCoins, hcoins, _, _, k, hsel⟩ := selectCoins_cases h
    exact selectCoinsMinConf_value (hmod.sound.sublist (availableCoins_sublist hcoins)) hpos hlt
      hsel
  obtain ⟨vCoins, hcoins, rfl, hge⟩ := selectCoins_controlled hctl h
  have hsound := hmod.sound.sublist
    ((filter_sublist (p := fSpendable)).trans (availableCoins_sublist hcoins))
  refine ⟨?_, hge⟩
  rw [hsound.addAll]

omit h

theorem txHash_of_mem_unspent {out : COutput} (h : out ∈ W.unspent) :
    W.env.txHash out.tx.toCTransaction = out.hash := by
  obtain ⟨e, he, hout⟩ := mem_unspent.mp h
  obtain ⟨hhash, htx, -, hi⟩ := mem_outputsOf_all hout
  rw [hhash, htx]
  exact W.keyed e he (length_pos_iff.mp (by omega))

end WalletView

theorem SoundCoins.sum_le_of_mem {vCoins outs : List COutput} (h : SoundCoins vCoins)
    (hnodup : (outs.map outPoint).Nodup) (hmem : ∀ out ∈ outs, out ∈ vCoins) :
    (outs.map nValue).sum ≤ (vCoins.map nValue).sum := by
  obtain ⟨_, hperm, hsub⟩ := subperm_of_subset (List.Nodup.of_map _ hnodup) hmem
  rw [← (hperm.map nValue).sum_eq]
  exact h.sum_le hsub

namespace Sender

variable {s : Sender} {q : SendRequest} {r : SendChance}

/-- The transaction spends different spendable outputs of the wallet, worth its outputs and the fee;
the payees get what is asked for them, at most one more output pays the change, and the fee suffices
for the size. -/
structure Conserves (s : Sender) (q : SendRequest) (c : Created) : Prop where
  inputs : c.tx.vin.map CTxIn.prevout = c.coins.map COutput.outPoint
  distinct : (c.coins.map COutput.outPoint).Nodup
  spendable : ∀ coin ∈ c.coins, coin ∈ s.view.unspent ∧ coin.fSpendable = true
  balance : (c.coins.map COutput.nValue).sum = (c.tx.vout.map CTxOut.nValue).sum + c.nFeeRet
  payees : ∃ paid change, c.tx.vout.Perm (paid ++ change) ∧
    (∀ payee, amountTo payee paid = q.requested payee) ∧ change.length ≤ 1 ∧
    ∀ out ∈ change, s.scriptChange q = some out.scriptPubKey
  fee : max (s.nTransactionFee * (1 + (c.tx.serializeSize : Int) / 1000))
    (c.tx.getMinFee 1 c.tx.serializeSize) ≤ c.nFeeRet

section

variable {k : Nat} {nChange : Int} {vout : List CTxOut} (hsend : q.vecSend ≠ [])
    (h : s.outputs q r k nChange = .ok vout)
include hsend h

theorem outputs_ok : ∃ change, vout.Perm (q.payees s.fSplitBlock ++ change) ∧ change.length ≤ 1 ∧
      (∀ out ∈ change, s.scriptChange q = some out.scriptPubKey ∧ out.nValue = nChange ∧
        0 < nChange) ∧ (change.map CTxOut.nValue).sum = max 0 nChange := by
  rw [outputs] at h
  split at h
  next hpos =>
    obtain ⟨script, hscript, h⟩ := bind_eq_ok.mp h
    have hpayees : 0 < (q.payees s.fSplitBlock).length := q.payees_length_pos s.fSplitBlock hsend
    refine ⟨[⟨nChange, script⟩], ?_, le_rfl, ?_, by simp [hpos.le]⟩
    · rw [← ok.inj h]
      refine (perm_insertIdx _ _ (Nat.mod_lt _ hpayees).le).trans ?_
      exact (perm_append_singleton _ _).symm
    · simpa using ⟨demand_eq_ok.mp hscript, hpos⟩
  next hpos => exact ⟨[], by simp [ok.inj h], by simp, by simp, by simp [not_lt.mp hpos]⟩

theorem outputs_sum : (vout.map CTxOut.nValue).sum = (q.vecSend.map snd).sum + max 0 nChange := by
  obtain ⟨_, hperm, -, -, hchange⟩ := outputs_ok hsend h
  have hpaid := q.amountTo_payees (fun _ => true) s.fSplitBlock
  simp only [amountTo, SendRequest.requested, filter_true] at hpaid
  rw [(hperm.map CTxOut.nValue).sum_eq, map_append, sum_append, hpaid, hchange]

end

section Accounts

variable {nFeeRet : Int} {k : Nat} {sel : Selection} {c : Created}
  (hb : s.Built q r (q.vecSend.map snd).sum k nFeeRet sel c)
include hb

theorem Built.coins_perm : c.coins.Perm sel.setCoins := by
  rw [hb.coins]
  exact (r.order k).perm _

theorem Built.distinct : (c.coins.map outPoint).Nodup :=
  (hb.coins_perm.map _).nodup_iff.mpr (selectCoins_spendable hb.selected).1

theorem Built.mem_spendableCoins {coin : COutput} (h : coin ∈ c.coins) :
    coin ∈ s.view.spendableCoins q.setSelected :=
  (selectCoins_spendable hb.selected).2 coin (hb.coins_perm.mem_iff.mp h)

theorem Built.mem_unspent {coin : COutput} (h : coin ∈ c.coins) : coin ∈ s.view.unspent :=
  (spendableCoins_sublist _).mem (hb.mem_spendableCoins h)

theorem Built.inputs : c.tx.vin.map CTxIn.prevout = c.coins.map outPoint := by
  rw [hb.prevouts]
  apply map_congr_left
  intro coin hcoin
  rw [outPoint, txHash_of_mem_unspent (hb.mem_unspent hcoin)]

theorem Built.balance (hmod : s.view.Moderate) (hsend : q.vecSend ≠ [])
    (hlo : 0 ≤ nFeeRet) (hhi : nFeeRet ≤ feeCap) (hpos : 0 ≤ (q.vecSend.map snd).sum)
    (hlt : (q.vecSend.map snd).sum < 2 ^ 62) :
    (c.coins.map nValue).sum = (c.tx.vout.map CTxOut.nValue).sum + c.nFeeRet := by
  have hcap : feeCap = 10 ^ 18 := rfl
  have hcent : cent = 10000 := rfl
  have hbuilt := hb
  obtain ⟨hselected, -, hfee, houtputs, -, -, -, -⟩ := hbuilt
  have hnodup := (selectCoins_spendable hselected).1
  have hmem : ∀ out ∈ sel.setCoins, out ∈ s.view.unspent := fun out hout =>
    hb.mem_unspent (hb.coins_perm.mem_iff.mpr hout)
  rw [int64_of_range (by omega) (by omega)] at hselected
  obtain ⟨hvalue, _⟩ :=
    selectCoins_value hselected hmod (by omega) (by omega)
  have htotal : sel.nValue < 2 ^ 62 := by
    rw [hvalue]
    exact (hmod.sound.sum_le_of_mem hnodup hmem).trans_lt hmod.total
  have hchange : int64 (int64 (sel.nValue - (q.vecSend.map snd).sum) - nFeeRet) =
      sel.nValue - (q.vecSend.map snd).sum - nFeeRet := by
    rw [int64_of_range (x := sel.nValue - _) (by omega) (by omega),
      int64_of_range (by omega) (by omega)]
  rw [hchange] at hfee houtputs
  obtain ⟨_, -, _, -⟩ := @moveToFee_spec
    (sel.nValue - (q.vecSend.map snd).sum - nFeeRet) nFeeRet hlo hhi
  rw [(hb.coins_perm.map _).sum_eq, outputs_sum hsend houtputs, hfee]
  omega

end Accounts

/-- The accounts of what `CreateTransaction` makes balance exactly if the amounts asked for do not
exceed the coins that it may use. -/
theorem createTransaction_conserves_iff {c : Created} (hmod : s.view.Moderate)
    (hamounts : ∀ p ∈ q.vecSend, 0 < p.2 ∧ p.2 < 2 ^ 63)
    (h : s.createTransaction q r = .ok (some c)) :
    s.Conserves q c ↔ (q.vecSend.map snd).sum ≤
      ((s.view.spendableCoins q.setSelected).map COutput.nValue).sum := by
  obtain ⟨-, hsend, k, nFeeRet, _, ⟨hlo, hhi⟩, hb⟩ := createTransaction_built hamounts h
  have hpos : 0 ≤ (q.vecSend.map snd).sum := sum_nonneg (by
    simpa using fun amount script hmem => (hamounts (script, amount) hmem).1.le)
  have hsound := hmod.sound.sublist (WalletView.spendableCoins_sublist q.setSelected)
  constructor
  · intro hc
    have hin := hsound.sum_le_of_mem hb.distinct fun coin => hb.mem_spendableCoins
    have hout := outputs_sum hsend hb.outputs
    have hfee : nFeeRet ≤ c.nFeeRet := hb.fee ▸ (moveToFee_spec hlo hhi).2.1
    have := hc.balance
    omega
  · intro hle
    have htotal := hsound.total
    refine ⟨hb.inputs, hb.distinct, ?_, ?_, ?_, ?_⟩
    · intro coin hcoin
      exact ⟨hb.mem_unspent hcoin, (mem_filter.mp (hb.mem_spendableCoins hcoin)).2⟩
    · exact hb.balance hmod hsend hlo hhi hpos (by omega)
    · obtain ⟨change, hperm, hlen, hchange, -⟩ := outputs_ok hsend hb.outputs
      exact ⟨_, change, hperm, fun payee => q.amountTo_payees payee s.fSplitBlock, hlen,
        fun out hout => (hchange out hout).1⟩
    · have henough := hb.enough
      rwa [feeFor, payFee_eq hb.size] at henough

end Sender

/-! ## Two calls -/

def sampleSender (values : List Int) : Sender where
  view := sampleWallet 1000 values [] [] (by decide)
  nTransactionFee := minTxFee
  feeRange := by decide
  fSplitBlock := false
  charityChange := none
  reservedKey := some [0x52]
  signSignature := fun _ _ _ => some []

def samplePayment (nAmount : Int) : SendRequest where
  vecSend := [([0x51], nAmount)]
  nTime := sampleTime
  nSplitBlock := 1
  fAllowS4C := false
  coinControl := none

def SendChance.trivial : SendChance :=
  ⟨fun _ _ => CoinChance.trivial, fun _ => CoinChance.trivial.shuffle, fun _ => 0⟩

def overflowCreated : Created where
  tx := ⟨1, sampleTime, [], [⟨2 ^ 63 - 999, [0x52]⟩, ⟨2 ^ 63 - 1, [0x51]⟩], 0⟩
  coins := []
  nFeeRet := minTxFee

/-- With the fee the greatest amount wraps around, nothing has to be selected, and the transaction
has no inputs. -/
theorem overflow_unbalanced :
    (∀ p ∈ (samplePayment (2 ^ 63 - 1)).vecSend, 0 < p.2 ∧ p.2 < 2 ^ 63) ∧
      ((sampleSender []).createTransaction (samplePayment (2 ^ 63 - 1))
        SendChance.trivial).toOption = some (some overflowCreated) ∧
      ¬ (sampleSender []).Conserves (samplePayment (2 ^ 63 - 1)) overflowCreated := by
  refine ⟨by decide, by decide +kernel, ?_⟩
  intro hc
  exact absurd hc.balance (by decide)

def changeCreated : Created where
  tx := ⟨1, sampleTime, [⟨⟨100, 0⟩, [], uint32Max⟩],
    [⟨4 * coin - minTxFee, [0x52]⟩, ⟨coin, [0x51]⟩], 0⟩
  coins := [⟨100, sampleCoinRecord 100 1000 [5 * coin] [], 0, 10, true⟩]
  nFeeRet := minTxFee

theorem createTransaction_conserves_change :
    (sampleSender [5 * coin]).Conserves (samplePayment coin) changeCreated := by
  have hok : (sampleSender [5 * coin]).createTransaction (samplePayment coin) SendChance.trivial =
      .ok (some changeCreated) := by rfl
  have hmod : (sampleSender [5 * coin]).view.Moderate := ⟨by decide +kernel, by decide +kernel⟩
  exact (Sender.createTransaction_conserves_iff hmod (by decide) hok).mpr (by decide +kernel)

end HoboNickels

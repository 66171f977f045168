import HoboNickels.CreateTx
import HoboNickels.StakeCache

/-!
# What a coinstake pays

`CreateCoinStake` picks a kernel and more coins of the same key, sets the outputs from the coins and
the reward, and signs, with the fee as a loop around the last two steps. What it returns
(`StakeBuilt`) is what it should return (`StakePays`) if the balance that the call uses is not too
high and the reward is an amount of money (`StakeBuilt.pays`). Neither is checked: the balance is
that of `nStakeCacheBalance`, and the reward of a large and very old coin overflows.
-/

namespace HoboNickels

open Fallible List WalletCoin StakeWallet Inputs

namespace WalletCoin

def nValue (pcoin : WalletCoin) : Int := (pcoin.tx.vout.getD pcoin.n default).nValue

def txIn (c : Crypto) (pcoin : WalletCoin) : CTxIn := ⟨pcoin.outPoint c, [], uint32Max⟩

def total (coins : List WalletCoin) : Int := (coins.map nValue).sum

@[simp] theorem total_nil : total [] = 0 := rfl

@[simp] theorem total_cons (pcoin : WalletCoin) (coins : List WalletCoin) :
    total (pcoin :: coins) = pcoin.nValue + total coins := by
  simp [total]

@[simp] theorem total_append (coins more : List WalletCoin) :
    total (coins ++ more) = total coins + total more := by
  simp [total]

theorem total_nonneg {coins : List WalletCoin} (h : ∀ pcoin ∈ coins, 0 ≤ pcoin.nValue) :
    0 ≤ total coins := by
  apply sum_nonneg
  simpa using h

end WalletCoin

namespace StakeWallet

variable {c : Crypto}

def Inputs.of (c : Crypto) (coins : List WalletCoin) : Inputs :=
  ⟨coins.map (txIn c), coins.map tx, total coins⟩

theorem Inputs.of_add (coins : List WalletCoin) (pcoin : WalletCoin) :
    (of c coins).add c pcoin = of c (coins ++ [pcoin]) := by
  simp [of, add, txIn, nValue]

variable (wallet : StakeWallet c)

/-- **Combining** adds coins of `mapMeta`, each at most once and none of the kernel's transaction,
within the balance less the reserve. -/
theorem combine_spec (k : CombineContext) (items : List (COutPoint × MetaEntry))
    (coins : List WalletCoin) (hle : total coins ≤ wallet.nBalance - wallet.nReserveBalance) :
    ∃ picked : List (COutPoint × MetaEntry), picked.Sublist items ∧
      (∀ item ∈ picked, c.txHash item.2.pcoin.tx ≠ k.hashKernelTx) ∧
      wallet.combine k items (of c coins)
        = of c (coins ++ picked.map fun item => item.2.pcoin) ∧
      total (coins ++ picked.map fun item => item.2.pcoin)
        ≤ wallet.nBalance - wallet.nReserveBalance := by
  generalize hd : of c coins = d
  fun_induction combine wallet k items d generalizing coins with
  | case1 d | case2 _ _ _ d => exact ⟨[], nil_sublist _, by simp, by simp [hd], by simpa using hle⟩
  | case3 _ _ _ _ _ _ _ _ ih | case5 _ _ _ _ _ _ ih =>
    obtain ⟨picked, hsub, hpicked⟩ := ih coins hle hd
    exact ⟨picked, hsub.cons _, hpicked⟩
  | case4 o e rest d out hsame hroom _ ih =>
    subst hd
    have hfits : total (coins ++ [e.pcoin]) ≤ wallet.nBalance - wallet.nReserveBalance := by
      simp only [not_or, not_lt] at hroom
      simpa [nValue, of, out] using hroom.2.2
    obtain ⟨picked, hsub, hother, hcombine, htotal⟩ := ih _ hfits (of_add ..).symm
    refine ⟨(o, e) :: picked, hsub.cons_cons _, ?_, by simp [hcombine], by simpa using htotal⟩
    rw [forall_mem_cons]
    refine ⟨?_, hother⟩
    simp only [Bool.and_eq_true, bne_iff_ne, ne_eq] at hsame
    exact hsame.2

/-! ## The amounts -/

theorem int64_le {x : Int} (h : 0 ≤ x) : int64 x ≤ x := by
  rw [int64, Int.bmod_def]
  omega

theorem tdiv_hundred_mul_le {x : Int} (h : 0 < x.tdiv 100) : x.tdiv 100 * 100 ≤ x := by
  rcases le_total 0 x with hx | hx
  · rw [Int.tdiv_eq_ediv_of_nonneg hx]
    omega
  · have hneg := Int.tdiv_nonneg (a := -x) (b := 100) (by omega) (by omega)
    rw [Int.neg_tdiv] at hneg
    omega

theorem share_cases (share nMax nMin nReward : Int) :
    let nCharity := if nMax > 0 ∧ share > nMax then nMax else share
    let nCharity := if nMin > 0 ∧ nCharity < nMin then 0 else nCharity
    let nCharity := if nCharity ≥ minTxoutAmount ∧ nCharity < nReward then nCharity else 0
    nCharity = 0 ∨ (minTxoutAmount ≤ nCharity ∧ nCharity < nReward ∧ nCharity ≤ share ∧
      (0 < nMax → nCharity ≤ nMax)) := by
  split_ifs <;> omega

theorem charity_cases (nReward : Int) : wallet.charity nReward = 0 ∨
      (minTxoutAmount ≤ wallet.charity nReward ∧ wallet.charity nReward < nReward ∧
        wallet.charity nReward * 100 ≤ nReward * wallet.nStakeForCharityPercent ∧
        (0 < wallet.nStakeForCharityMax →
          wallet.charity nReward ≤ wallet.nStakeForCharityMax)) := by
  rw [charity]
  split
  next hon =>
    have hpercent : 0 < wallet.nStakeForCharityPercent := by
      simp only [Bool.and_eq_true, decide_eq_true_eq] at hon
      exact hon.1.2
    have hdust : minTxoutAmount = 1000 := rfl
    have hcases := share_cases ((int64 (nReward * wallet.nStakeForCharityPercent)).tdiv 100)
      wallet.nStakeForCharityMax wallet.nStakeForCharityMin nReward
    simp only at hcases ⊢
    refine hcases.imp_right ?_
    rintro ⟨hmin, hless, -, hmax⟩
    refine ⟨hmin, hless, ?_, hmax⟩
    have hfull := @tdiv_hundred_mul_le (int64 (nReward * wallet.nStakeForCharityPercent)) (by omega)
    have hwrap := @int64_le (nReward * wallet.nStakeForCharityPercent)
      (Int.mul_nonneg (by omega) hpercent.le)
    omega
  · exact .inl rfl

theorem sum_outputs (script : CScript) (fSplit : Bool) {nCredit nCharity : Int} (h : 0 ≤ nCharity) :
    ((wallet.outputs script fSplit nCredit nCharity).map CTxOut.nValue).sum = nCredit := by
  rw [outputs]
  by_cases hpos : nCharity > 0
  · cases fSplit <;> simp [hpos]
    omega
  · cases fSplit <;> simp [hpos] <;> omega

theorem outputs_nonneg (script : CScript) (fSplit : Bool)
    {nCredit nCharity : Int} (h : nCharity ≤ nCredit) :
    ∀ out ∈ wallet.outputs script fSplit nCredit nCharity, 0 ≤ out.nValue := by
  have hhalf : ∀ {x : Int}, 0 ≤ x → 0 ≤ (x.tdiv 2).tdiv cent * cent ∧
      (x.tdiv 2).tdiv cent * cent ≤ x := by
    intro x hx
    have hcent : cent = 10000 := rfl
    rw [Int.tdiv_eq_ediv_of_nonneg hx, Int.tdiv_eq_ediv_of_nonneg (by omega), hcent]
    omega
  have hstaker := @hhalf (nCredit - nCharity) (by omega)
  intro out hout
  rw [outputs] at hout
  by_cases hpos : nCharity > 0
  · cases fSplit <;> simp [hpos] at hout
    · rcases hout with rfl | rfl | rfl <;> simp <;> omega
    · rcases hout with rfl | rfl | rfl | rfl <;> simp <;> omega
  cases fSplit <;> simp [hpos] at hout
  · rcases hout with rfl | rfl
    · simp
    · simpa using h
  · rcases hout with rfl | rfl | rfl <;> simp <;> omega

/-- The loop that sets the amounts, signs, and tries again with a higher `nMinFee` as long as that
is too low. -/
def payLoop (wallet : StakeWallet c) (scriptPubKeyOut : CScript) (fSplit : Bool)
    (nCredit nCharity : Int) (vwtxPrev : List CTransaction) :
    Nat → Int → CTransaction → Option (CTransaction × Int)
  | 0, _, _ => none
  | fuel + 1, nMinFee, txNew =>
    match signInputs wallet.signSignature 0 vwtxPrev { txNew with
      vout := wallet.outputs scriptPubKeyOut fSplit (nCredit - nMinFee) nCharity } with
    | none => none
    | some tx =>
      if tx.serializeSize ≥ maxBlockSizeGen / 5 then none
      else if nMinFee < tx.getMinFee 1 0 - minTxFee then
        wallet.payLoop scriptPubKeyOut fSplit nCredit nCharity vwtxPrev fuel
          (tx.getMinFee 1 0 - minTxFee) tx
      else some (tx, nMinFee)

theorem payLoop_succ (scriptPubKeyOut : CScript) (fSplit : Bool)
    (nCredit nCharity : Int) (vwtxPrev : List CTransaction) (fuel : Nat) (txNew : CTransaction) :
    wallet.payLoop scriptPubKeyOut fSplit nCredit nCharity vwtxPrev (fuel + 1) 0 txNew
      = (signInputs wallet.signSignature 0 vwtxPrev { txNew with
          vout := wallet.outputs scriptPubKeyOut fSplit nCredit nCharity }).bind fun tx =>
        if tx.serializeSize ≥ maxBlockSizeGen / 5 then none else some (tx, 0) := by
  rw [payLoop, sub_zero]
  split
  next hsign => simp [hsign]
  next tx hsign => simp [hsign, CTransaction.getMinFee_default]

end StakeWallet

/-- **The fee loops end.** Whatever is selected and signed in each round, `CreateTransaction` makes
at most 100 further rounds, each with a greater fee than the one before and all within the fee of
the greatest size. `CreateCoinStake` makes none. -/
theorem feeLoops_end (s : Sender) (q : SendRequest) (r : SendChance) (nValue : Int)
    (sign : Nat → CTransaction → CTransaction → Nat → Option CScript) (fee : Nat → Int)
    (rounds : Nat) (hstart : fee 0 = s.nTransactionFee)
    (hagain : ∀ k < rounds, Sender.round { s with signSignature := sign k } q r nValue k (fee k) =
      .ok (.again (fee (k + 1)))) :
    rounds ≤ 100 ∧
    (∀ k < rounds, fee k < fee (k + 1) ∧ fee (k + 1) ≤ 100 * max s.nTransactionFee minTxFee) ∧
    ∀ (c : Crypto) (wallet : StakeWallet c) (scriptPubKeyOut : CScript) (fSplit : Bool)
      (nCredit nCharity : Int) (vwtxPrev : List CTransaction) (txNew : CTransaction) (fuel : Nat),
    wallet.payLoop scriptPubKeyOut fSplit nCredit nCharity vwtxPrev (fuel + 1) 0 txNew =
      wallet.payLoop scriptPubKeyOut fSplit nCredit nCharity vwtxPrev 1 0 txNew := by
  have hcovers : ∀ k ≤ rounds, ∃ n ≥ k, s.Covers n (fee k) := by
    intro k
    induction k with
    | zero => exact fun _ => ⟨0, le_rfl, hstart ▸ Sender.covers_start⟩
    | succ k ih =>
      intro hk
      obtain ⟨n, hn, hc⟩ := ih (by omega)
      have hc' : Sender.Covers { s with signSignature := sign k } n (fee k) := { hc with }
      obtain ⟨-, -, n', _, hnext⟩ := Sender.round_again hc' (hagain k hk)
      exact ⟨n', by omega, { hnext with }⟩
  refine ⟨?_, fun k hk => ?_, fun c wallet _ _ _ _ _ _ _ => ?_⟩
  · obtain ⟨n, hn, hc⟩ := hcovers rounds le_rfl
    exact hn.trans hc.size
  · obtain ⟨n, -, hc⟩ := hcovers k hk.le
    have hc' : Sender.Covers { s with signSignature := sign k } n (fee k) := { hc with }
    obtain ⟨hlt, hle, -⟩ := Sender.round_again hc' (hagain k hk)
    refine ⟨hlt, hle.trans_eq ?_⟩
    rw [mul_comm]
    rfl
  · rw [payLoop_succ, payLoop_succ]

def feelessSender : Sender :=
  { sampleSender [5 * coin] with nTransactionFee := 0, feeRange := by decide }

theorem feeLoops_end_feeless :
    feelessSender.round (samplePayment coin) SendChance.trivial coin 0 0 = .ok (.again minTxFee) ∧
      minTxFee ≤ 100 * max 0 minTxFee := by
  have hround : feelessSender.round (samplePayment coin) SendChance.trivial coin 0 0 =
      .ok (.again minTxFee) := by decide +kernel
  refine ⟨hround, ((feeLoops_end feelessSender (samplePayment coin) SendChance.trivial coin
    (fun _ => feelessSender.signSignature) (fun k => if k = 0 then 0 else minTxFee) 1 rfl ?_).2.1 0
      Nat.one_pos).2⟩
  intro k hk
  obtain rfl : k = 0 := Nat.lt_one_iff.mp hk
  exact hround

/-! ## The coin age -/

def World.SteadyReads (w : World) : Prop :=
  ∀ hash hash' i, w.readOk (.coinAgeTx hash i) = w.readOk (.coinAgeTx hash' i) ∧
    w.readOk (.coinAgeHeader hash i) = w.readOk (.coinAgeHeader hash' i)

section CoinAge

variable {env : Env} {w : World} {db : CTxDB} {nBestHeight : Int} {tx tx' : CTransaction}

section

variable (hreads : w.SteadyReads) (htime : tx.nTime = tx'.nTime)
include hreads htime

theorem coinAgeOfInput_congr {txin txin' : CTxIn} (hprev : txin.prevout = txin'.prevout) (i : Nat) :
    coinAgeOfInput env w db nBestHeight tx i txin
      = coinAgeOfInput env w db nBestHeight tx' i txin' := by
  obtain ⟨htx, hheader⟩ := hreads (env.txHash tx) (env.txHash tx') i
  simp only [coinAgeOfInput, World.readTx, World.readHeader, htx, hheader, htime, hprev]

theorem centSecondsFrom_congr (l l' : List CTxIn) (i : Nat)
    (h : l.map (·.prevout) = l'.map (·.prevout)) :
    centSecondsFrom env w db nBestHeight tx i l =
      centSecondsFrom env w db nBestHeight tx' i l' := by
  induction l generalizing l' i with
  | nil =>
    obtain rfl : l' = [] := by simpa using h.symm
    rfl
  | cons txin l ih =>
    rcases l' with _ | ⟨_, l'⟩
    · cases h
    · obtain ⟨hprev, hrest⟩ := cons.inj h
      rw [centSecondsFrom, centSecondsFrom, coinAgeOfInput_congr hreads htime hprev, ih l' _ hrest]

theorem getCoinAge_congr
    (hprev : tx.vin.map (·.prevout) = tx'.vin.map (·.prevout)) (hbase : tx.isCoinBase = false)
    (hbase' : tx'.isCoinBase = false) :
    getCoinAge env w db nBestHeight tx = getCoinAge env w db nBestHeight tx' := by
  simp only [getCoinAge, hbase, hbase', centSecondsFrom_congr hreads htime _ _ 0 hprev]

end

end CoinAge

variable {tx : CTransaction} {c : Crypto} {coins : List WalletCoin} {n : Node} {env : Env}
  {w : World} {nBits : Nat} {key : CKey}

section Built

variable {wallet : StakeWallet env.toCrypto}

theorem isCoinBase_of_prevouts (hprev : tx.vin.map (·.prevout) = coins.map (·.outPoint c))
    (hspend : ∀ pcoin ∈ coins, pcoin.Spendable) : tx.isCoinBase = false := by
  rw [CTransaction.isCoinBase]
  split
  next txin hvin =>
    rw [hvin] at hprev
    rcases coins with _ | ⟨pcoin, coins⟩
    · cases hprev
    have hfirst : txin.prevout = pcoin.outPoint c := (cons.inj hprev).1
    have hnull := outPoint_not_null c (hspend pcoin (by simp)).1 (hspend pcoin (by simp)).2
    rw [hfirst, hnull, Bool.false_and]
  · rfl

/-! ## What CreateCoinStake returns -/

def stakeTx (c : Crypto) (nTime : Nat) (coins : List WalletCoin) : CTransaction where
  nVersion := 1
  nTime := nTime
  vin := coins.map (txIn c)
  vout := [⟨0, []⟩]
  nLockTime := 0

def Node.coinAge (n : Node) (env : Env) (w : World) (tx : CTransaction) : Option Nat :=
  getCoinAge env w n.chain.db.readOnly n.chain.nBestHeight tx

abbrev Env.stakeReward (env : Env) (nBits nTime nCoinAge : Nat) : Int :=
  getProofOfStakeReward env.fTestNet (int64 nCoinAge) nBits nTime false

/-- The coins that a coinstake spends, their age, the script of the staker and whether the stake is
split. -/
structure StakeBuilt (n : Node) (env : Env) (w : World) (wallet : StakeWallet env.toCrypto)
    (nBits : Nat) (tx : CTransaction) (coins : List WalletCoin) (nCoinAge : Nat)
    (script : CScript) (fSplit : Bool) : Prop where
  owned : ∀ pcoin ∈ coins, ∃ item ∈ wallet.mapMeta.items, item.2.pcoin = pcoin
  distinct : (coins.map (·.outPoint env.toCrypto)).Nodup
  reserved : total coins ≤ wallet.nBalance - wallet.nReserveBalance
  spends : tx.vin.map (·.prevout) = coins.map (·.outPoint env.toCrypto)
  aged : w.SteadyReads → n.coinAge env w tx = some nCoinAge
  paid : ∀ fuel, wallet.payLoop script fSplit
    (total coins + env.stakeReward nBits tx.nTime nCoinAge)
    (wallet.charity (env.stakeReward nBits tx.nTime nCoinAge))
    (coins.map WalletCoin.tx) (fuel + 1) 0 (stakeTx env.toCrypto tx.nTime coins) = some (tx, 0)
  vout : tx.vout = wallet.outputs script fSplit
    (total coins + env.stakeReward nBits tx.nTime nCoinAge)
    (wallet.charity (env.stakeReward nBits tx.nTime nCoinAge))

theorem StakeWallet.owned_spendable (wallet : StakeWallet c)
    (h : ∀ pcoin ∈ coins, ∃ item ∈ wallet.mapMeta.items, item.2.pcoin = pcoin) :
    ∀ pcoin ∈ coins, pcoin.Spendable := by
  intro pcoin hpcoin
  obtain ⟨item, hitem, rfl⟩ := h pcoin hpcoin
  exact wallet.spendable item hitem

theorem StakeWallet.nodup_outPoints (wallet : StakeWallet c) {kernel : WalletCoin}
    {picked : List (COutPoint × MetaEntry)} (hsub : picked.Sublist wallet.mapMeta.items)
    (hother : ∀ item ∈ picked, c.txHash item.2.pcoin.tx ≠ c.txHash kernel.tx) :
    ((kernel :: picked.map fun item => item.2.pcoin).map (·.outPoint c)).Nodup := by
  rw [map_cons, nodup_cons]
  constructor
  · intro hmem
    simp only [map_map, mem_map, Function.comp_apply] at hmem
    obtain ⟨item, hitem, hpoint⟩ := hmem
    exact hother item hitem (congrArg COutPoint.hash hpoint)
  have hkeys : (picked.map fun item => item.2.pcoin).map (·.outPoint c) = picked.map Prod.fst := by
    rw [map_map]
    exact map_congr_left fun item hitem =>
      (wallet.mapMeta.keyed item (hsub.subset hitem)).symm
  rw [hkeys]
  exact (hsub.map Prod.fst).nodup wallet.mapMeta.nodup

theorem StakeBuilt.of_signed {nTime nCoinAge : Nat} {script : CScript} {fSplit : Bool}
    {vout : List CTxOut}
    (howned : ∀ pcoin ∈ coins, ∃ item ∈ wallet.mapMeta.items, item.2.pcoin = pcoin)
    (hdistinct : (coins.map (·.outPoint env.toCrypto)).Nodup)
    (hreserved : total coins ≤ wallet.nBalance - wallet.nReserveBalance)
    (hage : n.coinAge env w { stakeTx env.toCrypto nTime coins with vout := vout }
      = some nCoinAge)
    (hsign : signInputs wallet.signSignature 0 (coins.map WalletCoin.tx)
      { stakeTx env.toCrypto nTime coins with
        vout := wallet.outputs script fSplit
          (total coins + env.stakeReward nBits nTime nCoinAge)
          (wallet.charity (env.stakeReward nBits nTime nCoinAge)) } = some tx)
    (hsize : ¬ tx.serializeSize ≥ maxBlockSizeGen / 5) :
    tx.nTime = nTime ∧ StakeBuilt n env w wallet nBits tx coins nCoinAge script fSplit := by
  obtain ⟨-, htime, hout, hin⟩ := signInputs_eq_some hsign
  have hspends : tx.vin.map (·.prevout) = coins.map (·.outPoint env.toCrypto) := by
    rw [hin]
    simp [stakeTx, txIn, Function.comp_def]
  have hspend := wallet.owned_spendable howned
  have htime : tx.nTime = nTime := htime
  refine ⟨htime, howned, hdistinct, hreserved, hspends, fun hreads => ?_, fun fuel => ?_, ?_⟩
  · rw [← hage]
    refine getCoinAge_congr hreads htime hin (isCoinBase_of_prevouts hspends hspend) ?_
    exact isCoinBase_of_prevouts (hin.symm.trans hspends) hspend
  · rw [htime, payLoop_succ, Option.bind_eq_some_iff]
    exact ⟨tx, hsign, if_neg hsize⟩
  · rw [hout, htime]

theorem Node.stakeFound_built {r : FoundKernel}
    (hkernel : ∃ item ∈ wallet.mapMeta.items, item.2.pcoin = r.kernelcoin)
    (h : n.stakeFound env w wallet nBits r = some (tx, key)) :
    tx.nTime = r.nTimeTx ∧ ∃ coins nCoinAge script fSplit,
      StakeBuilt n env w wallet nBits tx coins nCoinAge script fSplit := by
  unfold stakeFound at h
  simp only at h
  split at h
  · cases h
  split at h
  · cases h
  rename_i hvalue
  rw [not_or] at hvalue
  have hstart : add ⟨[], [], 0⟩ env.toCrypto r.kernelcoin
      = of env.toCrypto [r.kernelcoin] :=
    of_add [] r.kernelcoin
  rw [hstart] at h
  choose picked hsub hother hcombine htotal using fun k =>
    wallet.combine_spec k wallet.mapMeta.items [r.kernelcoin] (by simpa [nValue] using hvalue.2)
  rw [hcombine] at h
  split at h
  · cases h
  rename_i nCoinAge hage
  split at h
  · cases h
  rename_i tx' hsign
  split at h
  · cases h
  rename_i hsize
  obtain ⟨rfl, -⟩ := Prod.mk.inj (Option.some.inj h)
  have howned : ∀ k, ∀ pcoin ∈ [r.kernelcoin] ++ (picked k).map fun item => item.2.pcoin,
      ∃ item ∈ wallet.mapMeta.items, item.2.pcoin = pcoin := by
    intro k pcoin hpcoin
    rcases mem_append.mp hpcoin with hfirst | hrest
    · rw [mem_singleton.mp hfirst]
      exact hkernel
    · obtain ⟨item, hitem, rfl⟩ := mem_map.mp hrest
      exact ⟨item, (hsub k).subset hitem, rfl⟩
  obtain ⟨htime, hbuilt⟩ := StakeBuilt.of_signed (howned _)
    (wallet.nodup_outPoints (hsub _) (hother _)) (htotal _) hage hsign hsize
  exact ⟨htime, _, _, _, _, hbuilt⟩

/-! ## What consensus allows -/

/-- The coins are distinct and leave the reserve alone; no output is negative; the outputs are the
inputs and the reward, less the final fee; `ConnectInputs` accepts that; and the charity gets
`nCharity`, within its limits. -/
structure StakePays (n : Node) (env : Env) (w : World) (wallet : StakeWallet env.toCrypto)
    (nBalance : Int) (nBits : Nat) (tx : CTransaction) (coins : List WalletCoin) (nCoinAge : Nat)
    (nMinFee nCharity : Int) : Prop where
  owned : ∀ pcoin ∈ coins, ∃ item ∈ wallet.mapMeta.items, item.2.pcoin = pcoin
  spends : tx.vin.map (·.prevout) = coins.map (·.outPoint env.toCrypto)
  distinct : (tx.vin.map (·.prevout)).Nodup
  reserved : total coins ≤ nBalance - wallet.nReserveBalance
  nonneg : ∀ out ∈ tx.vout, 0 ≤ out.nValue
  age : n.coinAge env w tx = some nCoinAge
  total : (tx.vout.map CTxOut.nValue).sum
    = total coins + env.stakeReward nBits tx.nTime nCoinAge - nMinFee
  accepted : ∀ c : ConnectContext, c.pindexBlock.nBits = nBits →
    checkStakeReward env w n.chain.db.readOnly n.chain.nBestHeight c tx (WalletCoin.total coins)
      = .ok ()
  outputs : ∃ script fSplit fuel,
    wallet.payLoop script fSplit
        (WalletCoin.total coins + env.stakeReward nBits tx.nTime nCoinAge) nCharity
        (coins.map WalletCoin.tx) fuel 0 (stakeTx env.toCrypto tx.nTime coins)
      = some (tx, nMinFee) ∧
    ∃ staker, tx.vout = ⟨0, []⟩ :: staker ++
        (if nCharity > 0 then [⟨nCharity, wallet.charityScript.getD []⟩] else []) ∧
      ∀ out ∈ staker, out.scriptPubKey = script
  charity : 0 < nCharity →
    nCharity * 100
        ≤ env.stakeReward nBits tx.nTime nCoinAge * wallet.nStakeForCharityPercent ∧
      (0 < wallet.nStakeForCharityMax → nCharity ≤ wallet.nStakeForCharityMax) ∧
      nCharity < env.stakeReward nBits tx.nTime nCoinAge

theorem StakeWallet.outputs_staker (wallet : StakeWallet c) (script : CScript)
    (fSplit : Bool) (nCredit nCharity : Int) :
    ∃ staker, wallet.outputs script fSplit nCredit nCharity = ⟨0, []⟩ :: staker ++
        (if nCharity > 0 then [⟨nCharity, wallet.charityScript.getD []⟩] else []) ∧
      ∀ out ∈ staker, out.scriptPubKey = script := by
  refine ⟨_, rfl, ?_⟩
  cases fSplit <;> simp

/-- **Payout.** A coinstake as built pays what consensus allows if its coins are within the balance
and the outputs together are an amount of money. -/
theorem StakeBuilt.pays {nCoinAge : Nat} {script : CScript} {fSplit : Bool} {nBalance : Int}
    (h : StakeBuilt n env w wallet nBits tx coins nCoinAge script fSplit) (hreads : w.SteadyReads)
    (hamounts : ∀ item ∈ wallet.mapMeta.items, 0 ≤ item.2.pcoin.nValue)
    (hbalance : total coins ≤ nBalance - wallet.nReserveBalance)
    (hrange : moneyRange (total coins + env.stakeReward nBits tx.nTime nCoinAge)
      = true) :
    StakePays n env w wallet nBalance nBits tx coins nCoinAge 0
      (wallet.charity (env.stakeReward nBits tx.nTime nCoinAge)) := by
  obtain ⟨_, hhigh⟩ := moneyRange_iff.mp hrange
  have hcoins : 0 ≤ total coins := by
    apply total_nonneg
    intro pcoin hpcoin
    obtain ⟨item, hitem, rfl⟩ := h.owned pcoin hpcoin
    exact hamounts item hitem
  have hdust : minTxoutAmount = 1000 := rfl
  have hcharity := wallet.charity_cases (env.stakeReward nBits tx.nTime nCoinAge)
  have hsum : (tx.vout.map CTxOut.nValue).sum
      = total coins + env.stakeReward nBits tx.nTime nCoinAge := by
    rw [h.vout]
    exact wallet.sum_outputs script fSplit (by omega)
  have hnonneg : ∀ out ∈ tx.vout, 0 ≤ out.nValue := by
    rw [h.vout]
    exact wallet.outputs_nonneg script fSplit (by omega)
  have hage := h.aged hreads
  refine ⟨h.owned, h.spends, h.spends ▸ h.distinct, hbalance, hnonneg, hage, by rw [hsum, sub_zero],
    ?_, ⟨script, fSplit, 1, h.paid 0, ?_⟩, ?_⟩
  · intro c hbits
    have hout := CTransaction.getValueOut_of hnonneg (hsum ▸ hhigh)
    refine bind_eq_ok.mpr ⟨nCoinAge, demand_eq_ok.mpr hage, bind_eq_ok.mpr
      ⟨_, demand_eq_ok.mpr hout, require_eq_ok.mpr ?_⟩⟩
    rw [hsum, hbits, Bool.not_eq_true', decide_eq_false_iff_not]
    change ¬ total coins + env.stakeReward nBits tx.nTime nCoinAge
      - total coins > env.stakeReward nBits tx.nTime nCoinAge - minTxFee + minTxFee
    omega
  · rw [h.vout]
    exact wallet.outputs_staker script fSplit _ _
  · intro hpos
    rcases hcharity with _ | ⟨-, hless, hpercent, hmax⟩
    · omega
    · exact ⟨hpercent, hmax, hless⟩

theorem CTransaction.getValueOut_range {v : Int} (h : tx.getValueOut = some v) :
    moneyRange v = true := by
  have key : ∀ {outs : List CTxOut} {acc : Int}, moneyRange acc = true →
      valueOutFrom acc outs = some v → moneyRange v = true := by
    intro outs
    induction outs with
    | nil => exact fun hacc h => Option.some.inj h ▸ hacc
    | cons out rest ih =>
      intro acc hacc h
      unfold valueOutFrom at h
      split at h
      next hrange => exact ih (by simp_all) h
      · cases h
  exact key (by decide) h

/-- What pays is an amount of money: the fee loop ends with the fee zero, and `ConnectInputs` adds
up the outputs. -/
theorem StakePays.range {nCoinAge : Nat} {nBalance nMinFee nCharity : Int}
    (h : StakePays n env w wallet nBalance nBits tx coins nCoinAge nMinFee nCharity) :
    moneyRange (WalletCoin.total coins + env.stakeReward nBits tx.nTime nCoinAge) = true := by
  obtain ⟨_, _, fuel, hloop, -⟩ := h.outputs
  have hfee : nMinFee = 0 := by
    cases fuel with
    | zero => cases hloop
    | succ fuel =>
      rw [payLoop_succ, Option.bind_eq_some_iff] at hloop
      obtain ⟨_, -, hloop⟩ := hloop
      split at hloop
      · cases hloop
      · cases hloop
        rfl
  obtain ⟨_, -, hrest⟩ := bind_eq_ok.mp (h.accepted ⟨.null, { (default : CBlockIndex) with
    nBits := nBits }, [], false, false, false, 0, false⟩ rfl)
  obtain ⟨v, hv, -⟩ := bind_eq_ok.mp hrest
  have hout := demand_eq_ok.mp hv
  rw [← sub_zero (_ + _), ← hfee, ← h.total, ← CTransaction.getValueOut_eq hout]
  exact CTransaction.getValueOut_range hout

/-! ## A call -/

/-- Whatever coins of the wallet are staked, at whatever second, with their reward they are an
amount of money. -/
def StakeWallet.RewardsInRange {env : Env} (wallet : StakeWallet env.toCrypto) (n : Node)
    (w : World) (nBits nTime : Nat) : Prop :=
  ∀ (coins : List WalletCoin) (k nCoinAge : Nat),
    (∀ pcoin ∈ coins, ∃ item ∈ wallet.mapMeta.items, item.2.pcoin = pcoin) →
    (coins.map (·.outPoint env.toCrypto)).Nodup →
    total coins ≤ wallet.nBalance - wallet.nReserveBalance →
    k < nMaxStakeSearchInterval →
    n.coinAge env w (stakeTx env.toCrypto (uint32 ((nTime : Int) - k)) coins) = some nCoinAge →
    moneyRange (total coins
      + env.stakeReward nBits (uint32 ((nTime : Int) - k)) nCoinAge) = true

theorem Node.createCoinStake_built {i : SearchInterrupts} {nTime : Nat} {nSearchInterval : Int}
    (h : n.createCoinStake env w wallet i nBits nSearchInterval nTime = some (tx, key)) :
    (∃ k < nMaxStakeSearchInterval, tx.nTime = uint32 ((nTime : Int) - k)) ∧
      ∃ coins nCoinAge script fSplit,
        StakeBuilt n env w wallet nBits tx coins nCoinAge script fSplit := by
  rw [createCoinStake] at h
  split at h
  · cases h
  split at h
  · cases h
  rename_i r hscan
  obtain ⟨item, hitem, k, hfound⟩ := ChainState.scanCoins_eq_some hscan
  obtain ⟨htime, hbuilt⟩ := stakeFound_built ⟨item, hitem, by rw [hfound.result]⟩ h
  refine ⟨⟨k, hfound.window.2, ?_⟩, hbuilt⟩
  rw [htime, hfound.result]

end Built

namespace StakeCall

def wallet (q : StakeCall) (C : StakeCaches env) (fLocked : Bool) : StakeWallet env.toCrypto :=
  q.settings.wallet ((C.refreshBalance q.pass).refreshCoins fLocked q.pass).1

variable (q : StakeCall) (C : StakeCaches env)

def nUsed : Int :=
  (C.refreshBalance q.pass).nStakeCacheBalance

/-- The coinstake pays exactly what consensus allows. The balance is what `GetBalance` answers. -/
def Pays (fLocked : Bool) (tx : CTransaction) : Prop :=
  ∃ coins nCoinAge nMinFee nCharity, StakePays q.n env q.w (q.wallet C fLocked) q.pass.nBalance
    q.nBits tx coins nCoinAge nMinFee nCharity

/-- The coins are outputs of checked transactions, and the block files stay. -/
structure Ordinary (q : StakeCall) (C : StakeCaches env) (fLocked : Bool) : Prop where
  amounts : ∀ item ∈ (q.wallet C fLocked).mapMeta.items, 0 ≤ item.2.pcoin.nValue
  reads : q.w.SteadyReads

/-- What the coins that `tx` spends are worth. -/
def valueIn (fLocked : Bool) (tx : CTransaction) : Int :=
  (tx.vin.map fun txin =>
    (((q.wallet C fLocked).mapMeta.find txin.prevout).map (·.pcoin.nValue)).getD 0).sum

theorem nBalance_wallet (fLocked : Bool) : (q.wallet C fLocked).nBalance = q.nUsed C :=
  ((C.refreshBalance q.pass).refreshCoins_spec fLocked q.pass).1

variable {q C} {fLocked : Bool}

theorem createCoinStake_eq_some (h : (C.createCoinStake fLocked q).2 = some (tx, key)) :
    q.settings.nReserveBalance < q.nUsed C ∧ ∃ i : SearchInterrupts,
      q.n.createCoinStake env q.w (q.wallet C fLocked) i q.nBits q.nSearchInterval q.nTime
        = some (tx, key) := by
  simp only [StakeCaches.createCoinStake] at h
  split at h
  · cases h
  rename_i hmore
  refine ⟨not_le.mp hmore, ?_⟩
  split at h
  · cases h
  rename_i C2 hrefresh
  have hwallet : q.wallet C fLocked = q.settings.wallet C2 := by rw [wallet, hrefresh]
  rw [hwallet]
  exact ⟨_, h⟩

theorem valueIn_eq
    (howned : ∀ pcoin ∈ coins, ∃ item ∈ (q.wallet C fLocked).mapMeta.items, item.2.pcoin = pcoin)
    (hspends : tx.vin.map (·.prevout) = coins.map (·.outPoint env.toCrypto)) :
    q.valueIn C fLocked tx = total coins := by
  have hvalue : ∀ pcoin ∈ coins, (((q.wallet C fLocked).mapMeta.find
      (pcoin.outPoint env.toCrypto)).map (·.pcoin.nValue)).getD 0 = pcoin.nValue := by
    intro pcoin hpcoin
    obtain ⟨item, hitem, rfl⟩ := howned pcoin hpcoin
    rw [MetaMap.find_eq_some hitem]
    rfl
  rw [total, ← map_congr_left hvalue, valueIn]
  have hmap := congrArg (map fun o =>
    (((q.wallet C fLocked).mapMeta.find o).map (·.pcoin.nValue)).getD 0) hspends
  rw [map_map, map_map] at hmap
  exact congrArg sum hmap

/-- An ordinary call that does not use more than the balance, and whose rewards cannot leave the
range of money, pays what consensus allows. -/
theorem Ordinary.pays (h : q.Ordinary C fLocked)
    (hcall : (C.createCoinStake fLocked q).2 = some (tx, key))
    (hused : q.nUsed C ≤ max q.pass.nBalance q.settings.nReserveBalance)
    (hrewards : (q.wallet C fLocked).RewardsInRange q.n q.w q.nBits q.nTime) :
    q.Pays C fLocked tx := by
  obtain ⟨_, i, hstake⟩ := createCoinStake_eq_some hcall
  obtain ⟨⟨k, hk, htime⟩, coins, nCoinAge, _, _, hbuilt⟩ :=
    Node.createCoinStake_built hstake
  have hreserved := hbuilt.reserved
  rw [nBalance_wallet] at hreserved
  have hspend := (q.wallet C fLocked).owned_spendable hbuilt.owned
  have hage : q.n.coinAge env q.w (stakeTx env.toCrypto (uint32 ((q.nTime : Int) - k)) coins)
      = some nCoinAge := by
    have hprev : (stakeTx env.toCrypto (uint32 ((q.nTime : Int) - k)) coins).vin.map (·.prevout)
        = coins.map (·.outPoint env.toCrypto) := by
      simp [stakeTx, txIn, Function.comp_def]
    rw [← hbuilt.aged h.reads]
    exact getCoinAge_congr h.reads htime.symm (hprev.trans hbuilt.spends.symm)
      (isCoinBase_of_prevouts hprev hspend) (isCoinBase_of_prevouts hbuilt.spends hspend)
  have hrange := hrewards coins k nCoinAge hbuilt.owned hbuilt.distinct hbuilt.reserved hk hage
  rw [← htime] at hrange
  exact ⟨coins, nCoinAge, 0, _, hbuilt.pays h.reads h.amounts (by omega) hrange⟩

end StakeCall

open StakeCall

/-- **Coinstake payout.** What an ordinary call makes pays exactly what consensus allows if the
balance that it uses is not more than the balance itself, or than the reserve, and no reward leaves
the range of money. It does so exactly if that is true of the coins that it spends. -/
theorem coinstake_pays_iff {env : Env} {C : StakeCaches env} {fLocked : Bool} {q : StakeCall}
    {tx : CTransaction} {key : CKey} (h : q.Ordinary C fLocked)
    (hcall : (C.createCoinStake fLocked q).2 = some (tx, key)) :
    (q.nUsed C ≤ max q.pass.nBalance q.settings.nReserveBalance →
      (q.wallet C fLocked).RewardsInRange q.n q.w q.nBits q.nTime → q.Pays C fLocked tx) ∧
    (q.Pays C fLocked tx ↔
      q.valueIn C fLocked tx ≤ q.pass.nBalance - q.settings.nReserveBalance ∧
        ∃ nCoinAge, q.n.coinAge env q.w tx = some nCoinAge ∧
          moneyRange (q.valueIn C fLocked tx + env.stakeReward q.nBits tx.nTime nCoinAge)
            = true) := by
  refine ⟨h.pays hcall, ?_, ?_⟩
  · rintro ⟨coins, nCoinAge, nMinFee, nCharity, hpays⟩
    rw [valueIn_eq hpays.owned hpays.spends]
    exact ⟨hpays.reserved, nCoinAge, hpays.age, hpays.range⟩
  · rintro ⟨hbalance, nCoinAge, hage, hrange⟩
    obtain ⟨_, i, hstake⟩ := createCoinStake_eq_some hcall
    obtain ⟨-, coins, nCoinAge', _, _, hbuilt⟩ := Node.createCoinStake_built hstake
    cases hage.symm.trans (hbuilt.aged h.reads)
    rw [valueIn_eq hbuilt.owned hbuilt.spends] at hbalance hrange
    exact ⟨coins, nCoinAge, 0, _, hbuilt.pays h.reads h.amounts hbalance hrange⟩

/-! ## A stake that is split and shared

The coin of `stakedCall`, a month old, with a tenth of the reward for charity. -/

def sharedCall : StakeCall :=
  { stakedCall with
    settings := { stakedSettings with
      nSplitThreshold := coin
      fStakeForCharity := true
      nStakeForCharityPercent := 10
      charityScript := some [0x53] } }

theorem shared_ordinary : sharedCall.Ordinary newStaker.caches false :=
  ⟨by decide +kernel, fun _ _ _ => ⟨rfl, rfl⟩⟩

theorem shared_rewards : (sharedCall.wallet newStaker.caches false).RewardsInRange
    sharedCall.n sharedCall.w sharedCall.nBits sharedCall.nTime := by
  intro coins k nCoinAge howned hdistinct _ hk hage
  have hall : ∀ pcoin ∈ coins, pcoin = stakedEntry.pcoin := by
    intro pcoin hpcoin
    obtain ⟨item, hitem, rfl⟩ := howned pcoin hpcoin
    have hmem := mem_map_of_mem (f := fun item => item.2.pcoin) hitem
    exact mem_singleton.mp hmem
  have hcoins : coins ∈ [[], [stakedEntry.pcoin]] := by
    match coins, hdistinct, hall with
    | [], _, _ => simp
    | [pcoin], _, hall => simp [hall pcoin (by simp)]
    | pcoin :: pcoin' :: rest, hdistinct, hall =>
      rw [hall pcoin (by simp), hall pcoin' (by simp)] at hdistinct
      simp at hdistinct
  have hrange : ∀ k < nMaxStakeSearchInterval, ∀ coins ∈ [[], [stakedEntry.pcoin]],
      (sharedCall.n.coinAge stakedEnv sharedCall.w
        (stakeTx stakedEnv.toCrypto (uint32 ((sharedCall.nTime : Int) - k)) coins)).all
          (fun nCoinAge => moneyRange (total coins + stakedEnv.stakeReward sharedCall.nBits
            (uint32 ((sharedCall.nTime : Int) - k)) nCoinAge)) = true := by
    decide +kernel
  have hmoney := hrange k hk coins hcoins
  rw [hage] at hmoney
  exact hmoney

theorem coinstake_pays_shared :
    ∃ tx key, (newStaker.caches.createCoinStake false sharedCall).2 = some (tx, key)
      ∧ tx.vout.map CTxOut.nValue = [0, 5360000, 5376771, 81863] ∧
      sharedCall.Pays newStaker.caches false tx := by
  have hmade : (newStaker.caches.createCoinStake false sharedCall).2.map
      (fun r => r.1.vout.map CTxOut.nValue) = some [0, 5360000, 5376771, 81863] := by decide +kernel
  obtain ⟨⟨tx, key⟩, htx, hvout⟩ := Option.map_eq_some_iff.mp hmade
  exact ⟨tx, key, htx, hvout, (coinstake_pays_iff shared_ordinary htx).1 (by decide +kernel)
    shared_rewards⟩

/-! ## Two coinstakes that do not pay -/

/-- The wallet is locked when the block that spends its coin arrives, and unlocked after. -/
def spentStaker : StakingWallet stakedEnv :=
  newStaker.runs [.createCoinStake quietCall, .lock,
    .deliver ⟨true, fun _ => false⟩ spentTx (some spentBlock), .unlock]

def spentCall : StakeCall := { stakedCall with pass := { stakedPass with nBalance := 0 } }

/-- A coin of all the money there can be, unmoved for 2400 days. -/
def hoardTime : Nat := forkTime + 2400 * 24 * 60 * 60

def hoardTx : CTransaction := { stakedTx with vout := [⟨maxMoney, [0x51]⟩] }

def hoardDisk : Disk := coinDisk ⟨forkKernel.blockFrom, [hoardTx], []⟩ hoardTx

def hoardCall : StakeCall :=
  { stakedCall with
    w := { stakedWorld with disk := hoardDisk, nAdjustedTime := hoardTime }
    pass :=
      { nBalance := maxMoney
        setCoins := some [⟨hoardTx, 0⟩]
        spendable := by
          rintro coins ⟨⟩ pcoin hpcoin
          obtain rfl := List.mem_singleton.mp hpcoin
          exact ⟨Nat.zero_lt_one, by decide⟩
        view := ⟨(stakedNode 0).chain, hoardDisk, fun _ => true⟩ }
    nTime := hoardTime }

theorem spent_not_pays (h : tx.vin ≠ []) :
    ¬ spentCall.Pays spentStaker.caches spentStaker.fLocked tx := by
  rintro ⟨coins, _, _, _, hpays⟩
  have hvalue : ∀ pcoin ∈ coins, pcoin.nValue = 10 * coin := by
    intro pcoin hpcoin
    obtain ⟨item, hitem, rfl⟩ := hpays.owned pcoin hpcoin
    have hmem := mem_map_of_mem (f := fun item => item.2.pcoin.nValue) hitem
    exact mem_singleton.mp hmem
  have hten : (0 : Int) < 10 * coin := by decide
  rcases coins with _ | ⟨pcoin, coins⟩
  · exact h (map_eq_nil_iff.mp hpays.spends)
  have hrest : 0 ≤ total coins := by
    apply total_nonneg
    intro pcoin' hpcoin'
    rw [hvalue pcoin' (mem_cons_of_mem _ hpcoin')]
    exact hten.le
  have hreserved : total (pcoin :: coins) ≤ 0 - 0 := hpays.reserved
  rw [total_cons, hvalue pcoin mem_cons_self] at hreserved
  omega

/-- The first is of ten coins that are spent. In the second the reward overflows, and the output is
negative. -/
theorem coinstake_overpays :
    (∃ tx key, (spentStaker.caches.createCoinStake spentStaker.fLocked spentCall).2 = some (tx, key)
      ∧ ¬ spentCall.Pays spentStaker.caches spentStaker.fLocked tx) ∧
    (∃ tx key, (newStaker.caches.createCoinStake false hoardCall).2 = some (tx, key)
      ∧ ∃ out ∈ tx.vout, out.nValue < 0) := by
  have hspent : (spentStaker.caches.createCoinStake spentStaker.fLocked spentCall).2.map
      (fun r => r.1.vin.length) = some 1 := by decide +kernel
  have hhoard : (newStaker.caches.createCoinStake false hoardCall).2.map
      (fun r => r.1.vout.any (fun out => decide (out.nValue < 0))) = some true := by decide +kernel
  obtain ⟨⟨tx, key⟩, htx, hone⟩ := Option.map_eq_some_iff.mp hspent
  obtain ⟨⟨tx', key'⟩, htx', hout⟩ := Option.map_eq_some_iff.mp hhoard
  refine ⟨⟨tx, key, htx, spent_not_pays ?_⟩, ⟨tx', key', htx', ?_⟩⟩
  · intro hnil
    simp [hnil] at hone
  · simpa using hout

end HoboNickels

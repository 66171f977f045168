import HoboNickels.Wallet

/-!
# The wallet remembers what it has spent

When a wallet transaction spends an own output of another one, the flag of that output should be
set, whatever calls of `AddToWalletIfInvolvingMe`, `CommitTransaction` and `DisableTransaction` led
there. `WalletUpdateSpent` marks what a transaction spends only among the transactions the wallet
already has, and for a transaction in a block it also marks the transaction's own outputs unspent.
So a spend is forgotten when the transaction it spends enters the wallet, or is confirmed, after it.
-/

namespace HoboNickels

open Fallible Throwing Throwing.Routine List CWalletTx MapWallet

variable {message : String} {f : Bool}

namespace CWalletTx

variable {wtx wtx' : CWalletTx} {n k : Nat}

theorem isSpent_eq_ok {b : Bool} :
    wtx.isSpent n = .ok b ↔ n < wtx.vout.length ∧ wtx.vfSpent.getD n false = b := by
  unfold isSpent
  rw [bind_eq_ok]
  constructor
  · rintro ⟨_, hrange, hret⟩
    exact ⟨by simpa using hrange, Except.ok.inj hret⟩
  · rintro ⟨hrange, rfl⟩
    exact ⟨(), by simpa using hrange, rfl⟩

theorem length_resizeSpent (l : List Bool) (n : Nat) : (resizeSpent l n).length = n := by
  simp only [resizeSpent, length_append, length_take, length_replicate]
  omega

theorem getD_resizeSpent (l : List Bool) (h : k < n) :
    (resizeSpent l n).getD k false = l.getD k false := by
  simp only [resizeSpent, getD_eq_getElem?_getD]
  by_cases hk : k < l.length
  · rw [getElem?_append_left (by simp; omega), getElem?_take_of_lt h]
  rw [getElem?_append_right (by simp; omega), getElem?_eq_none (by omega : l.length ≤ k)]
  simp [getElem?_replicate]
  split <;> rfl

theorem mark_eq_ok : wtx.mark f message n = .ok wtx' ↔ n < wtx.vout.length ∧
      wtx' = { wtx with vfSpent := (resizeSpent wtx.vfSpent wtx.vout.length).set n f } := by
  unfold mark
  rw [bind_eq_ok]
  constructor
  · rintro ⟨_, hrange, hret⟩
    exact ⟨by simpa using hrange, (Except.ok.inj hret).symm⟩
  · rintro ⟨hrange, rfl⟩
    exact ⟨(), by simpa using hrange, rfl⟩

theorem exists_mark (f : Bool) (message : String) (hn : n < wtx.vout.length) :
    ∃ wtx', wtx.mark f message n = .ok wtx' :=
  ⟨_, mark_eq_ok.mpr ⟨hn, rfl⟩⟩

theorem getD_set_resizeSpent (l : List Bool) (f : Bool) {len : Nat} (hn : n < len) (hk : k < len) :
    ((resizeSpent l len).set n f).getD k false = if k = n then f else l.getD k false := by
  have hlen := length_resizeSpent l len
  by_cases hkn : k = n
  · subst hkn
    simp only [getD_eq_getElem?_getD, if_true]
    rw [getElem?_set_self (by omega)]
    rfl
  · rw [if_neg hkn, ← getD_resizeSpent l hk]
    simp only [getD_eq_getElem?_getD]
    rw [getElem?_set_ne (Ne.symm hkn)]

theorem isSpent_of_mark (h : wtx.mark f message n = .ok wtx') (hk : k < wtx.vout.length) :
    wtx'.isSpent k = if k = n then .ok f else wtx.isSpent k := by
  obtain ⟨hn, rfl⟩ := mark_eq_ok.mp h
  have hget := getD_set_resizeSpent wtx.vfSpent f hn hk
  split
  next hkn =>
    rw [if_pos hkn] at hget
    exact isSpent_eq_ok.mpr ⟨hk, hget⟩
  rename_i hkn
  rw [if_neg hkn] at hget
  have hold : wtx.isSpent k = .ok (wtx.vfSpent.getD k false) := isSpent_eq_ok.mpr ⟨hk, rfl⟩
  rw [hold]
  exact isSpent_eq_ok.mpr ⟨hk, hget⟩

theorem getD_mergeSpent (vfSpent : List Bool) (vfNewSpent : List Bool) (n : Nat)
    (h : vfSpent.getD n false = true) : (mergeSpent vfSpent vfNewSpent).getD n false = true := by
  induction vfSpent generalizing vfNewSpent n with
  | nil => simp at h
  | cons f vfSpent ih =>
    rcases vfNewSpent with _ | ⟨_, vfNewSpent⟩
    · exact h
    rcases n with _ | n
    · simp only [getD_cons_zero] at h
      simp [mergeSpent, h]
    · exact ih vfNewSpent n h

theorem toCTransaction_merge (wtx wtxIn : CWalletTx) :
    (wtx.merge wtxIn).1.toCTransaction = wtx.toCTransaction := by
  unfold merge updateSpent
  simp only
  split <;> split <;> split <;> rfl

theorem isSpent_merge (wtxIn : CWalletTx) (h : wtx.isSpent n = .ok true) :
    (wtx.merge wtxIn).1.isSpent n = .ok true := by
  obtain ⟨_, hflag⟩ := isSpent_eq_ok.mp h
  refine isSpent_eq_ok.mpr ⟨by rwa [toCTransaction_merge], ?_⟩
  refine getD_mergeSpent _ _ n ?_
  split <;> split <;> split <;> exact hflag

end CWalletTx

/-! ## What a call may do to the wallet -/

section Wallet

variable {c : Crypto} {keys : KeyStore} {io : WalletIO}

def CTransaction.Pays (c : Crypto) (keys : KeyStore) (tx : CTransaction) (o : COutPoint) : Prop :=
  c.txHash tx = o.hash ∧ ∃ txout, tx.vout[o.n]? = some txout ∧ keys.isMine txout.scriptPubKey = true

variable {wtx wtxIn : CWalletTx} {h : Uint256} {tx : CTransaction}

namespace MapWallet

def Owned (keys : KeyStore) (w : MapWallet) (o : COutPoint) : Prop :=
  ∃ wtx txout, w o.hash = some wtx ∧ wtx.vout[o.n]? = some txout ∧
    keys.isMine txout.scriptPubKey = true

def Spent (w : MapWallet) (o : COutPoint) : Prop :=
  ∃ wtx, w o.hash = some wtx ∧ wtx.isSpent o.n = .ok true

def txAt (w : MapWallet) (hash : Uint256) : Option CTransaction :=
  (w hash).map fun wtx => wtx.toCTransaction

def SameTxs (w w' : MapWallet) : Prop := ∀ hash, w'.txAt hash = w.txAt hash

/-- Only flags differ, and those of `w` are kept, except those of the outpoints in `X`. -/
structure Flagged (X : COutPoint → Prop) (w w' : MapWallet) : Prop where
  same : SameTxs w w'
  flags : ∀ {o}, w.Spent o → ¬ X o → w'.Spent o

/-- The wallet `w'` has the transactions of `w`, at most blank ones besides, and the flags of `w`,
except those of the outpoints in `X`. -/
structure Grown (X : COutPoint → Prop) (w w' : MapWallet) : Prop where
  kept : ∀ {h wtx}, w h = some wtx →
    ∃ wtx', w' h = some wtx' ∧ wtx'.toCTransaction = wtx.toCTransaction
  origin : ∀ {h wtx'}, w' h = some wtx' →
    (∃ wtx, w h = some wtx ∧ wtx.toCTransaction = wtx'.toCTransaction) ∨
      wtx'.vin = [] ∧ wtx'.vout = []
  flags : ∀ {o}, w.Spent o → ¬ X o → w'.Spent o

variable {X : COutPoint → Prop} {w w' w₁ w₂ : MapWallet} {o : COutPoint}

theorem Grown.owned_iff (h : Grown X w w') : w'.Owned keys o ↔ w.Owned keys o := by
  constructor
  · rintro ⟨wtx', txout, hw', hout, hmine⟩
    rcases h.origin hw' with ⟨wtx, hw, htx⟩ | ⟨-, hvout⟩
    · exact ⟨wtx, txout, hw, by rwa [htx], hmine⟩
    · rw [hvout] at hout
      cases hout
  · rintro ⟨wtx, txout, hw, hout, hmine⟩
    obtain ⟨wtx', hw', htx⟩ := h.kept hw
    exact ⟨wtx', txout, hw', by rwa [htx], hmine⟩

theorem put_self (w : MapWallet) (h : Uint256) (wtx : CWalletTx) : w.put h wtx h = some wtx := by
  exact Function.update_self ..

theorem put_ne {h' : Uint256} (hne : h' ≠ h) (w : MapWallet) (wtx : CWalletTx) :
    w.put h wtx h' = w h' := by
  exact Function.update_of_ne hne ..

theorem forall_put {P : Uint256 → CWalletTx → Prop} (hself : P h wtx)
    (hold : ∀ h' wtx', w h' = some wtx' → P h' wtx') :
    ∀ h' wtx', w.put h wtx h' = some wtx' → P h' wtx' := by
  intro h' wtx' hput
  by_cases heq : h' = h
  · rw [heq, put_self] at hput
    cases hput
    exact heq ▸ hself
  · exact hold h' wtx' (put_ne heq w wtx ▸ hput)

theorem txAt_put_self (w : MapWallet) (h : Uint256) (wtx : CWalletTx) :
    (w.put h wtx).txAt h = some wtx.toCTransaction := by
  rw [txAt, put_self, Option.map_some]

theorem txAt_put_ne {h' : Uint256} (hne : h' ≠ h) (w : MapWallet) (wtx : CWalletTx) :
    (w.put h wtx).txAt h' = w.txAt h' := by
  rw [txAt, put_ne hne, txAt]

theorem txAt_of_some (hw : w h = some wtx) : w.txAt h = some wtx.toCTransaction := by
  rw [txAt, hw, Option.map_some]

theorem exists_of_txAt (hw : w.txAt h = some tx) :
    ∃ wtx, w h = some wtx ∧ wtx.toCTransaction = tx :=
  Option.map_eq_some_iff.mp hw

namespace Flagged

theorem refl (X : COutPoint → Prop) (w : MapWallet) : Flagged X w w :=
  ⟨fun _ => rfl, fun h _ => h⟩

theorem trans (h1 : Flagged X w w₁) (h2 : Flagged X w₁ w₂) : Flagged X w w₂ :=
  ⟨fun hash => (h2.same hash).trans (h1.same hash), fun h hX => h2.flags (h1.flags h hX) hX⟩

theorem mono {Y : COutPoint → Prop} (h : Flagged X w w') (hXY : ∀ o, X o → Y o) : Flagged Y w w' :=
  ⟨h.same, fun hs hY => h.flags hs fun hX => hY (hXY _ hX)⟩

theorem grown (hf : Flagged X w w') : Grown X w w' := by
  refine ⟨fun {h wtx} hw => ?_, fun {h wtx'} hw' => .inl ?_, hf.flags⟩
  · exact exists_of_txAt ((hf.same h).trans (txAt_of_some hw))
  · exact exists_of_txAt ((hf.same h).symm.trans (txAt_of_some hw'))

theorem put {wtx' : CWalletTx} (hw : w h = some wtx)
    (htx : wtx'.toCTransaction = wtx.toCTransaction)
    (hflags : ∀ n, wtx.isSpent n = .ok true → ¬ X ⟨h, n⟩ → wtx'.isSpent n = .ok true) :
    Flagged X w (w.put h wtx') := by
  constructor
  · intro h1
    by_cases heq : h1 = h
    · rw [heq, txAt_put_self, txAt_of_some hw, htx]
    · exact txAt_put_ne heq _ _
  · rintro ⟨h1, n⟩ ⟨wtx1, h1w, hspent⟩ hX
    by_cases heq : h1 = h
    · subst heq
      rw [hw] at h1w
      cases h1w
      exact ⟨wtx', put_self w h1 wtx', hflags n hspent hX⟩
    · exact ⟨wtx1, by rwa [put_ne heq], hspent⟩

theorem put_mark {wtx' : CWalletTx} {n : Nat}
    (hw : w h = some wtx) (hmark : wtx.mark f message n = .ok wtx') (hX : f = false → X ⟨h, n⟩) :
    Flagged X w (w.put h wtx') := by
  refine put hw ?_ ?_
  · obtain ⟨-, rfl⟩ := mark_eq_ok.mp hmark
    rfl
  intro k hspent hk
  rw [isSpent_of_mark hmark (isSpent_eq_ok.mp hspent).1]
  split
  next hkn =>
    subst hkn
    rcases f with _ | _
    · exact absurd (hX rfl) hk
    · rfl
  · exact hspent

end Flagged

theorem Grown.put_blank (hw : w h = none)
    (hblank : wtx.vin = [] ∧ wtx.vout = []) : Grown X w (w.put h wtx) := by
  have hne : ∀ {h1 wtx1}, w h1 = some wtx1 → h1 ≠ h := by
    rintro h1 wtx1 hw1 rfl
    rw [hw] at hw1
    cases hw1
  refine ⟨fun {h1 wtx1} hw1 => ?_, fun {h1 wtx1} hw1 => ?_, ?_⟩
  · exact ⟨wtx1, by rwa [put_ne (hne hw1)], rfl⟩
  · by_cases heq : h1 = h
    · subst heq
      rw [put_self] at hw1
      cases hw1
      exact .inr hblank
    · exact .inl ⟨wtx1, by rwa [put_ne heq] at hw1, rfl⟩
  · rintro o ⟨wtx1, hw1, hspent⟩ _
    exact ⟨wtx1, by rwa [put_ne (hne hw1)], hspent⟩

def Credits (keys : KeyStore) (w : MapWallet) : Prop :=
  ∀ h wtx, w h = some wtx → ∃ nCredit, keys.creditFrom 0 wtx.vout = .ok nCredit

theorem Credits.grown (hcred : Credits keys w) (h : Grown X w w') : Credits keys w' := by
  intro h1 wtx' hw'
  rcases h.origin hw' with ⟨wtx, hw, htx⟩ | ⟨-, hvout⟩
  · rw [← htx]
    exact hcred h1 wtx hw
  · rw [hvout]
    exact ⟨0, rfl⟩

def Keyed (c : Crypto) (w : MapWallet) : Prop :=
  ∀ h wtx, w h = some wtx → c.txHash wtx.toCTransaction = h ∨ wtx.vout = []

theorem Keyed.grown (hkeyed : Keyed c w) (h : Grown X w w') : Keyed c w' := by
  intro h1 wtx' hw'
  rcases h.origin hw' with ⟨wtx, hw, htx⟩ | ⟨-, hvout⟩
  · rw [← htx]
    exact hkeyed h1 wtx hw
  · exact .inr hvout

/-! ## WalletUpdateSpent -/

theorem spendInput_spec (io : WalletIO) (hcred : Credits keys w) (txin : CTxIn) :
    ∃ w', spendInput keys io txin w = .ok w' ∧ Flagged (fun _ => False) w w' ∧
      (w.Owned keys txin.prevout → w'.Spent txin.prevout) := by
  unfold spendInput
  split
  next hnone =>
    refine ⟨w, rfl, Flagged.refl _ w, ?_⟩
    rintro ⟨wtx, txout, hw, -⟩
    rw [hnone] at hw
    cases hw
  rename_i wtx hw
  split
  next hout =>
    refine ⟨w, rfl, Flagged.refl _ w, ?_⟩
    rintro ⟨wtx', txout, hw', hout', -⟩
    rw [hw] at hw'
    cases hw'
    rw [hout] at hout'
    cases hout'
  rename_i txout hout
  have hn : txin.prevout.n < wtx.vout.length := (List.getElem?_eq_some_iff.mp hout).1
  have hspent : wtx.isSpent txin.prevout.n = .ok (wtx.vfSpent.getD txin.prevout.n false) :=
    isSpent_eq_ok.mpr ⟨hn, rfl⟩
  by_cases hcond : (!wtx.vfSpent.getD txin.prevout.n false && keys.isMine txout.scriptPubKey) = true
  · obtain ⟨v, hlog⟩ : ∃ v, keys.getCredit (io.fCreditSummed txin.prevout) wtx = .ok v := by
      unfold KeyStore.getCredit
      split
      · exact hcred _ wtx hw
      · exact ⟨0, rfl⟩
    obtain ⟨wtx', hmark⟩ : ∃ wtx', wtx.markSpent txin.prevout.n = .ok wtx' :=
      exists_mark true _ hn
    refine ⟨w.put txin.prevout.hash wtx', bind_eq_ok.mpr ⟨_, hspent, ?_⟩,
      Flagged.put_mark hw hmark (fun hf => nomatch hf), fun _ => ⟨wtx', put_self .., ?_⟩⟩
    · rw [if_pos hcond]
      exact bind_eq_ok.mpr ⟨v, hlog, bind_eq_ok.mpr ⟨wtx', hmark, rfl⟩⟩
    · rw [isSpent_of_mark hmark hn, if_pos rfl]
  · refine ⟨w, bind_eq_ok.mpr ⟨_, hspent, ?_⟩, Flagged.refl _ w, ?_⟩
    · rw [if_neg hcond]
      rfl
    rintro ⟨wtx', _, hw', hout', hmine⟩
    rw [hw] at hw'
    cases hw'
    rw [hout] at hout'
    cases hout'
    refine ⟨wtx, hw, isSpent_eq_ok.mpr ⟨hn, ?_⟩⟩
    simpa [hmine] using hcond

theorem unspendOutput_ok {txout : CTxOut} {n : Nat}
    (hw : w (c.txHash tx) = some wtx) (hvout : wtx.vout = tx.vout)
    (hout : tx.vout[n]? = some txout) :
    ∃ w', unspendOutput keys (c.txHash tx) (txout, n) w = .ok w' ∧
      Flagged (tx.Pays c keys) w w' := by
  unfold unspendOutput
  split
  next hmine =>
    have hn : n < wtx.vout.length := by
      rw [hvout]
      exact (List.getElem?_eq_some_iff.mp hout).1
    obtain ⟨wtx', hmark⟩ : ∃ wtx', wtx.markUnspent n = .ok wtx' :=
      exists_mark false _ hn
    rw [hw]
    refine ⟨w.put (c.txHash tx) wtx', bind_eq_ok.mpr ⟨wtx', hmark, rfl⟩, ?_⟩
    exact Flagged.put_mark hw hmark fun _ => ⟨rfl, txout, hout, hmine⟩
  · exact ⟨w, rfl, Flagged.refl _ w⟩

theorem Flagged.exists_vout (hg : Flagged X w w') (hw : w h = some wtx) :
    ∃ wtx', w' h = some wtx' ∧ wtx'.vout = wtx.vout := by
  obtain ⟨wtx', hw', htx⟩ := hg.grown.kept hw
  exact ⟨wtx', hw', by rw [htx]⟩

theorem spendInputs_spec (hcred : Credits keys w) (vin : List CTxIn) :
    Triple (· = w) (each (fun txin => atomically (spendInput keys io txin)) vin)
      (fun _ w' => Flagged (fun _ => False) w w' ∧
        ∀ txin ∈ vin, w.Owned keys txin.prevout → w'.Spent txin.prevout)
      (fun _ => False) := by
  refine triple_conseq (triple_each (fun done w' => Flagged (fun _ => False) w w' ∧
      ∀ txin ∈ done, w.Owned keys txin.prevout → w'.Spent txin.prevout) ?_)
    ?_ (fun _ _ h => h) (fun _ h => h)
  · intro done txin _
    refine triple_atomically_ok ?_
    rintro w₁ ⟨hg, hdone⟩
    obtain ⟨w₂, hstep, hg', hspent⟩ := spendInput_spec io (hcred.grown hg.grown) txin
    refine ⟨w₂, hstep, hg.trans hg', fun txin' hmem howned => ?_⟩
    rcases mem_append.mp hmem with hmem | hmem
    · exact hg'.flags (hdone txin' hmem howned) not_false
    · rw [mem_singleton.mp hmem] at howned ⊢
      exact hspent (hg.grown.owned_iff.mpr howned)
  · rintro _ rfl
    exact ⟨Flagged.refl _ _, fun _ hmem => nomatch hmem⟩

theorem unspendOutputs_spec
    (hentry : tx.vout = [] ∨ ∃ wtx, w (c.txHash tx) = some wtx ∧ wtx.vout = tx.vout) :
    Triple (· = w)
      (each (fun out => atomically (unspendOutput keys (c.txHash tx) out)) tx.vout.zipIdx)
      (fun _ w' => Flagged (tx.Pays c keys) w w') (fun _ => False) := by
  refine triple_conseq (triple_each (fun _ w' => Flagged (tx.Pays c keys) w w') ?_)
    ?_ (fun _ _ h => h) (fun _ h => h)
  · rintro _ ⟨txout, n⟩ hmem
    have hout : tx.vout[n]? = some txout := mem_zipIdx_iff_getElem?.mp hmem
    refine triple_atomically_ok ?_
    intro w₁ hg
    rcases hentry with hnil | ⟨wtx, hw, hvout⟩
    · rw [hnil] at hout
      cases hout
    · obtain ⟨_, hw1, hvout1⟩ := hg.exists_vout hw
      obtain ⟨w₂, hok, hg'⟩ := unspendOutput_ok hw1 (hvout1.trans hvout) hout
      exact ⟨w₂, hok, hg.trans hg'⟩
  · rintro _ rfl
    exact Flagged.refl _ _

theorem walletUpdateSpent_spec {fBlock : Bool} (hcred : Credits keys w) (hentry : fBlock = true →
      tx.vout = [] ∨ ∃ wtx, w (c.txHash tx) = some wtx ∧ wtx.vout = tx.vout) :
    Triple (· = w) (walletUpdateSpent c keys io tx fBlock)
      (fun _ w' => Flagged (fun o => fBlock = true ∧ tx.Pays c keys o) w w' ∧
        ∀ txin ∈ tx.vin, w.Owned keys txin.prevout →
          ¬ (fBlock = true ∧ tx.Pays c keys txin.prevout) → w'.Spent txin.prevout)
      (fun _ => False) := by
  refine triple_bind (spendInputs_spec hcred tx.vin) fun _ => ?_
  rintro w₁ ⟨hg, hspent⟩
  rcases fBlock with _ | _
  · exact ⟨hg.mono fun _ => False.elim, fun txin hmem howned _ => hspent txin hmem howned⟩
  have hentry1 : tx.vout = [] ∨ ∃ wtx, w₁ (c.txHash tx) = some wtx ∧ wtx.vout = tx.vout := by
    rcases hentry rfl with hnil | ⟨wtx, hw, hvout⟩
    · exact .inl hnil
    · obtain ⟨wtx1, hw1, hvout1⟩ := hg.exists_vout hw
      exact .inr ⟨wtx1, hw1, hvout1.trans hvout⟩
  refine triple_conseq (unspendOutputs_spec hentry1) (fun _ h => h) ?_ (fun _ h => h) w₁ rfl
  intro _ w₂ hg2
  refine ⟨(hg.mono fun _ => False.elim).trans (hg2.mono fun o ho => ⟨rfl, ho⟩), ?_⟩
  intro txin hmem howned hnot
  exact hg2.flags (hspent txin hmem howned) fun hpays => hnot ⟨rfl, hpays⟩

theorem toCTransaction_delivered (tx : CTransaction) (pblock : Option CBlock) :
    (delivered c tx pblock).toCTransaction = tx := by
  rcases pblock with _ | _
  · rfl
  · unfold delivered CMerkleTx.setMerkleBranch
    simp only
    split <;> rfl

end MapWallet

/-! ## Runs -/

/-- The wallet, and the transactions passed to `DisableTransaction` since they were last added. -/
structure WalletState where
  mapWallet : MapWallet
  disabled : List Uint256

/-- **The wallet never forgets its own spend**: what a wallet transaction that is not disabled
spends of its own is marked spent. -/
def WalletState.Remembers (keys : KeyStore) (s : WalletState) : Prop :=
  ∀ hash wtx, s.mapWallet hash = some wtx → hash ∉ s.disabled →
    ∀ txin ∈ wtx.vin, s.mapWallet.Owned keys txin.prevout → s.mapWallet.Spent txin.prevout

inductive WalletCall where
  | addToWalletIfInvolvingMe (io : WalletIO) (tx : CTransaction) (pblock : Option CBlock)
      (fUpdate : Bool)
  | commitTransaction (io : WalletIO) (nAdjustedTime : Nat) (fAccepted : Bool)
      (wtxNew : CWalletTx)
  | disableTransaction (tx : CTransaction)

namespace WalletState

def adds (c : Crypto) (keys : KeyStore) (s : WalletState) (tx : CTransaction) (fUpdate : Bool) :
    Bool :=
  !((s.mapWallet (c.txHash tx)).isSome && !fUpdate) &&
    match involvesMe c keys tx s.mapWallet with
    | .ok fInvolved => fInvolved
    | .error _ => false

def enable (s : WalletState) (hash : Uint256) : List Uint256 :=
  s.disabled.filter (fun h => decide (h ≠ hash))

end WalletState

def WalletCall.run (c : Crypto) (keys : KeyStore) (s : WalletState) : WalletCall → WalletState
  | addToWalletIfInvolvingMe io tx pblock fUpdate =>
    { mapWallet :=
        (MapWallet.addToWalletIfInvolvingMe c keys io tx pblock fUpdate s.mapWallet).1
      disabled := if s.adds c keys tx fUpdate then s.enable (c.txHash tx) else s.disabled }
  | commitTransaction io nAdjustedTime fAccepted wtxNew =>
    { mapWallet :=
        (MapWallet.commitTransaction c keys io nAdjustedTime fAccepted wtxNew s.mapWallet).1
      disabled := s.enable (c.txHash wtxNew.toCTransaction) }
  | disableTransaction tx =>
    { mapWallet := (MapWallet.disableTransaction keys tx s.mapWallet).1
      disabled := c.txHash tx :: s.disabled }

namespace WalletState

/-- The transaction of the record that is added or updated: the one the wallet has under that hash,
or else the new one. -/
def recordTx (c : Crypto) (s : WalletState) (wtxIn : CWalletTx) : CTransaction :=
  ((s.mapWallet (c.txHash wtxIn.toCTransaction)).getD wtxIn).toCTransaction

def Spends (s : WalletState) (txin : CTxIn) : Prop :=
  ∃ hash wtx, s.mapWallet hash = some wtx ∧ hash ∉ s.disabled ∧ txin ∈ wtx.vin

/-- The record can be written, the amounts are in range, and when the transaction is new or comes in
a block, neither a wallet transaction that is not disabled nor itself spends one of its own outputs.
-/
structure AddOk (c : Crypto) (keys : KeyStore) (s : WalletState) (io : WalletIO)
    (wtxIn : CWalletTx) : Prop where
  written : io.fWritten = true
  amounts : s.mapWallet (c.txHash wtxIn.toCTransaction) = none → wtxIn.getValueOut.isSome = true
  unspent : s.mapWallet (c.txHash wtxIn.toCTransaction) = none ∨ wtxIn.hashBlock ≠ 0 →
    ∀ txin, s.Spends txin ∨ txin ∈ (s.recordTx c wtxIn).vin →
      ¬ (s.recordTx c wtxIn).Pays c keys txin.prevout

theorem AddOk.of_new {s : WalletState}
    (hnew : s.mapWallet (c.txHash wtxIn.toCTransaction) = none)
    (hwritten : io.fWritten = true) (hamounts : wtxIn.getValueOut.isSome = true)
    (hself : ∀ txin ∈ wtxIn.vin, txin.prevout.hash ≠ c.txHash wtxIn.toCTransaction)
    (hothers : ∀ hash wtx, s.mapWallet hash = some wtx →
      ∀ txin ∈ wtx.vin, txin.prevout.hash ≠ c.txHash wtxIn.toCTransaction) :
    s.AddOk c keys io wtxIn := by
  have hrecord : s.recordTx c wtxIn = wtxIn.toCTransaction := by
    unfold recordTx
    rw [hnew]
    rfl
  refine ⟨hwritten, fun _ => hamounts, ?_⟩
  rw [hrecord]
  rintro - txin hspends ⟨hhash, -⟩
  rcases hspends with ⟨hash, wtx, hw, -, hmem⟩ | hmem
  · exact hothers hash wtx hw txin hmem hhash.symm
  · exact hself txin hmem hhash.symm

/-- A disabled transaction that releases its inputs shares none with another one that is not
disabled. -/
def DisableOk (c : Crypto) (keys : KeyStore) (s : WalletState) (tx : CTransaction) : Prop :=
  tx.isCoinStake = true → keys.isFromMe s.mapWallet tx = .ok true →
    ∀ hash wtx, s.mapWallet hash = some wtx → hash ∉ c.txHash tx :: s.disabled →
      ∀ txin ∈ wtx.vin, s.mapWallet.Owned keys txin.prevout →
        txin.prevout ∉ tx.vin.map CTxIn.prevout

end WalletState

def WalletCall.Ok (c : Crypto) (keys : KeyStore) (s : WalletState) : WalletCall → Prop
  | addToWalletIfInvolvingMe io tx pblock fUpdate =>
    s.adds c keys tx fUpdate = true → s.AddOk c keys io (delivered c tx pblock)
  | commitTransaction io _ _ wtxNew => s.AddOk c keys io wtxNew
  | disableTransaction tx => s.DisableOk c keys tx

def WalletRun (c : Crypto) (keys : KeyStore) : WalletState → WalletState → Prop :=
  Relation.ReflTransGen fun s s' => ∃ call : WalletCall, call.Ok c keys s ∧ s' = call.run c keys s

/-! ## What every call keeps -/

theorem creditFrom_ok {outs : List CTxOut} {acc total v : Int} (hacc : 0 ≤ acc)
    (hle : acc ≤ total) (h : CTransaction.valueOutFrom total outs = some v) :
    ∃ nCredit, keys.creditFrom acc outs = .ok nCredit := by
  induction outs generalizing acc total with
  | nil => exact ⟨acc, rfl⟩
  | cons out rest ih =>
    unfold CTransaction.valueOutFrom at h
    split at h
    next hrange =>
      obtain ⟨hout, hsum⟩ := Bool.and_eq_true_iff.mp hrange
      have hout' := moneyRange_iff.mp hout
      have hsum' := moneyRange_iff.mp hsum
      have hnext : 0 ≤ acc + (if keys.isMine out.scriptPubKey then out.nValue else 0) ∧
          acc + (if keys.isMine out.scriptPubKey then out.nValue else 0) ≤ total + out.nValue := by
        split <;> omega
      obtain ⟨nCredit, hrest⟩ := ih hnext.1 hnext.2 h
      refine ⟨nCredit, bind_eq_ok.mpr ⟨(), require_eq_ok.mpr hout, bind_eq_ok.mpr ⟨(), ?_, hrest⟩⟩⟩
      exact require_eq_ok.mpr (moneyRange_iff.mpr ⟨hnext.1, by omega⟩)
    · cases h

theorem KeyStore.debitFrom_eq {w : MapWallet} {vin : List CTxIn} {acc : Int} (hacc : 0 ≤ acc)
    (hpos : ∀ txin ∈ vin, 0 ≤ keys.debitOf w txin)
    (hsum : acc + (vin.map (keys.debitOf w)).sum ≤ maxMoney) :
    keys.debitFrom w acc vin = .ok (acc + (vin.map (keys.debitOf w)).sum) := by
  induction vin generalizing acc with
  | nil => simp [KeyStore.debitFrom]
  | cons txin rest ih =>
    obtain ⟨hv, hrest⟩ := forall_mem_cons.mp hpos
    have hnonneg : 0 ≤ (rest.map (keys.debitOf w)).sum := sum_nonneg (by simpa using hrest)
    rw [map_cons, sum_cons, ← add_assoc] at hsum ⊢
    rw [KeyStore.debitFrom, moneyRange_iff.mpr ⟨by omega, by omega⟩]
    exact ih (by omega) hrest hsum

structure WalletState.Sound (c : Crypto) (keys : KeyStore) (s : WalletState) : Prop where
  keyed : s.mapWallet.Keyed c
  credits : s.mapWallet.Credits keys
  remembers : s.Remembers keys

namespace WalletState

open MapWallet

variable {s : WalletState} {X : COutPoint → Prop} {w' : MapWallet}

theorem Sound.grown (hs : s.Sound c keys) {disabled : List Uint256} (hg : Grown X s.mapWallet w')
    (hsub : ∀ h ∈ s.disabled, h ∈ disabled)
    (hX : ∀ hash wtx, s.mapWallet hash = some wtx → hash ∉ disabled →
      ∀ txin ∈ wtx.vin, s.mapWallet.Owned keys txin.prevout → ¬ X txin.prevout) :
    Sound c keys ⟨w', disabled⟩ := by
  refine ⟨hs.keyed.grown hg, hs.credits.grown hg, ?_⟩
  intro hash wtx' hw' hdis txin hmem howned
  rcases hg.origin hw' with ⟨wtx, hw, htx⟩ | ⟨hvin, -⟩
  · rw [← htx] at hmem
    have hown := hg.owned_iff.mp howned
    have hspent := hs.remembers hash wtx hw (fun h => hdis (hsub hash h)) txin hmem hown
    exact hg.flags hspent (hX hash wtx hw hdis txin hmem hown)
  · rw [hvin] at hmem
    cases hmem

theorem Sound.grown_false (hs : s.Sound c keys)
    (hg : Grown (fun _ => False) s.mapWallet w') : Sound c keys ⟨w', s.disabled⟩ :=
  hs.grown hg (fun _ h => h) fun _ _ _ _ _ _ _ => not_false

theorem entered_of_none (hnone : s.mapWallet (c.txHash wtxIn.toCTransaction) = none) :
    s.mapWallet.entered c wtxIn = (wtxIn, true) := by
  unfold entered
  rw [hnone]

theorem toCTransaction_entered (s : WalletState) (wtxIn : CWalletTx) :
    (s.mapWallet.entered c wtxIn).1.toCTransaction = s.recordTx c wtxIn := by
  unfold entered recordTx
  rcases s.mapWallet (c.txHash wtxIn.toCTransaction) with _ | wtx
  · rfl
  · exact toCTransaction_merge wtx wtxIn

theorem grown_entered (hw : s.mapWallet (c.txHash wtxIn.toCTransaction) = some wtx) :
    Grown (fun _ => False) s.mapWallet
      (s.mapWallet.put (c.txHash wtxIn.toCTransaction) (s.mapWallet.entered c wtxIn).1) := by
  unfold entered
  rw [hw]
  refine Flagged.grown (.put hw (toCTransaction_merge wtx wtxIn) ?_)
  intro n hspent _
  exact isSpent_merge wtxIn hspent

structure Entered (c : Crypto) (keys : KeyStore) (s : WalletState) (wtxIn : CWalletTx)
    (w₁ : MapWallet) : Prop where
  keyed : w₁.Keyed c
  credits : w₁.Credits keys
  remembers : ∀ hash wtx, w₁ hash = some wtx → hash ≠ c.txHash wtxIn.toCTransaction →
    hash ∉ s.enable (c.txHash wtxIn.toCTransaction) → ∀ txin ∈ wtx.vin,
      w₁.Owned keys txin.prevout → w₁.Spent txin.prevout

theorem not_mem_disabled {hash : Uint256} (hne : hash ≠ h) (hdis : hash ∉ s.enable h) :
    hash ∉ s.disabled := by
  intro hmem
  exact hdis (mem_filter.mpr ⟨hmem, decide_eq_true hne⟩)

theorem Sound.entered (hs : s.Sound c keys) (hok : s.AddOk c keys io wtxIn) :
    Entered c keys s wtxIn
      (s.mapWallet.put (c.txHash wtxIn.toCTransaction) (s.mapWallet.entered c wtxIn).1) := by
  rcases hw : s.mapWallet (c.txHash wtxIn.toCTransaction) with _ | wtx
  · -- a new record: nothing that was there is changed
    have hunspent := hok.unspent (.inl hw)
    rw [← toCTransaction_entered, entered_of_none hw] at hunspent
    rw [entered_of_none hw]
    obtain ⟨v, hv⟩ := Option.isSome_iff_exists.mp (hok.amounts hw)
    refine ⟨forall_put (.inl rfl) hs.keyed,
      forall_put (creditFrom_ok (Int.le_refl 0) (Int.le_refl 0) hv) hs.credits, ?_⟩
    intro hash wtx hput hne hdis txin hmem howned
    have hold : s.mapWallet hash = some wtx := by rwa [put_ne hne] at hput
    obtain ⟨prev, txout, hprev, hout, hmine⟩ := howned
    by_cases heq : txin.prevout.hash = c.txHash wtxIn.toCTransaction
    · rw [heq, put_self] at hprev
      cases hprev
      exact absurd ⟨heq.symm, txout, hout, hmine⟩
        (hunspent txin (.inl ⟨hash, wtx, hold, not_mem_disabled hne hdis, hmem⟩))
    rw [put_ne heq] at hprev
    obtain ⟨prev', _, hspent⟩ := hs.remembers hash wtx hold
      (not_mem_disabled hne hdis) txin hmem ⟨prev, txout, hprev, hout, hmine⟩
    exact ⟨prev', by rwa [put_ne heq], hspent⟩
  · have hsound := hs.grown_false (grown_entered hw)
    refine ⟨hsound.keyed, hsound.credits, ?_⟩
    intro hash wtx hput hne hdis txin hmem howned
    exact hsound.remembers hash wtx hput (not_mem_disabled hne hdis) txin hmem howned

theorem Entered.updated {w₁ w₂ : MapWallet}
    (he : Entered c keys s wtxIn w₁) (hw : w₁ (c.txHash wtxIn.toCTransaction) = some wtx)
    (hg : Grown X w₁ w₂) (hspent : ∀ txin ∈ wtx.vin, w₁.Owned keys txin.prevout → ¬ X txin.prevout →
      w₂.Spent txin.prevout)
    (hX : ∀ hash wtx', w₁ hash = some wtx' → hash ∉ s.enable (c.txHash wtxIn.toCTransaction) →
      ∀ txin ∈ wtx'.vin, ¬ X txin.prevout) :
    Sound c keys ⟨w₂, s.enable (c.txHash wtxIn.toCTransaction)⟩ := by
  refine ⟨he.keyed.grown hg, he.credits.grown hg, ?_⟩
  intro hash wtx' hw2 hdis txin hmem howned
  rcases hg.origin hw2 with ⟨wtx1, hw1, htx⟩ | ⟨hvin, -⟩
  · rw [← htx] at hmem
    have hown := hg.owned_iff.mp howned
    have hnot := hX hash wtx1 hw1 hdis txin hmem
    by_cases heq : hash = c.txHash wtxIn.toCTransaction
    · subst heq
      rw [hw] at hw1
      cases hw1
      exact hspent txin hmem hown hnot
    · exact hg.flags (he.remembers hash wtx1 hw1 heq hdis txin hmem hown) hnot
  · rw [hvin] at hmem
    cases hmem

theorem addToWallet_sound (hs : s.Sound c keys) (hok : s.AddOk c keys io wtxIn) :
    Triple (· = s.mapWallet) (addToWallet c keys io wtxIn)
      (fun _ w => Sound c keys ⟨w, s.enable (c.txHash wtxIn.toCTransaction)⟩)
      (fun _ => False) := by
  have he := hs.entered hok
  intro _ hw
  rw [hw, addToWallet_eq]
  have hself := put_self s.mapWallet (c.txHash wtxIn.toCTransaction) (s.mapWallet.entered c wtxIn).1
  have hwritten : ((s.mapWallet.entered c wtxIn).2 && !io.fWritten) = false := by
    rw [hok.written, Bool.not_true, Bool.and_false]
  simp only [hwritten, Bool.false_eq_true, if_false]
  refine triple_bind (walletUpdateSpent_spec he.credits ?_) (fun _ => triple_ret ?_) _ rfl
  · intro _
    rcases he.keyed _ _ hself with hkey | hnil
    · rw [hkey]
      exact .inr ⟨_, hself, rfl⟩
    · exact .inl hnil
  · rintro _ ⟨hg, hspent⟩
    refine he.updated hself hg.grown hspent ?_
    rintro hash wtx hw1 hdis txin hmem ⟨hblock, hpays⟩
    rw [toCTransaction_entered] at hpays
    refine hok.unspent (.inr (by simpa using hblock)) txin ?_ hpays
    by_cases heq : hash = c.txHash wtxIn.toCTransaction
    · rw [heq, hself] at hw1
      cases hw1
      rw [toCTransaction_entered] at hmem
      exact .inr hmem
    · rw [put_ne heq] at hw1
      exact .inl ⟨hash, wtx, hw1, not_mem_disabled heq hdis, hmem⟩

theorem notInvolved_sound (hs : s.Sound c keys) (tx : CTransaction) :
    Triple (· = s.mapWallet) (walletUpdateSpent c keys io tx false)
      (fun _ w => Sound c keys ⟨w, s.disabled⟩) (fun _ => False) := by
  refine triple_conseq (walletUpdateSpent_spec hs.credits fun h => nomatch h) (fun _ h => h)
    ?_ (fun _ h => h)
  rintro _ w ⟨hg, -⟩
  exact hs.grown_false (hg.mono fun _ h => nomatch h.1).grown

theorem addToWalletIfInvolvingMe_sound {pblock : Option CBlock}
    {fUpdate : Bool} (hs : s.Sound c keys)
    (hok : s.adds c keys tx fUpdate = true → s.AddOk c keys io (delivered c tx pblock)) :
    Sound c keys ((WalletCall.addToWalletIfInvolvingMe io tx pblock fUpdate).run c keys s) := by
  refine Triple.final (P := (· = s.mapWallet)) (R := fun w => Sound c keys
    ⟨w, if s.adds c keys tx fUpdate then s.enable (c.txHash tx) else s.disabled⟩) ?_ rfl
  refine triple_bind (Q := fun fExisted w => fExisted = (s.mapWallet (c.txHash tx)).isSome ∧
    w = s.mapWallet) (triple_ask ?_ fun _ _ _ h => nomatch h) fun fExisted => ?_
  · rintro _ fExisted rfl h
    exact ⟨(Except.ok.inj h).symm, rfl⟩
  rintro w0 ⟨rfl, rfl⟩
  by_cases hskip : ((s.mapWallet (c.txHash tx)).isSome && !fUpdate) = true
  · simp only [adds, hskip, Bool.not_true, Bool.false_and, if_true, Bool.false_eq_true, if_false]
    exact hs
  simp only [adds, hskip, Bool.not_false, Bool.true_and] at hok ⊢
  refine triple_bind (Q := fun fInvolved w => involvesMe c keys tx s.mapWallet = .ok fInvolved ∧
    w = s.mapWallet) (triple_ask ?_ ?_) (fun fInvolved => ?_) s.mapWallet rfl
  · rintro _ fInvolved rfl h
    exact ⟨h, rfl⟩
  · rintro _ e rfl h
    rw [h]
    exact hs
  rintro w0 ⟨hinv, rfl⟩
  rw [hinv] at hok ⊢
  rcases fInvolved with _ | _
  · have hmark : Triple (· = s.mapWallet) (do walletUpdateSpent c keys io tx false; return false)
        (fun _ w => Sound c keys ⟨w, s.disabled⟩) (fun _ => False) :=
      triple_bind (notInvolved_sound hs tx) fun _ => triple_ret fun _ h => h
    exact triple_conseq hmark (fun _ h => h) (fun _ _ h => h) (fun _ => False.elim) s.mapWallet rfl
  · have hadd := addToWallet_sound hs (hok rfl)
    rw [toCTransaction_delivered] at hadd
    exact triple_conseq hadd (fun _ h => h) (fun _ _ h => h) (fun _ => False.elim) s.mapWallet rfl

theorem spendCoin_sound (nAdjustedTime : Nat) (txin : CTxIn) (disabled : List Uint256) :
    Triple (fun w => Sound c keys ⟨w, disabled⟩) (spendCoin nAdjustedTime txin)
      (fun _ w => Sound c keys ⟨w, disabled⟩) (fun w => Sound c keys ⟨w, disabled⟩) := by
  refine triple_bind (Q := fun _ w => Sound c keys ⟨w, disabled⟩ ∧
      ∃ coin, w txin.prevout.hash = some coin)
    (triple_atomically ?_ fun _ _ _ h => nomatch h) fun _ => triple_atomically ?_ ?_
  · intro w w₁ hs h
    cases h
    refine ⟨hs.grown_false ?_, _, put_self ..⟩
    rcases hw : w txin.prevout.hash with _ | coin
    · exact Grown.put_blank hw ⟨rfl, rfl⟩
    · exact (Flagged.put hw rfl fun _ h _ => h).grown
  · rintro w w₁ ⟨hs, coin, hw⟩ h
    obtain ⟨_, hmark, hret⟩ := bind_eq_ok.mp h
    cases hret
    rw [hw] at hmark
    exact hs.grown_false (Flagged.put_mark hw hmark fun hf => nomatch hf).grown
  · rintro w _ ⟨hs, -⟩ _
    exact hs

theorem commitTransaction_sound {nAdjustedTime : Nat} {fAccepted : Bool} {wtxNew : CWalletTx}
    (hs : s.Sound c keys) (hok : s.AddOk c keys io wtxNew) :
    Sound c keys
      ((WalletCall.commitTransaction io nAdjustedTime fAccepted wtxNew).run c keys s) := by
  refine Triple.final (P := (· = s.mapWallet)) (R := fun w => Sound c keys
    ⟨w, s.enable (c.txHash wtxNew.toCTransaction)⟩) ?_ rfl
  refine triple_bind (triple_conseq (addToWallet_sound hs hok) (fun _ h => h) (fun _ _ h => h)
    fun _ => False.elim) fun _ => ?_
  refine triple_bind (triple_each (fun _ w => Sound c keys
    ⟨w, s.enable (c.txHash wtxNew.toCTransaction)⟩) ?_) fun _ => triple_ret fun _ h => h
  intro _ txin _
  exact spendCoin_sound nAdjustedTime txin _

theorem refundInput_spec {txin : CTxIn} {w w₁ : MapWallet} (h : refundInput keys txin w = .ok w₁) :
    Flagged (· = txin.prevout) w w₁ := by
  unfold refundInput at h
  split at h
  · cases h
    exact Flagged.refl _ w
  rename_i prev hw
  split at h
  · cases h
    exact Flagged.refl _ w
  split at h
  · obtain ⟨_, hmark, hret⟩ := bind_eq_ok.mp h
    cases hret
    exact Flagged.put_mark hw hmark fun _ => rfl
  · cases h
    exact Flagged.refl _ w

theorem refundInputs_spec {w : MapWallet} (vin : List CTxIn) :
    Triple (· = w) (each (fun txin => atomically (refundInput keys txin)) vin)
      (fun _ w₁ => Flagged (· ∈ vin.map CTxIn.prevout) w w₁)
      (fun w₁ => Flagged (· ∈ vin.map CTxIn.prevout) w w₁) := by
  refine triple_conseq (triple_each (fun _ w₁ => Flagged (· ∈ vin.map CTxIn.prevout) w w₁) ?_)
    ?_ (fun _ _ h => h) (fun _ h => h)
  · intro _ txin hmem
    refine triple_atomically (fun w₁ w₂ hg h => hg.trans ((refundInput_spec h).mono ?_))
      fun _ _ hg _ => hg
    rintro _ rfl
    exact mem_map_of_mem hmem
  · rintro _ rfl
    exact Flagged.refl _ _

theorem disableTransaction_sound (hs : s.Sound c keys) (hok : s.DisableOk c keys tx) :
    Sound c keys ((WalletCall.disableTransaction tx).run c keys s) := by
  refine Triple.final (P := (· = s.mapWallet)) (R := fun w => Sound c keys
    ⟨w, c.txHash tx :: s.disabled⟩) ?_ rfl
  have hmore : ∀ h ∈ s.disabled, h ∈ c.txHash tx :: s.disabled := fun h => mem_cons_of_mem _
  have hstay : Sound c keys ⟨s.mapWallet, c.txHash tx :: s.disabled⟩ :=
    hs.grown (Flagged.refl (fun _ => False) _).grown hmore fun _ _ _ _ _ _ _ => not_false
  rintro _ rfl
  unfold disableTransaction
  rcases hstake : tx.isCoinStake with _ | _
  · exact hstay
  refine triple_bind (Q := fun fFromMe w => keys.isFromMe s.mapWallet tx = .ok fFromMe ∧
    w = s.mapWallet) (triple_ask ?_ ?_) (fun fFromMe => ?_) s.mapWallet rfl
  · rintro _ fFromMe rfl h
    exact ⟨h, rfl⟩
  · rintro _ _ rfl _
    exact hstay
  rintro _ ⟨hfrom, rfl⟩
  rcases fFromMe with _ | _
  · exact hstay
  have hrefund : ∀ w, Flagged (· ∈ tx.vin.map CTxIn.prevout) s.mapWallet w →
      Sound c keys ⟨w, c.txHash tx :: s.disabled⟩ :=
    fun w hg => hs.grown hg.grown hmore (hok hstake hfrom)
  exact triple_conseq (refundInputs_spec tx.vin) (fun _ h => h) (fun _ => hrefund) hrefund
    s.mapWallet rfl

end WalletState

theorem WalletCall.sound {s : WalletState} {call : WalletCall} (hs : s.Sound c keys)
    (hok : call.Ok c keys s) : (call.run c keys s).Sound c keys := by
  rcases call with ⟨io, tx, _, _⟩ | ⟨io, _, _, _⟩ | ⟨tx⟩
  · exact WalletState.addToWalletIfInvolvingMe_sound hs hok
  · exact WalletState.commitTransaction_sound hs hok
  · exact WalletState.disableTransaction_sound hs hok

/-- **The wallet never forgets its own spend** in any run, from a sound wallet, all of whose calls
are made in order. -/
theorem wallet_remembers_spends {s s' : WalletState} (hs : s.Sound c keys)
    (hrun : WalletRun c keys s s') : s'.Remembers keys := by
  have hsound : s'.Sound c keys := by
    induction hrun with
    | refl => exact hs
    | tail _ hstep ih =>
      obtain ⟨_, hok, rfl⟩ := hstep
      exact WalletCall.sound ih hok
  exact hsound.remembers

end Wallet

/-! ## Two payments -/

def timeCrypto : Crypto where
  txHash := CTransaction.nTime
  scryptBlockhash := CBlockHeader.nTime
  hashPair := fun a b => a + b
  hashKernel := fun _ _ _ _ _ _ => 0

def payKeys : KeyStore where
  isMine := fun script => decide (script = [1])
  nMinimumInputValue := 0

def payIO : WalletIO := ⟨true, fun _ => true⟩

def incomingTx : CTransaction := ⟨1, 100, [⟨⟨90, 0⟩, [], 0⟩], [⟨5000000, [1]⟩], 0⟩

def incomingBlock : CBlock := ⟨⟨4, 0, 100, 700, 0, 0⟩, [incomingTx], []⟩

def outgoingTx : CTransaction := ⟨1, 101, [⟨⟨100, 0⟩, [], 0⟩], [⟨4000000, [2]⟩], 0⟩

def emptyWallet : WalletState := ⟨fun _ => none, []⟩

theorem sound_emptyWallet : emptyWallet.Sound timeCrypto payKeys := by
  refine ⟨?_, ?_, ?_⟩
  · intro _ _ h
    cases h
  · intro _ _ h
    cases h
  · intro _ _ h
    cases h

def receiveConfirmed : WalletCall := .addToWalletIfInvolvingMe payIO incomingTx incomingBlock true

def receiveUnconfirmed : WalletCall := .addToWalletIfInvolvingMe payIO incomingTx none true

def spendIncoming : WalletCall := .commitTransaction payIO 1000 true (CWalletTx.ofTx outgoingTx)

def confirmedIncoming : CWalletTx :=
  { incomingTx with hashBlock := 700, vMerkleBranch := [], nIndex := 0, fFromMe := false,
                    vfSpent := [] }

def runCalls (calls : List WalletCall) : WalletState :=
  calls.foldl (fun s call => call.run timeCrypto payKeys s) emptyWallet

theorem wallet_remembers_spends_confirmed :
    let s := runCalls [receiveConfirmed, spendIncoming]
    (s.mapWallet 100).map CWalletTx.vfSpent = some [true] ∧ s.Remembers payKeys := by
  refine ⟨by decide +kernel, wallet_remembers_spends sound_emptyWallet
    (.tail (.single ⟨receiveConfirmed, ?_, rfl⟩) ⟨spendIncoming, ?_, rfl⟩)⟩
  · intro _
    refine WalletState.AddOk.of_new rfl rfl (by decide +kernel) (by decide +kernel) ?_
    intro _ _ h
    cases h
  refine WalletState.AddOk.of_new (by decide +kernel) rfl (by decide +kernel) (by decide +kernel) ?_
  intro hash wtx hw
  have hwallet : (receiveConfirmed.run timeCrypto payKeys emptyWallet).mapWallet
      = ((MapWallet.put (fun _ => none) 100 confirmedIncoming).put 100
          { confirmedIncoming with vfSpent := [false] }) := rfl
  rw [hwallet] at hw
  by_cases heq : hash = 100
  · subst heq
    cases hw
    decide +kernel
  · rw [put_ne heq, put_ne heq] at hw
    cases hw

/-- An unconfirmed payment is spent and then confirmed: the wallet takes the coin for unspent
again. -/
theorem spend_forgotten_on_confirmation :
    ¬ (runCalls [receiveUnconfirmed, spendIncoming, receiveConfirmed]).Remembers payKeys := by
  set w := runCalls [receiveUnconfirmed, spendIncoming, receiveConfirmed]
  intro h
  have hout : (w.mapWallet 101).map (fun wtx => wtx.vin) = some outgoingTx.vin := by
    decide +kernel
  have hin : (w.mapWallet 100).map (fun wtx => (wtx.vout, wtx.vfSpent))
      = some (incomingTx.vout, [false]) := by
    decide +kernel
  obtain ⟨outgoing, hw, hvin⟩ := Option.map_eq_some_iff.mp hout
  obtain ⟨incoming, hw', heq⟩ := Option.map_eq_some_iff.mp hin
  obtain ⟨hvout, hflags⟩ := Prod.mk.inj heq
  have howned : w.mapWallet.Owned payKeys ⟨100, 0⟩ :=
    ⟨incoming, ⟨5000000, [1]⟩, hw', by rw [hvout]; rfl, by decide⟩
  obtain ⟨wtx, hwtx, hspent⟩ := h 101 outgoing hw (by decide +kernel) ⟨⟨100, 0⟩, [], 0⟩
    (by rw [hvin]; exact mem_cons_self) howned
  have hsame : wtx = incoming := Option.some.inj (hwtx.symm.trans hw')
  have hflag := (isSpent_eq_ok.mp hspent).2
  rw [hsame, hflags] at hflag
  cases hflag

end HoboNickels

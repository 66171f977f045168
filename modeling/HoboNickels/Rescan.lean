import HoboNickels.NoThrow
import HoboNickels.WalletLoad

/-!
# Rescanning the chain

`CWallet::ScanForWalletTransactions` offers every transaction of the main chain to the wallet, but
leaves out blocks more than two hours older than the birthday `nTimeFirstKey`. After a rescan from
the genesis block the wallet has every transaction that pays it exactly when those that the file
does not have stand in blocks that were not left out (`rescan_finds_all_iff`).

The birthday can be too late: the loader takes a creation time of zero, "unknown", for the absence
of a birthday, and replaces it by the time of the next key (`imported_key_not_found`).
-/

namespace HoboNickels

open Fallible Throwing Throwing.Routine List WalletLoad.LoadState Option

namespace MapWallet

variable {c : Crypto} {keys : KeyStore} {io : WalletIO} {w w' w₁ : MapWallet}

variable {hash : Uint256} {tx : CTransaction}

theorem txAt_eq_none : w.txAt hash = none ↔ w hash = none :=
  map_eq_none_iff

/-- Every transaction is under its own hash and has a credit. -/
structure Stored (c : Crypto) (keys : KeyStore) (w : MapWallet) : Prop where
  hashed : ∀ hash tx, w.txAt hash = some tx → c.txHash tx = hash
  credits : ∀ hash tx, w.txAt hash = some tx → ∃ nCredit, keys.creditFrom 0 tx.vout = .ok nCredit

theorem Stored.credits' (h : Stored c keys w) : Credits keys w :=
  fun hash wtx hw => h.credits hash wtx.toCTransaction (txAt_of_some hw)

theorem Stored.same (h : Stored c keys w) (hsame : SameTxs w w') : Stored c keys w' :=
  ⟨fun hash tx htx => h.hashed hash tx ((hsame hash).symm.trans htx),
    fun hash tx htx => h.credits hash tx ((hsame hash).symm.trans htx)⟩

/-- The transaction is added if the wallet does not have it. -/
structure Added (c : Crypto) (tx : CTransaction) (w w' : MapWallet) : Prop where
  self : w'.txAt (c.txHash tx) = some ((w.txAt (c.txHash tx)).getD tx)
  others : ∀ hash, hash ≠ c.txHash tx → w'.txAt hash = w.txAt hash

theorem Added.same (h : Added c tx w w₁) (hsame : SameTxs w₁ w') : Added c tx w w' :=
  ⟨(hsame _).trans h.self, fun hash hne => (hsame hash).trans (h.others hash hne)⟩

theorem Added.stored (h : Stored c keys w) (hadd : Added c tx w w')
    (hvalue : tx.getValueOut ≠ none) : Stored c keys w' := by
  have hcases : ∀ hash tx', w'.txAt hash = some tx' →
      w.txAt hash = some tx' ∨ hash = c.txHash tx ∧ tx' = tx := by
    intro hash tx' htx'
    by_cases heq : hash = c.txHash tx
    · subst heq
      rw [hadd.self] at htx'
      cases hold : w.txAt (c.txHash tx) with
      | none =>
        rw [hold] at htx'
        exact .inr ⟨rfl, (some.inj htx').symm⟩
      | some old =>
        rw [hold] at htx'
        exact .inl htx'
    · exact .inl ((hadd.others hash heq).symm.trans htx')
  refine ⟨fun hash tx' htx' => ?_, fun hash tx' htx' => ?_⟩
  · rcases hcases hash tx' htx' with hold | ⟨rfl, rfl⟩
    · exact h.hashed hash tx' hold
    · rfl
  rcases hcases hash tx' htx' with hold | ⟨rfl, rfl⟩
  · exact h.credits hash tx' hold
  · obtain ⟨v, hv⟩ := ne_none_iff_exists'.mp hvalue
    exact creditFrom_ok (Int.le_refl 0) (Int.le_refl 0) hv

theorem added_entered (w : MapWallet) (wtxIn : CWalletTx) :
    Added c wtxIn.toCTransaction w
      (w.put (c.txHash wtxIn.toCTransaction) (entered c w wtxIn).1) := by
  refine ⟨?_, fun hash hne => txAt_put_ne hne _ _⟩
  rw [txAt_put_self]
  unfold entered
  cases hw : w (c.txHash wtxIn.toCTransaction) with
  | none => rw [txAt_eq_none.mpr hw, getD_none]
  | some wtx =>
    rw [txAt_of_some hw]
    exact congrArg some (CWalletTx.toCTransaction_merge wtx wtxIn)

theorem addToWallet_added {wtxIn : CWalletTx} (h : Stored c keys w)
    (hvalue : wtxIn.toCTransaction.getValueOut ≠ none) :
    Triple (· = w) (addToWallet c keys io wtxIn)
      (fun _ w' => Added c wtxIn.toCTransaction w w') (fun _ => False) := by
  have hentered : Added c wtxIn.toCTransaction w _ := added_entered w wtxIn
  have hstored := hentered.stored h hvalue
  intro _ hw
  rw [hw, addToWallet_eq]
  by_cases hwritten : ((w.entered c wtxIn).2 && !io.fWritten) = true
  · simp only [hwritten, if_true]
    exact hentered
  simp only [hwritten]
  have hself := txAt_put_self w (c.txHash wtxIn.toCTransaction) (w.entered c wtxIn).1
  have hkey := hstored.hashed _ _ hself
  refine triple_bind (walletUpdateSpent_spec hstored.credits' ?_) (fun _ => triple_ret ?_) _ rfl
  · intro _
    rw [hkey]
    exact .inr ⟨_, put_self _ _ _, rfl⟩
  · rintro _ ⟨hflagged, -⟩
    exact hentered.same hflagged.same

/-- The sum of what the transaction spends of a wallet is in range. On the main chain
`ConnectInputs` has checked it. -/
def SpendsInRange (c : Crypto) (tx : CTransaction) : Prop :=
  ∃ amount : COutPoint → Int, (∀ o, 0 ≤ amount o) ∧
    (∀ prev n txout, prev.vout[n]? = some txout → ⟨c.txHash prev, n⟩ ∈ tx.vin.map CTxIn.prevout →
      txout.nValue = amount ⟨c.txHash prev, n⟩) ∧
    (tx.vin.map fun txin => amount txin.prevout).sum ≤ maxMoney

theorem isFromMe_ok (h : Stored c keys w) (hspends : SpendsInRange c tx) :
    ∃ fFromMe, keys.isFromMe w tx = .ok fFromMe := by
  obtain ⟨amount, hpos, hamount, _⟩ := hspends
  have hdebit : ∀ txin ∈ tx.vin,
      0 ≤ keys.debitOf w txin ∧ keys.debitOf w txin ≤ amount txin.prevout := by
    intro txin hmem
    have hnonneg := hpos txin.prevout
    fun_cases KeyStore.debitOf with
    | case3 prev hprev txout hout =>
      have hvalue := hamount prev.toCTransaction txin.prevout.n txout hout
      rw [h.hashed _ _ (txAt_of_some hprev)] at hvalue
      have heq : txout.nValue = amount txin.prevout := hvalue (mem_map_of_mem hmem)
      omega
    | _ => exact ⟨le_rfl, hnonneg⟩
  have hle := sum_le_sum fun txin hmem => (hdebit txin hmem).2
  have hfrom := KeyStore.debitFrom_eq le_rfl (fun txin hmem => (hdebit txin hmem).1) (by omega)
  exact ⟨_, bind_eq_ok.mpr ⟨_, hfrom, rfl⟩⟩

/-- The transaction is offered to the wallet, which takes it at least if it pays the wallet. -/
structure Offered (c : Crypto) (keys : KeyStore) (tx : CTransaction) (w w' : MapWallet) : Prop where
  cases : Added c tx w w' ∨ SameTxs w w'
  paying : keys.isMineTx tx = true → Added c tx w w'

theorem addToWalletIfInvolvingMe_offered {pblock : Option CBlock}
    (h : Stored c keys w) (hvalue : tx.getValueOut ≠ none) (hspends : SpendsInRange c tx) :
    Triple (· = w) (addToWalletIfInvolvingMe c keys io tx pblock true)
      (fun _ w' => Offered c keys tx w w') (fun _ => False) := by
  refine triple_bind (Q := fun _ w₁ => w₁ = w) (triple_ask (fun _ _ h _ => h) ?_) fun fExisted => ?_
  · exact fun _ _ _ h => nomatch h
  simp only [Bool.not_true, Bool.and_false, Bool.false_eq_true, if_false]
  refine triple_bind (Q := fun fInvolved w₁ => w₁ = w ∧
    (keys.isMineTx tx = true → fInvolved = true)) (triple_ask ?_ ?_) fun fInvolved => ?_
  · rintro _ fInvolved rfl hinv
    refine ⟨rfl, fun hmine => ?_⟩
    rw [involvesMe, hmine, Bool.or_true] at hinv
    exact (Except.ok.inj hinv).symm
  · rintro _ e rfl herr
    unfold involvesMe at herr
    split at herr
    · cases herr
    · obtain ⟨_, hok⟩ := isFromMe_ok h hspends
      rw [hok] at herr
      cases herr
  rintro w₁ ⟨rfl, hpay⟩
  cases fInvolved with
  | true =>
    have hadd : Triple (· = w₁) (addToWallet c keys io (delivered c tx pblock))
        (fun _ w' => Added c (delivered c tx pblock).toCTransaction w₁ w') (fun _ => False) := by
      apply addToWallet_added h
      rwa [toCTransaction_delivered]
    rw [toCTransaction_delivered] at hadd
    exact triple_conseq hadd (fun _ h => h) (fun _ _ h => ⟨.inl h, fun _ => h⟩)
      (fun _ h => h) w₁ rfl
  | false =>
    have hupdate : Triple (· = w₁) (walletUpdateSpent c keys io tx false) _ (fun _ => False) :=
      walletUpdateSpent_spec h.credits' nofun
    refine triple_bind hupdate (fun _ => triple_ret ?_) w₁ rfl
    rintro _ ⟨hflagged, -⟩
    exact ⟨.inr hflagged.same, fun hmine => nomatch hpay hmine⟩

/-- The transactions are offered: none is lost, those that pay are there, no other ones are new. -/
structure Scanned (c : Crypto) (keys : KeyStore) (txs : List CTransaction) (w w' : MapWallet) :
    Prop where
  kept : ∀ hash, w.txAt hash ≠ none → w'.txAt hash ≠ none
  origin : ∀ hash, w'.txAt hash ≠ none →
    w.txAt hash ≠ none ∨ ∃ tx ∈ txs, c.txHash tx = hash
  paying : ∀ tx ∈ txs, keys.isMineTx tx = true → w'.txAt (c.txHash tx) ≠ none

theorem Scanned.nil (w : MapWallet) : Scanned c keys [] w w :=
  ⟨fun _ h => h, fun _ h => .inl h, fun _ hmem => nomatch hmem⟩

theorem Scanned.of_offered (h : Offered c keys tx w w') : Scanned c keys [tx] w w' := by
  have hadded : Added c tx w w' → w'.txAt (c.txHash tx) ≠ none := by
    intro hadd
    rw [hadd.self]
    exact nofun
  refine ⟨fun hash hold => ?_, fun hash hnew => ?_, fun tx' hmem hmine => ?_⟩
  · rcases h.cases with hadd | hsame
    · by_cases heq : hash = c.txHash tx
      · exact heq ▸ hadded hadd
      · rwa [hadd.others hash heq]
    · rwa [hsame hash]
  · rcases h.cases with hadd | hsame
    · by_cases heq : hash = c.txHash tx
      · exact .inr ⟨tx, mem_singleton_self tx, heq.symm⟩
      · rw [hadd.others hash heq] at hnew
        exact .inl hnew
    · rw [hsame hash] at hnew
      exact .inl hnew
  · obtain rfl := mem_singleton.mp hmem
    exact hadded (h.paying hmine)

theorem Scanned.append {txs txs' : List CTransaction} (h : Scanned c keys txs w w₁)
    (h' : Scanned c keys txs' w₁ w') : Scanned c keys (txs ++ txs') w w' := by
  refine ⟨fun hash hold => h'.kept hash (h.kept hash hold), fun hash hnew => ?_,
    fun tx hmem hmine => ?_⟩
  · rcases h'.origin hash hnew with hmid | ⟨tx, hmem, heq⟩
    · rcases h.origin hash hmid with hold | ⟨tx, hmem, heq⟩
      · exact .inl hold
      · exact .inr ⟨tx, mem_append_left txs' hmem, heq⟩
    · exact .inr ⟨tx, mem_append_right txs hmem, heq⟩
  · rcases mem_append.mp hmem with hmem | hmem
    · exact h'.kept _ (h.paying tx hmem hmine)
    · exact h'.paying tx hmem hmine

end MapWallet

/-! ## The scan -/

namespace Rescan

open MapWallet WalletLoad

structure ScanCalls where
  walletIO : CBlock → CTransaction → WalletIO
  generated : CBlock → List Int

structure ScanState where
  mapWallet : MapWallet
  nTimeFirstKey : Int

/-- The block was created before the wallet's birthday, as adjusted for block time variability. -/
def skipsBlock (nTimeFirstKey : Int) (block : CBlock) : Bool :=
  nTimeFirstKey ≠ 0 && decide ((block.nTime : Int) < int64 (nTimeFirstKey - 7200))

def generateKeys (times : List Int) (nTimeFirstKey : Int) : Int :=
  times.foldl (fun n t => earliest t n) nTimeFirstKey

variable (c : Crypto) (keys : KeyStore) (calls : ScanCalls) (fUpdate : Bool)

/-- The transactions of a block, and how many of them were added or updated. -/
def scanBlock (block : CBlock) : List CTransaction → Routine MapWallet String Nat
  | [] => return 0
  | tx :: rest => do
    let fAdded ← addToWalletIfInvolvingMe c keys (calls.walletIO block tx) tx (some block) fUpdate
    let ret ← scanBlock block rest
    return fAdded.toNat + ret

/-- `ScanForWalletTransactions` from the first block of the list on. -/
def scanForWalletTransactions : List CBlock → ScanState → ScanState × Except String Nat
  | [], s => (s, .ok 0)
  | block :: rest, s =>
    if skipsBlock s.nTimeFirstKey block then scanForWalletTransactions rest s
    else
      match scanBlock c keys calls fUpdate block block.vtx s.mapWallet with
      | (w, .error e) => ({ s with mapWallet := w }, .error e)
      | (w, .ok n) =>
        let s₁ := ⟨w, generateKeys (calls.generated block) s.nTimeFirstKey⟩
        match scanForWalletTransactions rest s₁ with
        | (s₂, .error e) => (s₂, .error e)
        | (s₂, .ok ret) => (s₂, .ok (n + ret))

def scannedBlocks (generated : CBlock → List Int) : Int → List CBlock → List CBlock
  | _, [] => []
  | n, block :: rest =>
    if skipsBlock n block then scannedBlocks generated n rest
    else block :: scannedBlocks generated (generateKeys (generated block) n) rest

/-- The amounts of the chain's transactions are in range, as `CheckBlock` and `ConnectBlock` have
checked. -/
def AmountsOk (chain : List CBlock) : Prop :=
  ∀ block ∈ chain, ∀ tx ∈ block.vtx, tx.getValueOut ≠ none ∧ SpendsInRange c tx

variable {c keys calls} {w : MapWallet}

variable {block : CBlock} {chain : List CBlock} {n : Int}

theorem scanBlock_scanned {txs : List CTransaction} (h : Stored c keys w)
    (hok : ∀ tx ∈ txs, tx.getValueOut ≠ none ∧ SpendsInRange c tx) :
    Triple (· = w) (scanBlock c keys calls true block txs)
      (fun _ w' => Stored c keys w' ∧ MapWallet.Scanned c keys txs w w') (fun _ => False) := by
  induction txs generalizing w with
  | nil =>
    refine triple_ret ?_
    rintro _ rfl
    exact ⟨h, MapWallet.Scanned.nil _⟩
  | cons tx rest ih =>
    obtain ⟨hvalue, hspends⟩ := hok tx mem_cons_self
    refine triple_bind (addToWalletIfInvolvingMe_offered h hvalue hspends) fun fAdded => ?_
    intro w₁ hoffered
    have hstored : Stored c keys w₁ := by
      rcases hoffered.cases with hadd | hsame
      · exact hadd.stored h hvalue
      · exact h.same hsame
    refine triple_bind (ih hstored fun tx' hmem => hok tx' (mem_cons_of_mem tx hmem))
      (fun ret => triple_ret ?_) w₁ rfl
    rintro _ ⟨hstored2, hscanned⟩
    exact ⟨hstored2, (MapWallet.Scanned.of_offered hoffered).append hscanned⟩

theorem scan_scanned {s : ScanState} (h : Stored c keys s.mapWallet) (hok : AmountsOk c chain) :
    ∃ s' ret, scanForWalletTransactions c keys calls true chain s = (s', .ok ret) ∧
      Stored c keys s'.mapWallet ∧
      MapWallet.Scanned c keys
        ((scannedBlocks calls.generated s.nTimeFirstKey chain).flatMap CBlock.vtx)
        s.mapWallet s'.mapWallet := by
  induction chain generalizing s with
  | nil => exact ⟨s, 0, rfl, h, MapWallet.Scanned.nil _⟩
  | cons block rest ih =>
    have hrest : AmountsOk c rest := fun b hb => hok b (mem_cons_of_mem block hb)
    unfold scanForWalletTransactions scannedBlocks
    by_cases hskip : skipsBlock s.nTimeFirstKey block = true
    · rw [if_pos hskip, if_pos hskip]
      exact ih h hrest
    rw [if_neg hskip, if_neg hskip]
    have hblock : Triple (· = s.mapWallet) (scanBlock c keys calls true block block.vtx) _ _ :=
      scanBlock_scanned h (hok block mem_cons_self)
    obtain ⟨n, w₁, hrun, hstored, hscanned⟩ := hblock.returns rfl
    obtain ⟨s2, ret, hrun2, hstored2, hscanned2⟩ :=
      ih (s := ⟨w₁, generateKeys (calls.generated block) s.nTimeFirstKey⟩) hstored hrest
    refine ⟨s2, n + ret, ?_, hstored2, ?_⟩
    · simp only [hrun, hrun2]
    · exact hscanned.append hscanned2

/-! ## Which blocks are left out -/

theorem scannedBlocks_subset (generated : CBlock → List Int) (n : Int) (chain : List CBlock) :
    scannedBlocks generated n chain ⊆ chain := by
  induction chain generalizing n with
  | nil => exact List.Subset.refl []
  | cons b rest ih =>
    unfold scannedBlocks
    split
    · exact subset_cons_of_subset b (ih n)
    · exact cons_subset_cons b (ih _)

theorem generateKeys_le {times : List Int} (hn : 0 < n) (htimes : ∀ t ∈ times, 0 < t) :
    0 < generateKeys times n ∧ generateKeys times n ≤ n := by
  induction times generalizing n with
  | nil => exact ⟨hn, Int.le_refl n⟩
  | cons t rest ih =>
    have ht := htimes t mem_cons_self
    have hnext : 0 < earliest t n ∧ earliest t n ≤ n := by
      unfold earliest
      split <;> omega
    obtain ⟨hpos, hle⟩ := ih hnext.1 fun t' hmem => htimes t' (mem_cons_of_mem t hmem)
    exact ⟨hpos, Int.le_trans hle hnext.2⟩

theorem skipsBlock_of_pos (hn : 0 < n)
    (hskip : skipsBlock n block = true) : (block.nTime : Int) < n - 7200 := by
  have hlt := of_decide_eq_true (Bool.and_eq_true_iff.mp hskip).2
  have hwrap : int64 (n - 7200) ≤ n - 7200 := by
    rw [int64, Int.bmod_def]
    split <;> omega
  omega

variable {generated : CBlock → List Int}

theorem mem_scannedBlocks (hn : 0 < n)
    (hgen : ∀ b ∈ chain, ∀ t ∈ generated b, 0 < t) (hmem : block ∈ chain)
    (htime : n - 7200 ≤ block.nTime) :
    block ∈ scannedBlocks generated n chain := by
  induction chain generalizing n with
  | nil => exact nomatch hmem
  | cons b rest ih =>
    have hrest : ∀ b ∈ rest, ∀ t ∈ generated b, 0 < t :=
      fun b' hb' => hgen b' (mem_cons_of_mem b hb')
    unfold scannedBlocks
    split
    next hskip =>
      rcases mem_cons.mp hmem with rfl | hmem
      · have hlt := skipsBlock_of_pos hn hskip
        omega
      · exact ih hn hrest hmem htime
    · obtain ⟨hpos, _⟩ := generateKeys_le hn (hgen b mem_cons_self)
      rcases mem_cons.mp hmem with rfl | hmem
      · exact mem_cons_self
      · exact mem_cons_of_mem b (ih hpos hrest hmem (by omega))

/-! ## A rescan finds everything -/

def FindsAll (c : Crypto) (pays : CTransaction → Prop) (chain : List CBlock) (w : MapWallet) :
    Prop :=
  ∀ block ∈ chain, ∀ tx ∈ block.vtx, pays tx →
    ∃ wtx, w (c.txHash tx) = some wtx ∧ c.txHash wtx.toCTransaction = c.txHash tx

def PaysMine (keys : KeyStore) (tx : CTransaction) : Prop :=
  ∃ txout ∈ tx.vout, keys.isMine txout.scriptPubKey = true

theorem PaysMine.of_isMineTx {tx : CTransaction} (h : keys.isMineTx tx = true) :
    PaysMine keys tx := by
  obtain ⟨txout, hout, hmine⟩ := any_eq_true.mp h
  exact ⟨txout, hout, (Bool.and_eq_true_iff.mp hmine).1⟩

def NoneMissed (c : Crypto) (keys : KeyStore) (generated : CBlock → List Int)
    (chain : List CBlock) (s : WalletLoad.LoadState) : Prop :=
  ∀ block ∈ chain, ∀ tx ∈ block.vtx, keys.isMineTx tx = true →
    s.mapWallet (c.txHash tx) ≠ none ∨
      ∃ block' ∈ scannedBlocks generated s.nTimeFirstKey chain, tx ∈ block'.vtx

def NoCollision (c : Crypto) (chain : List CBlock) : Prop :=
  ∀ block ∈ chain, ∀ tx ∈ block.vtx, ∀ block' ∈ chain, ∀ tx' ∈ block'.vtx,
    c.txHash tx' = c.txHash tx → tx' = tx

def UsedAfterCreation (calls : ScriptCalls) (records : List WalletLoad.WalletRecord)
    (s : WalletLoad.LoadState)
    (chain : List CBlock) : Prop :=
  ∀ block ∈ chain, ∀ tx ∈ block.vtx, ∀ txout ∈ tx.vout,
    ∀ keyID ∈ s.scriptKeys calls txout.scriptPubKey, ∀ t : Int, .keymeta keyID t ∈ records → t ≠ 0 →
      t - 7200 ≤ block.nTime

variable {calls : ScriptCalls} {records : List WalletLoad.WalletRecord}

theorem stored_loaded {nAdjustedTime : Int} (hread : Readable records) :
    Stored c keys (loadWallet calls c nAdjustedTime records).1.mapWallet := by
  have htxOk : ∀ hash tx,
      (loadWallet calls c nAdjustedTime records).1.mapWallet.txAt hash = some tx →
      c.txHash tx = hash ∧ tx.getValueOut ≠ none := by
    intro hash tx htx
    obtain ⟨_, hwtx, rfl⟩ := exists_of_txAt htx
    obtain ⟨hcheck, hhash⟩ := Bool.and_eq_true_iff.mp (txOk_of_loaded hread hwtx)
    refine ⟨of_decide_eq_true hhash, ?_⟩
    split at hcheck
    next hok => exact CTransaction.getValueOut_of_checked hok
    · cases hcheck
  refine ⟨fun hash tx htx => (htxOk hash tx htx).1, fun hash tx htx => ?_⟩
  obtain ⟨v, hv⟩ := ne_none_iff_exists'.mp (htxOk hash tx htx).2
  exact creditFrom_ok (Int.le_refl 0) (Int.le_refl 0) hv

theorem findsAll_iff {pays : CTransaction → Prop}
    (h : Stored c keys w) : FindsAll c pays chain w ↔
      ∀ block ∈ chain, ∀ tx ∈ block.vtx, pays tx → w.txAt (c.txHash tx) ≠ none := by
  constructor
  · intro hfinds block hb tx htx hpays hnone
    obtain ⟨wtx, hwtx, -⟩ := hfinds block hb tx htx hpays
    rw [txAt_of_some hwtx] at hnone
    cases hnone
  intro hsome block hb tx htx hpays
  obtain ⟨_, htx'⟩ := ne_none_iff_exists'.mp (hsome block hb tx htx hpays)
  obtain ⟨wtx, hwtx, rfl⟩ := exists_of_txAt htx'
  exact ⟨wtx, hwtx, h.hashed _ _ htx'⟩

variable {s : WalletLoad.LoadState} {nMinimumInputValue : Int} {tx : CTransaction}

theorem mem_scannedBlocks_of_pays (hsound : SoundBirthday records s)
    (hused : UsedAfterCreation calls records s chain) (hgen : ∀ b ∈ chain, ∀ t ∈ generated b, 0 < t)
    (hblock : block ∈ chain) (htx : tx ∈ block.vtx)
    (hpays : PaysMine (s.keyStore calls nMinimumInputValue) tx) :
    block ∈ scannedBlocks generated s.nTimeFirstKey chain := by
  obtain ⟨hpos, hbirthday⟩ := hsound
  obtain ⟨txout, hout, hmine⟩ := hpays
  refine mem_scannedBlocks hpos hgen hblock ?_
  rcases hbirthday with _ | ⟨hwatch, hkeys⟩
  · omega
  rcases isMine_cases (of_decide_eq_true hmine) with
    ⟨keyID, hkeyID, hkey⟩ | hmem
  · obtain ⟨t, hmeta, _, _⟩ := hkeys keyID hkey
    have htime := hused block hblock tx htx txout hout keyID hkeyID t hmeta (by omega)
    omega
  · rw [hwatch] at hmem
    cases hmem

theorem nonempty_of_pays (hpays : PaysMine (s.keyStore calls nMinimumInputValue) tx) :
    s.keys ≠ [] ∨ s.setWatchOnly ≠ [] := by
  obtain ⟨_, -, hmine⟩ := hpays
  rcases isMine_cases (of_decide_eq_true hmine) with ⟨_, -, hkey⟩ | hmem
  · exact .inl (ne_nil_of_mem hkey)
  · exact .inr (ne_nil_of_mem hmem)

/-- **A rescan finds everything.** For every readable wallet file the scan returns, and the wallet
then has every transaction of its own exactly when none of them is only in blocks that the birthday
leaves out. Where no amount is below `-mininput`, these are all that pay it, and it is so if no key
is used before its recorded creation time and the file either gives a known creation time for every
key or loads without error with keys and metadata different in number. -/
theorem rescan_finds_all_iff (calls : ScriptCalls) (c : Crypto) (scan : ScanCalls)
    (nAdjustedTime nMinimumInputValue : Int) (records : List WalletLoad.WalletRecord)
    (chain : List CBlock) (s : WalletLoad.LoadState) (result : DBErrors)
    (hload : loadWallet calls c nAdjustedTime records = (s, result)) (hread : Readable records)
    (hamounts : AmountsOk c chain) (hhashes : NoCollision c chain) :
    let keys := s.keyStore calls nMinimumInputValue
    ∃ s' ret,
      scanForWalletTransactions c keys scan true chain ⟨s.mapWallet, s.nTimeFirstKey⟩
        = (s', .ok ret) ∧
      (FindsAll c (fun tx => keys.isMineTx tx = true) chain s'.mapWallet ↔
        NoneMissed c keys scan.generated chain s) ∧
      ((∀ block ∈ chain, ∀ tx ∈ block.vtx, ∀ txout ∈ tx.vout,
          s.isMine calls txout.scriptPubKey ≠ .MINE_NO → nMinimumInputValue ≤ txout.nValue) →
        (FindsAll c (PaysMine keys) chain s'.mapWallet ↔
          NoneMissed c keys scan.generated chain s) ∧
        (UsedAfterCreation calls records s chain →
          (∀ block ∈ chain, ∀ t ∈ scan.generated block, 0 < t) →
          Dated records ∨ result = .DB_LOAD_OK ∧ Uncounted records →
          FindsAll c (PaysMine keys) chain s'.mapWallet)) := by
  intro keys
  have hfst : (loadWallet calls c nAdjustedTime records).1 = s := by rw [hload]
  have hsnd : (loadWallet calls c nAdjustedTime records).2 = result := by rw [hload]
  have hstored : Stored c keys s.mapWallet := by
    rw [← hfst]
    exact stored_loaded hread
  obtain ⟨s', ret, hrun, hstored', hkept, horigin, hpaying⟩ :=
    scan_scanned (s := ⟨s.mapWallet, s.nTimeFirstKey⟩) hstored hamounts
  have hfinds : FindsAll c (fun tx => keys.isMineTx tx = true) chain s'.mapWallet ↔
      NoneMissed c keys scan.generated chain s := by
    rw [findsAll_iff hstored']
    constructor
    · intro hfinds block hb tx htx hmine
      rcases horigin _ (hfinds block hb tx htx hmine) with hold | ⟨tx', hmem, hhash⟩
      · exact .inl fun hnone => hold (txAt_eq_none.mpr hnone)
      obtain ⟨block', hb', htx'⟩ := mem_flatMap.mp hmem
      have hchain := scannedBlocks_subset scan.generated s.nTimeFirstKey chain hb'
      obtain rfl := hhashes block hb tx htx block' hchain tx' htx' hhash
      exact .inr ⟨block', hb', htx'⟩
    · intro hnone block hb tx htx hmine
      rcases hnone block hb tx htx hmine with hold | ⟨block', hb', htx'⟩
      · exact hkept _ fun h => hold (txAt_eq_none.mp h)
      · exact hpaying tx (mem_flatMap.mpr ⟨block', hb', htx'⟩) hmine
  refine ⟨s', ret, hrun, hfinds, fun hmin => ?_⟩
  have hpays : FindsAll c (PaysMine keys) chain s'.mapWallet ↔
      NoneMissed c keys scan.generated chain s := by
    refine (forall₂_congr fun block hb => forall₂_congr fun tx htx =>
      imp_congr_left ⟨?_, PaysMine.of_isMineTx⟩).trans hfinds
    rintro ⟨txout, hout, hmine⟩
    refine any_eq_true.mpr ⟨txout, hout, Bool.and_eq_true_iff.mpr ⟨hmine, ?_⟩⟩
    exact decide_eq_true (hmin block hb tx htx txout hout (of_decide_eq_true hmine))
  refine ⟨hpays, fun hused hgen hfile => hpays.mpr fun block hb tx htx hmine => ?_⟩
  have hsound : SoundBirthday records s := by
    have hany := nonempty_of_pays (.of_isMineTx hmine)
    rw [← hfst] at hany ⊢
    rcases hfile with hdated | ⟨hok, hcount⟩
    · exact soundBirthday_of_dated hdated hany
    · exact soundBirthday_of_uncounted hcount (hsnd.trans hok)
  exact .inr ⟨block, mem_scannedBlocks_of_pays hsound hused hgen hb htx (.of_isMineTx hmine), htx⟩

/-! ## A key imported from a dump -/

def paymentTx : CTransaction := ⟨1, 1000, [⟨⟨7, 0⟩, [], 0⟩], [⟨5000000, [1]⟩], 0⟩

def paymentBlock : CBlock := ⟨⟨4, 0, 100, 1000, 0, 0⟩, [paymentTx], []⟩

def paymentCrypto : Crypto where
  txHash := fun tx => if tx = paymentTx then 5 else 0
  scryptBlockhash := CBlockHeader.nTime
  hashPair := fun a b => a + b
  hashKernel := fun _ _ _ _ _ _ => 0

def twoKeys : ScriptCalls where
  solver := fun script => if script = [1] then .key 1 else if script = [2] then .key 2 else .none
  setDestination := fun keyID => if keyID = 1 then [1] else [2]
  getID := fun _ => 0

def quietScan : ScanCalls := ⟨fun _ _ => ⟨true, fun _ => true⟩, fun _ => []⟩

def twoKeysFile (nCreateTime : Int) : List WalletLoad.WalletRecord :=
  [.key 1, .key 2, .keymeta 1 nCreateTime, .keymeta 2 100000]

def twoKeysLoaded (nCreateTime : Int) : WalletLoad.LoadState × DBErrors :=
  loadWallet twoKeys paymentCrypto 2000 (twoKeysFile nCreateTime)

def twoKeysScan (nCreateTime : Int) : ScanState × Except String Nat :=
  scanForWalletTransactions paymentCrypto ((twoKeysLoaded nCreateTime).1.keyStore twoKeys 1000)
    quietScan true [paymentBlock]
    ⟨(twoKeysLoaded nCreateTime).1.mapWallet, (twoKeysLoaded nCreateTime).1.nTimeFirstKey⟩

theorem usedAfterCreation_twoKeys {t : Int} (ht : t ≠ 0 → t ≤ 8200) (s : WalletLoad.LoadState) :
    UsedAfterCreation twoKeys (twoKeysFile t) s [paymentBlock] := by
  intro block hblock tx htx txout hout keyID hkeyID t' hmeta hne
  obtain rfl := mem_singleton.mp hblock
  obtain rfl := mem_singleton.mp htx
  obtain rfl := mem_singleton.mp hout
  have hkey : keyID = 1 := by
    simpa [scriptKeys, scriptKeysIn, twoKeys] using hkeyID
  have htime : t' = t := by
    simpa [hkey, twoKeysFile] using hmeta
  change t' - 7200 ≤ (1000 : Int)
  omega

/-- **A payment that a rescan does not find.** `ImportWallet` adds its keys with metadata that say
"unknown". When the file is loaded again the record sets the birthday to zero and the next record to
the time of the other key. -/
theorem imported_key_not_found :
    (twoKeysLoaded 0).2 = .DB_LOAD_OK ∧
      UsedAfterCreation twoKeys (twoKeysFile 0) (twoKeysLoaded 0).1 [paymentBlock] ∧
      PaysMine ((twoKeysLoaded 0).1.keyStore twoKeys 1000) paymentTx ∧
      (twoKeysScan 0).2.toOption = some 0 ∧
      ¬ FindsAll paymentCrypto (PaysMine ((twoKeysLoaded 0).1.keyStore twoKeys 1000))
        [paymentBlock] (twoKeysScan 0).1.mapWallet := by
  have hpays : PaysMine ((twoKeysLoaded 0).1.keyStore twoKeys 1000) paymentTx :=
    ⟨⟨5000000, [1]⟩, mem_singleton_self _, by decide +kernel⟩
  refine ⟨by decide +kernel, usedAfterCreation_twoKeys (fun h => absurd rfl h) _, hpays,
    by decide +kernel, fun hfinds => ?_⟩
  obtain ⟨wtx, hwtx, -⟩ := hfinds paymentBlock (mem_singleton_self _) paymentTx
    (mem_singleton_self _) hpays
  have hsome : (twoKeysScan 0).1.mapWallet 5 = some wtx := hwtx
  cases hsome

theorem amountsOk_payment : AmountsOk paymentCrypto [paymentBlock] := by
  intro block hblock tx htx
  obtain rfl := mem_singleton.mp hblock
  obtain rfl := mem_singleton.mp htx
  refine ⟨by decide, fun _ => 0, fun _ => Int.le_refl 0, fun prev n txout _ hmem => ?_, by decide⟩
  have hhash : paymentCrypto.txHash prev = 7 := congrArg COutPoint.hash (mem_singleton.mp hmem)
  simp only [paymentCrypto] at hhash
  split at hhash <;> cases hhash

theorem rescan_finds_all_iff_dated : ∃ s' ret, twoKeysScan 900 = (s', .ok ret) ∧
    FindsAll paymentCrypto (PaysMine ((twoKeysLoaded 900).1.keyStore twoKeys 1000))
      [paymentBlock] s'.mapWallet := by
  have hdated : Dated (twoKeysFile 900) := by
    refine ⟨fun keyID t hmem => ?_, fun record hmem keyID hkey => ?_⟩
    · simp [twoKeysFile] at hmem
      omega
    · simp [twoKeysFile] at hmem
      rcases hmem with rfl | rfl | rfl | rfl <;>
        simp_all [WalletLoad.WalletRecord.keyID?, twoKeysFile]
  obtain ⟨s', ret, hrun, -, hfinds⟩ := rescan_finds_all_iff twoKeys paymentCrypto quietScan 2000
    1000 (twoKeysFile 900) [paymentBlock] (twoKeysLoaded 900).1 (twoKeysLoaded 900).2 rfl
    (fun _ _ hmem => by simp [twoKeysFile] at hmem) amountsOk_payment (by
      intro block hblock tx htx block' hblock' tx' htx' _
      obtain rfl := mem_singleton.mp hblock
      obtain rfl := mem_singleton.mp hblock'
      exact (mem_singleton.mp htx').trans (mem_singleton.mp htx).symm)
  refine ⟨s', ret, hrun, (hfinds ?_).2 (usedAfterCreation_twoKeys (fun _ => by decide) _)
    (fun _ _ _ hmem => nomatch hmem) (.inl hdated)⟩
  intro block hblock tx htx txout hout _
  obtain rfl := mem_singleton.mp hblock
  obtain rfl := mem_singleton.mp htx
  obtain rfl := mem_singleton.mp hout
  decide

end Rescan

end HoboNickels

import HoboNickels.Agreement
import HoboNickels.SpentFlags

/-!
# Wallets and failed changes of the best chain

`ConnectBlock` and `DisconnectBlock` tell every registered wallet about the transactions of the
block (`SyncWithWallets`) while the database transaction of the reorganisation is still open. When a
later block, or the commit, fails, nothing takes the wallets back. So a failed call leaves the
wallets alone when it fails before it has connected a block and before it has disconnected one with
a coinstake, and only then. The functions `...Notices` list what a call tells the wallets.
-/

namespace HoboNickels

open Fallible Throwing Throwing.Routine WriteBatch List CWalletTx MapWallet

variable {env : Env} {w : World}

/-- A registered wallet; `io` is what its calls meet when a transaction of a block arrives. -/
structure CWallet where
  keys : KeyStore
  io : CBlock → CTransaction → WalletIO
  mapWallet : MapWallet

/-- A call of `SyncWithWallets`: a transaction of a connected block (`fUpdate` is set), or one of
a disconnected block. -/
inductive WalletNotice where
  | connected (pblock : CBlock) (tx : CTransaction)
  | disconnected (tx : CTransaction)
  deriving DecidableEq

variable {c : Crypto} {tx : CTransaction}

namespace CWallet

def sync (c : Crypto) (keys : KeyStore) (io : CBlock → CTransaction → WalletIO) :
    WalletNotice → Routine MapWallet String Unit
  | .connected pblock tx => do
    let _ ← MapWallet.addToWalletIfInvolvingMe c keys (io pblock tx) tx (some pblock) true
    return ()
  | .disconnected tx => do
    if !tx.isCoinStake then return ()
    let fFromMe ← ask fun w => keys.isFromMe w tx
    if fFromMe then MapWallet.disableTransaction keys tx

section

variable {keys : KeyStore} {io : CBlock → CTransaction → WalletIO}

theorem sync_no_coinstake (htx : tx.isCoinStake = false) (m : MapWallet) :
    sync c keys io (.disconnected tx) m = (m, .ok ()) := by
  simp only [sync, htx, Bool.not_false, if_true]
  rfl

theorem sync_coinstake {m : MapWallet} {fFromMe : Bool} (htx : tx.isCoinStake = true)
    (hfrom : keys.isFromMe m tx = .ok fFromMe) :
    sync c keys io (.disconnected tx) m = if fFromMe then
      each (fun txin => atomically (refundInput keys txin)) tx.vin m
      else (m, .ok ()) := by
  have hdisable : fFromMe = true → disableTransaction keys tx m
      = each (fun txin => atomically (refundInput keys txin)) tx.vin m := by
    rintro rfl
    unfold disableTransaction
    rw [htx]
    change andThen _ _ m = _
    rw [andThen, ask, hfrom]
    rfl
  simp only [sync, htx, Bool.not_true, Bool.false_eq_true, if_false]
  change andThen _ _ m = _
  rw [andThen, ask, hfrom]
  rcases fFromMe with _ | _
  · rfl
  · exact hdisable rfl

end

def hear (c : Crypto) (wallet : CWallet) (notice : WalletNotice) : CWallet × Except String Unit :=
  let r := sync c wallet.keys wallet.io notice wallet.mapWallet
  ({ wallet with mapWallet := r.1 }, r.2)

end CWallet

def syncWithWallets (c : Crypto) (notice : WalletNotice) : Routine (List CWallet) String Unit
  | [] => ([], .ok ())
  | wallet :: rest =>
    match wallet.hear c notice with
    | (wallet', .error message) => (wallet' :: rest, .error message)
    | (wallet', .ok ()) =>
      match syncWithWallets c notice rest with
      | (rest', r) => (wallet' :: rest', r)

/-! ## The notices of a call -/

def CBlock.connectedNotices (b : CBlock) : List WalletNotice := b.vtx.map (.connected b)

def CBlock.disconnectedNotices (b : CBlock) : List WalletNotice := b.vtx.map .disconnected

variable {mempool : Uint256 → Option CTransaction}

namespace ChainState

def connectNotices (env : Env) (w : World) (mempool : Uint256 → Option CTransaction) :
    List CBlockIndex → ChainState → List WalletNotice
  | [], _ => []
  | pindex :: rest, s =>
    match w.readBlock env pindex with
    | none => []
    | some block =>
      match s.connectBlock env w mempool block pindex with
      | .error _ => []
      | .ok s₁ => block.connectedNotices ++ connectNotices env w mempool rest s₁

def switchNotices (env : Env) (w : World) (mempool : Uint256 → Option CTransaction)
    (vConnect : List CBlockIndex) : List CBlockIndex → ChainState → List WalletNotice
  | [], s => s.connectNotices env w mempool vConnect
  | pindex :: rest, s =>
    match w.readBlock env pindex with
    | none => []
    | some block =>
      match s.disconnectBlock env block pindex with
      | .error _ => []
      | .ok s₁ => block.disconnectedNotices ++ switchNotices env w mempool vConnect rest s₁

end ChainState

namespace Node

variable (n : Node) (env : Env) (w : World)

variable (b : CBlock) (pindexNew : CBlockIndex)

def reorganizeNotices : List WalletNotice :=
  let chainNew := n.chain.mapBlockIndex.chainOf pindexNew.hashBlock
  match findFork n.chain.bestChain chainNew with
  | none => []
  | some pfork =>
    n.chain.switchNotices env w n.mempool.mapTx (aboveFork pfork chainNew).reverse
      (aboveFork pfork n.chain.bestChain)

def innerNotices : List WalletNotice :=
  match n.chain.connectBlock env w n.mempool.mapTx b pindexNew with
  | .error _ => []
  | .ok _ => b.connectedNotices

def furtherNotices (env : Env) (w : World) : List CBlockIndex → Node → List WalletNotice
  | [], _ => []
  | pindex :: rest, n =>
    match w.readBlock env pindex with
    | none => []
    | some block =>
      if w.txnBeginOk (.inner pindex.hashBlock) then
        n.txnBegin.innerNotices env w block pindex ++
          match n.txnBegin.setBestChainInner env w block pindex with
          | (n₁, .returned true) => furtherNotices env w rest n₁
          | _ => []
      else []

def setBestChainNotices : List WalletNotice :=
  if !w.txnBeginOk .setBestChain then []
  else if n.chain.pindexGenesisBlock = none ∧
      env.scryptBlockhash b.toCBlockHeader = env.hashGenesisBlock then []
  else if b.hashPrevBlock = n.chain.hashBestChain then
    n.txnBegin.innerNotices env w b pindexNew
  else match n.chain.bestChain with
  | [] => []
  | best :: _ =>
    n.txnBegin.reorganizeNotices env w (n.intermediate best pindexNew) ++
      match n.txnBegin.reorganize env w (n.intermediate best pindexNew) with
      | (n₁, .ok ()) => furtherNotices env w (n.secondary best pindexNew) n₁
      | _ => []

/-- `SetBestChain` as the wallets see it: they get the notices in order, and an exception out of a
wallet ends the call. -/
def setBestChainWallets (wallets : List CWallet) : List CWallet × Outcome :=
  match each (syncWithWallets env.toCrypto) (n.setBestChainNotices env w b pindexNew) wallets with
  | (wallets', .error message) => (wallets', .threw message)
  | (wallets', .ok ()) => (wallets', (n.setBestChain env w b pindexNew).2)

end Node

def WalletNotice.Harmless : WalletNotice → Prop
  | connected _ _ => False
  | disconnected tx => tx.isCoinStake = false

open CWallet

theorem syncWithWallets_harmless {notice : WalletNotice} (h : notice.Harmless)
    (wallets : List CWallet) : syncWithWallets c notice wallets = (wallets, .ok ()) := by
  rcases notice with ⟨_, tx⟩ | ⟨tx⟩
  · exact h.elim
  have htx : tx.isCoinStake = false := h
  induction wallets with
  | nil => rfl
  | cons wallet rest ih =>
    have hhear : wallet.hear c (.disconnected tx) = (wallet, .ok ()) := by
      rw [hear, sync_no_coinstake htx]
    rw [syncWithWallets, hhear]
    simp only [ih]

theorem each_single (notices : List WalletNotice) (wallet : CWallet) :
    each (syncWithWallets c) notices [wallet] =
      ([{ wallet with
          mapWallet := (each (sync c wallet.keys wallet.io) notices wallet.mapWallet).1 }],
        (each (sync c wallet.keys wallet.io) notices wallet.mapWallet).2) := by
  induction notices generalizing wallet with
  | nil => rfl
  | cons notice rest ih =>
    change andThen (syncWithWallets c notice) (fun _ => each (syncWithWallets c) rest) [wallet] =
      ([{ wallet with
          mapWallet := (andThen (sync c wallet.keys wallet.io notice)
            (fun _ => each (sync c wallet.keys wallet.io) rest) wallet.mapWallet).1 }],
        (andThen (sync c wallet.keys wallet.io notice)
          (fun _ => each (sync c wallet.keys wallet.io) rest) wallet.mapWallet).2)
    rw [andThen, andThen, syncWithWallets, hear]
    rcases hsync : sync c wallet.keys wallet.io notice wallet.mapWallet with ⟨m, e | ⟨⟩⟩
    · rfl
    · exact ih { wallet with mapWallet := m }

/-! ## A wallet that reacts -/

namespace MapWallet

variable {c : Crypto} {io : WalletIO} {m : MapWallet}

section

variable (wio : CBlock → CTransaction → WalletIO) (pblock : CBlock) (tx : CTransaction)

def noKeys : KeyStore := ⟨fun _ => false, 0⟩

theorem debitFrom_noKeys (vin : List CTxIn) : noKeys.debitFrom m 0 vin = .ok 0 := by
  induction vin with
  | nil => rfl
  | cons txin rest ih =>
    have hdebit : noKeys.debitOf m txin = 0 := by
      unfold KeyStore.debitOf
      split
      · rfl
      · split
        · rfl
        · rfl
    refine bind_eq_ok.mpr ⟨(), ?_, ?_⟩
    · rw [hdebit]
      rfl
    · rw [hdebit]
      exact ih

theorem isFromMe_noKeys : noKeys.isFromMe m tx = .ok false :=
  bind_eq_ok.mpr ⟨0, debitFrom_noKeys tx.vin, rfl⟩

theorem walletUpdateSpent_noKeys (fBlock : Bool) : walletUpdateSpent c noKeys io tx fBlock m =
    (m, .ok ()) := by
  have hspend : each (fun txin => atomically (spendInput noKeys io txin)) tx.vin m
      = (m, .ok ()) := by
    refine each_eq_self fun txin _ => ?_
    have hstep : spendInput noKeys io txin m = .ok m := by
      unfold spendInput
      split
      · rfl
      split
      · rfl
      rename_i wtx _ _ txout hout
      have hspent : wtx.isSpent txin.prevout.n = .ok (wtx.vfSpent.getD txin.prevout.n false) :=
        isSpent_eq_ok.mpr ⟨(List.getElem?_eq_some_iff.mp hout).1, rfl⟩
      refine bind_eq_ok.mpr ⟨_, hspent, ?_⟩
      simp only [noKeys, Bool.and_false, Bool.false_eq_true, if_false]
      rfl
    rw [atomically, hstep]
  change andThen _ _ m = _
  rw [andThen, hspend]
  rcases fBlock with _ | _
  · rfl
  · exact each_eq_self fun _ _ => rfl

theorem addToWallet_noKeys {wtxIn wtx : CWalletTx}
    (hw : m (c.txHash wtxIn.toCTransaction) = some wtx) :
    addToWallet c noKeys io wtxIn m = (m.put (c.txHash wtxIn.toCTransaction) (wtx.merge wtxIn).1,
      .ok !((wtx.merge wtxIn).2 && !io.fWritten)) := by
  have hent : entered c m wtxIn = wtx.merge wtxIn := by
    unfold entered
    rw [hw]
  rw [addToWallet_eq, hent]
  change (if ((wtx.merge wtxIn).2 && !io.fWritten) = true then ret false else
    andThen (walletUpdateSpent c noKeys io (wtx.merge wtxIn).1.toCTransaction
      (wtxIn.hashBlock != 0)) fun _ => ret true)
    (m.put (c.txHash wtxIn.toCTransaction) (wtx.merge wtxIn).1) = _
  split
  next hfailed =>
    rw [hfailed]
    rfl
  next hwritten =>
    rw [andThen, walletUpdateSpent_noKeys, Bool.not_eq_true _ |>.mp hwritten]
    rfl

theorem involvesMe_noKeys : involvesMe c noKeys tx m = .ok (m (c.txHash tx)).isSome := by
  have hmine : noKeys.isMineTx tx = false := by
    simp [KeyStore.isMineTx, noKeys]
  unfold involvesMe
  rw [hmine, isFromMe_noKeys]
  rcases m (c.txHash tx) with _ | _ <;> rfl

/-- A transaction the wallet was given is updated when its block is connected; nothing else
happens to the wallet. -/
theorem sync_connected_noKeys : sync c noKeys wio (.connected pblock tx) m =
      (match m (c.txHash tx) with
        | none => m
        | some wtx => m.put (c.txHash tx) (wtx.merge (delivered c tx (some pblock))).1,
        .ok ()) := by
  have hadd : ∃ fAdded, addToWalletIfInvolvingMe c noKeys (wio pblock tx) tx (some pblock) true m =
      (match m (c.txHash tx) with
        | none => m
        | some wtx => m.put (c.txHash tx) (wtx.merge (delivered c tx (some pblock))).1,
        .ok fAdded) := by
    change ∃ fAdded, (if ((m (c.txHash tx)).isSome && !true) = true then ret false else
      andThen (ask (involvesMe c noKeys tx)) _) m = _
    rw [Bool.not_true, Bool.and_false, if_neg Bool.false_ne_true, andThen, ask, involvesMe_noKeys]
    rcases hw : m (c.txHash tx) with _ | wtx
    · refine ⟨false, ?_⟩
      change andThen (walletUpdateSpent c noKeys (wio pblock tx) tx false)
        (fun _ => ret false) m = _
      rw [andThen, walletUpdateSpent_noKeys]
      rfl
    · have hhash := congrArg c.txHash (toCTransaction_delivered (c := c) tx (some pblock))
      rw [← hhash] at hw ⊢
      exact ⟨_, addToWallet_noKeys hw⟩
  obtain ⟨fAdded, hadd⟩ := hadd
  change andThen _ (fun _ => ret ()) m = _
  rw [andThen, hadd]
  rfl

theorem sync_disconnected_noKeys : sync c noKeys wio (.disconnected tx) m = (m, .ok ()) := by
  rcases htx : tx.isCoinStake with _ | _
  · exact sync_no_coinstake htx m
  · exact sync_coinstake htx (isFromMe_noKeys tx)

end

theorem nIndex_merge {wtx wtxIn : CWalletTx} (h : wtxIn.nIndex ≠ -1 ∨ wtx.nIndex ≠ -1) :
    (wtx.merge wtxIn).1.nIndex ≠ -1 := by
  unfold CWalletTx.merge CWalletTx.updateSpent
  simp only
  split <;> split <;> split <;> simp_all <;> omega

theorem nIndex_delivered {pblock : CBlock} (htx : tx ∈ pblock.vtx) :
    (delivered c tx (some pblock)).nIndex ≠ -1 := by
  unfold delivered CMerkleTx.setMerkleBranch
  simp only
  split
  next hnone =>
    have := findIdx?_eq_none_iff.mp hnone tx htx
    simp [ofTx] at this
  next nIndex _ =>
    simp only
    omega

end MapWallet

open MapWallet

def quietIO : WalletIO := ⟨true, fun _ => false⟩

/-- Some wallet is changed. -/
def Reaching (c : Crypto) (notices : List WalletNotice) : Prop :=
  ∃ wallet wallet' : CWallet,
    each (syncWithWallets c) notices [wallet] = ([wallet'], .ok ()) ∧ wallet' ≠ wallet

variable {notices : List WalletNotice}

/-- A wallet whose routine ends, without an exception, in a state with `R` has changed if it was
not in such a state before. -/
theorem reaches_of_triple (keys : KeyStore) (m0 : MapWallet) (R : MapWallet → Prop) (hR : ¬ R m0)
    (h : Triple (· = m0) (each (sync c keys fun _ _ => quietIO) notices) (fun _ => R)
      (fun _ => False)) : Reaching c notices := by
  have hrun := h m0 rfl
  rcases hres : each (sync c keys fun _ _ => quietIO) notices m0 with ⟨m, e | ⟨⟩⟩
  · rw [hres] at hrun
    exact hrun.elim
  rw [hres] at hrun
  refine ⟨⟨keys, fun _ _ => quietIO, m0⟩, ⟨keys, fun _ _ => quietIO, m⟩, ?_, ?_⟩
  · rw [each_single, hres]
  intro heq
  have hm : m = m0 := congrArg mapWallet heq
  rw [hm] at hrun
  exact hR hrun

theorem mem_of_mem_append_singleton {α : Type} {a b : α} {l : List α} (h : a ∈ l ++ [b])
    (hne : a ≠ b) : a ∈ l := by
  rcases mem_append.mp h with hold | hnew
  · exact hold
  · exact absurd (mem_singleton.mp hnew) hne

/-- A wallet without keys that was given a transaction of a connected block learns where it is. -/
theorem connected_reaches {pblock : CBlock}
    (hmem : .connected pblock tx ∈ notices) (htx : tx ∈ pblock.vtx) : Reaching c notices := by
  refine reaches_of_triple noKeys (put (fun _ => none) (c.txHash tx) (ofTx tx))
    (fun m => ∃ wtx, m (c.txHash tx) = some wtx ∧ wtx.nIndex ≠ -1) ?_ ?_
  · rintro ⟨wtx, hw, hindex⟩
    rw [put_self] at hw
    cases hw
    exact hindex rfl
  refine triple_conseq (triple_each (fun done m => ∃ wtx, m (c.txHash tx) = some wtx ∧
    (.connected pblock tx ∈ done → wtx.nIndex ≠ -1)) ?_) ?_ ?_ (fun _ h => h)
  · rintro done notice _ m ⟨wtx, hw, hdone⟩
    rcases notice with ⟨_, tx'⟩ | ⟨tx'⟩
    · rw [sync_connected_noKeys]
      by_cases hhash : c.txHash tx' = c.txHash tx
      · simp only [hhash, hw]
        refine ⟨_, put_self .., fun hdone' => nIndex_merge ?_⟩
        rcases mem_append.mp hdone' with hold | hnew
        · exact .inr (hdone hold)
        · cases mem_singleton.mp hnew
          exact .inl (nIndex_delivered htx)
      · refine ⟨wtx, ?_, fun hdone' => hdone (mem_of_mem_append_singleton hdone' ?_)⟩
        · split
          · exact hw
          · rw [put_ne (Ne.symm hhash)]
            exact hw
        · intro heq
          cases heq
          exact hhash rfl
    · rw [sync_disconnected_noKeys]
      exact ⟨wtx, hw, fun hdone' => hdone (mem_of_mem_append_singleton hdone' (nomatch ·))⟩
  · rintro _ rfl
    exact ⟨ofTx tx, put_self .., fun h => nomatch h⟩
  · rintro _ m ⟨wtx, hw, hdone⟩
    exact ⟨wtx, hw, hdone hmem⟩

def coinKeys : KeyStore := ⟨fun script => decide (script = [1]), 0⟩

def coinOuts (n : Nat) : List CTxOut := List.replicate n ⟨0, []⟩ ++ [⟨1, [1]⟩]

theorem eq_of_coinOuts {n k : Nat} {txout : CTxOut} (h : (coinOuts n)[k]? = some txout)
    (hmine : coinKeys.isMine txout.scriptPubKey = true) : k = n := by
  have hk := (List.getElem?_eq_some_iff.mp h).1
  unfold coinOuts at h hk
  rcases Nat.lt_or_ge k n with hlt | hge
  · rw [getElem?_append_left (by simpa using hlt), getElem?_replicate, if_pos hlt] at h
    cases h
    cases hmine
  · simp only [length_append, length_replicate, length_singleton] at hk
    omega

theorem getElem?_coinOuts_self (n : Nat) : (coinOuts n)[n]? = some ⟨1, [1]⟩ := by
  unfold coinOuts
  simp

structure HoldsCoin (o : COutPoint) (F : Prop) (m : MapWallet) : Prop where
  coin : ∃ wtx, m o.hash = some wtx ∧ wtx.vout = coinOuts o.n ∧ (F → wtx.isSpent o.n = .ok false)
  others : ∀ h, h ≠ o.hash → m h = none

namespace HoldsCoin

variable {o : COutPoint} {F : Prop} {m : MapWallet}

theorem eq_of_mine (h : HoldsCoin o F m) {p : COutPoint} {prev : CWalletTx} {txout : CTxOut}
    (hprev : m p.hash = some prev) (hout : prev.vout[p.n]? = some txout)
    (hmine : coinKeys.isMine txout.scriptPubKey = true) : p = o := by
  obtain ⟨_, hw, hvout, -⟩ := h.coin
  by_cases hhash : p.hash = o.hash
  · rw [hhash, hw] at hprev
    cases hprev
    rw [hvout] at hout
    obtain ⟨_, _⟩ := p
    cases hhash
    cases eq_of_coinOuts hout hmine
    rfl
  · rw [h.others _ hhash] at hprev
    cases hprev

theorem debitOf (h : HoldsCoin o F m) (txin : CTxIn) :
    coinKeys.debitOf m txin = if txin.prevout = o then 1 else 0 := by
  split
  next heq =>
    obtain ⟨_, hw, hvout, -⟩ := h.coin
    simp [KeyStore.debitOf, heq, hw, hvout, getElem?_coinOuts_self, coinKeys]
  next hne =>
    fun_cases KeyStore.debitOf with
    | case3 _ hprev _ hout hmine => exact absurd (h.eq_of_mine hprev hout hmine) hne
    | _ => rfl

theorem isFromMe (h : HoldsCoin o F m) (hsize : (tx.vin.length : Int) ≤ maxMoney) :
    ∃ fFromMe, coinKeys.isFromMe m tx = .ok fFromMe ∧
      (o ∈ tx.vin.map CTxIn.prevout → fFromMe = true) := by
  have hdebit : ∀ txin ∈ tx.vin, coinKeys.debitOf m txin = if txin.prevout = o then 1 else 0 :=
    fun txin _ => h.debitOf txin
  have hsum : (tx.vin.map (coinKeys.debitOf m)).sum = tx.vin.countP (·.prevout = o) := by
    rw [map_congr_left hdebit]
    induction tx.vin with
    | nil => rfl
    | cons txin rest ih => by_cases heq : txin.prevout = o <;> simp [heq, ih, add_comm]
  have hle : tx.vin.countP (·.prevout = o) ≤ tx.vin.length := countP_le_length
  have hfrom := @KeyStore.debitFrom_eq coinKeys m tx.vin 0 le_rfl (by grind) (by omega)
  rw [hsum] at hfrom
  refine ⟨_, bind_eq_ok.mpr ⟨_, hfrom, rfl⟩, fun hmem => decide_eq_true ?_⟩
  obtain ⟨txin, hin, heq⟩ := mem_map.mp hmem
  have : 0 < tx.vin.countP (·.prevout = o) := countP_pos_iff.mpr ⟨txin, hin, by simpa⟩
  omega

theorem refundInput (h : HoldsCoin o F m) (txin : CTxIn) :
    ∃ m', MapWallet.refundInput coinKeys txin m = .ok m' ∧
      HoldsCoin o (F ∨ txin.prevout = o) m' := by
  obtain ⟨wtx, hw, hvout, hflag⟩ := h.coin
  by_cases heq : txin.prevout = o
  · have hrange : o.n < wtx.vout.length := by
      rw [hvout]
      exact (List.getElem?_eq_some_iff.mp (getElem?_coinOuts_self o.n)).1
    obtain ⟨wtx', hmark⟩ : ∃ wtx', wtx.markUnspent o.n = .ok wtx' := exists_mark false _ hrange
    refine ⟨m.put o.hash wtx', ?_, ⟨wtx', put_self .., ?_, ?_⟩, ?_⟩
    · simp only [MapWallet.refundInput, heq, hw, hvout, getElem?_coinOuts_self]
      exact bind_eq_ok.mpr ⟨wtx', hmark, rfl⟩
    · obtain ⟨-, rfl⟩ := mark_eq_ok.mp hmark
      exact hvout
    · intro _
      rw [isSpent_of_mark hmark hrange, if_pos rfl]
    · intro h1 hne
      rw [put_ne hne]
      exact h.others h1 hne
  · refine ⟨m, ?_, ⟨wtx, hw, hvout, fun hF => hflag (hF.resolve_right heq)⟩, h.others⟩
    fun_cases MapWallet.refundInput with
    | case3 _ hprev _ hout hmine => exact absurd (h.eq_of_mine hprev hout hmine) heq
    | _ => rfl

theorem mono {G : Prop} (h : HoldsCoin o F m) (hGF : G → F) : HoldsCoin o G m := by
  obtain ⟨wtx, hw, hvout, hflag⟩ := h.coin
  exact ⟨⟨wtx, hw, hvout, fun hG => hflag (hGF hG)⟩, h.others⟩

theorem refundInputs (vin : List CTxIn) :
    Triple (HoldsCoin o F) (each (fun txin => atomically (MapWallet.refundInput coinKeys txin)) vin)
      (fun _ => HoldsCoin o (F ∨ o ∈ vin.map CTxIn.prevout)) (fun _ => False) := by
  refine triple_conseq (triple_each
    (fun done => HoldsCoin o (F ∨ o ∈ done.map CTxIn.prevout)) ?_) ?_ (fun _ _ h => h)
    (fun _ h => h)
  · intro done txin _
    refine triple_atomically_ok ?_
    intro m1 h
    obtain ⟨m2, hstep, h'⟩ := h.refundInput txin
    refine ⟨m2, hstep, h'.mono ?_⟩
    rw [map_append, mem_append, map_singleton, mem_singleton]
    rintro (hF | hdone | heq)
    · exact .inl (.inl hF)
    · exact .inl (.inr hdone)
    · exact .inr heq.symm
  · intro m h
    refine h.mono ?_
    rintro (hF | hmem)
    · exact hF
    · cases hmem

theorem sync_disconnected {wio : CBlock → CTransaction → WalletIO}
    (hsize : (tx.vin.length : Int) ≤ maxMoney) :
    Triple (HoldsCoin o F) (sync c coinKeys wio (.disconnected tx))
      (fun _ => HoldsCoin o (F ∨ tx.isCoinStake = true ∧ o ∈ tx.vin.map CTxIn.prevout))
      (fun _ => False) := by
  intro m h
  rcases hstake : tx.isCoinStake with _ | _
  · rw [sync_no_coinstake hstake]
    refine h.mono ?_
    rintro (hF | ⟨hfalse, -⟩)
    · exact hF
    · cases hfalse
  · obtain ⟨fFromMe, hfrom, htrue⟩ := h.isFromMe hsize
    rw [sync_coinstake hstake hfrom]
    rcases fFromMe with _ | _
    · refine h.mono ?_
      rintro (hF | ⟨-, hmem⟩)
      · exact hF
      · cases htrue hmem
    refine triple_conseq (refundInputs tx.vin) (fun _ h => h) ?_ (fun _ h => h) m h
    rintro _ _ h'
    refine h'.mono ?_
    rintro (hF | ⟨-, hmem⟩)
    · exact .inl hF
    · exact .inr hmem

end HoldsCoin

theorem disconnected_reaches (hall : ∀ notice ∈ notices, ∃ tx', notice = .disconnected tx' ∧
      (tx'.vin.length : Int) ≤ maxMoney)
    (hmem : .disconnected tx ∈ notices) (hstake : tx.isCoinStake = true) : Reaching c notices := by
  obtain ⟨txin, hin⟩ : ∃ txin, txin ∈ tx.vin := by
    unfold CTransaction.isCoinStake at hstake
    split at hstake
    next txin _ _ _ _ hvin _ => exact ⟨txin, by rw [hvin]; exact mem_cons_self⟩
    · cases hstake
  have hprev : txin.prevout ∈ tx.vin.map CTxIn.prevout := mem_map_of_mem hin
  let coin : CWalletTx := { ofTx ⟨1, 0, [], coinOuts txin.prevout.n, 0⟩ with
    vfSpent := replicate (txin.prevout.n + 1) true }
  refine reaches_of_triple coinKeys (put (fun _ => none) txin.prevout.hash coin)
    (HoldsCoin txin.prevout True) ?_ ?_
  · intro h
    obtain ⟨_, hw, -, hflag⟩ := h.coin
    rw [put_self] at hw
    cases hw
    have hflag := (isSpent_eq_ok.mp (hflag trivial)).2
    simp [coin] at hflag
  refine triple_conseq (triple_each (fun done =>
    HoldsCoin txin.prevout (.disconnected tx ∈ done)) ?_) ?_ ?_ (fun _ h => h)
  · intro done notice hnotice
    obtain ⟨tx', rfl, hsize⟩ := hall notice hnotice
    refine triple_conseq (HoldsCoin.sync_disconnected hsize) (fun _ h => h) ?_ (fun _ h => h)
    intro _ m h
    refine h.mono fun hdone => ?_
    rcases mem_append.mp hdone with hold | hnew
    · exact .inl hold
    · cases mem_singleton.mp hnew
      exact .inr ⟨hstake, hprev⟩
  · rintro _ rfl
    refine ⟨⟨coin, put_self .., rfl, fun h => nomatch h⟩, ?_⟩
    intro h hne
    rw [put_ne hne]
  · intro _ m h
    exact h.mono fun _ => hmem

/-! ## Failing quietly -/

def CBlock.StakeFree (b : CBlock) : Prop := ∀ tx ∈ b.vtx, tx.isCoinStake = false

variable {vConnect : List CBlockIndex}

namespace ChainState

/-- The blocks that can be disconnected have no coinstake, and if all can be, the first block of the
other branch cannot be read or connected. -/
def QuietSwitch (env : Env) (w : World) (mempool : Uint256 → Option CTransaction)
    (vConnect : List CBlockIndex) : List CBlockIndex → ChainState → Prop
  | [], s => ∀ p block s', vConnect.head? = some p → w.readBlock env p = some block →
      s.connectBlock env w mempool block p ≠ .ok s'
  | p :: rest, s => ∀ block s', w.readBlock env p = some block →
      s.disconnectBlock env block p = .ok s' →
      block.StakeFree ∧ QuietSwitch env w mempool vConnect rest s'

variable {mempool : Uint256 → Option CTransaction} {s s' : ChainState} {b : CBlock}

theorem not_harmless_connected {pindex : CBlockIndex} {more : List WalletNotice}
    (h : s.connectBlock env w mempool b pindex = .ok s') :
    ¬ ∀ notice ∈ b.connectedNotices ++ more, notice.Harmless := by
  intro hall
  obtain ⟨_, hchecked, -, -⟩ := connectBlock_ok h
  obtain ⟨coinbase, rest, hvtx, -⟩ := hchecked.coinbase_first
  have htx : coinbase ∈ b.vtx := hvtx ▸ mem_cons_self
  exact hall (.connected b coinbase) (mem_append_left _ (mem_map_of_mem htx))

theorem harmless_disconnectedNotices :
    (∀ notice ∈ b.disconnectedNotices, notice.Harmless) ↔ b.StakeFree := by
  unfold CBlock.disconnectedNotices
  rw [forall_mem_map]
  rfl

theorem harmless_connectNotices :
    (∀ notice ∈ s.connectNotices env w mempool vConnect, notice.Harmless) ↔
      s.QuietSwitch env w mempool vConnect [] := by
  fun_cases ChainState.connectNotices with
  | case1 => exact ⟨fun _ => nofun, fun _ => nofun⟩
  | case4 p _ _ block hread s' hconn =>
    refine ⟨fun hall => absurd hall (not_harmless_connected hconn), fun hquiet => ?_⟩
    exact absurd hconn (hquiet p block s' rfl hread)
  | _ => grind [QuietSwitch]

/-- The loops of a reorganisation tell the wallets nothing of interest exactly when they stop
quietly. -/
theorem harmless_switchNotices (vDisconnect : List CBlockIndex) (s : ChainState) :
    (∀ notice ∈ s.switchNotices env w mempool vConnect vDisconnect, notice.Harmless) ↔
      s.QuietSwitch env w mempool vConnect vDisconnect := by
  fun_induction switchNotices with
  | case1 => exact harmless_connectNotices
  | case4 _ _ _ _ hread _ hdisc ih =>
    rw [forall_mem_append, harmless_disconnectedNotices, ih]
    grind [QuietSwitch]
  | _ => grind [QuietSwitch]

end ChainState

namespace Node

variable {n : Node} {b : CBlock} {pindexNew : CBlockIndex}

def QuietReorganize (n : Node) (env : Env) (w : World) (pindexNew : CBlockIndex) : Prop :=
  ∀ pfork, findFork n.chain.bestChain (n.chain.mapBlockIndex.chainOf pindexNew.hashBlock)
      = some pfork →
    n.chain.QuietSwitch env w n.mempool.mapTx
      (aboveFork pfork (n.chain.mapBlockIndex.chainOf pindexNew.hashBlock)).reverse
      (aboveFork pfork n.chain.bestChain)

/-- If the call fails, it fails before a block is connected and before one with a coinstake is
disconnected. -/
def Quiet (n : Node) (env : Env) (w : World) (b : CBlock) (pindexNew : CBlockIndex) : Prop :=
  w.txnBeginOk .setBestChain = true →
  ¬ (n.chain.pindexGenesisBlock = none ∧
    env.scryptBlockhash b.toCBlockHeader = env.hashGenesisBlock) →
  if b.hashPrevBlock = n.chain.hashBestChain then
    ∀ s, n.txnBegin.chain.connectBlock env w n.mempool.mapTx b pindexNew ≠ .ok s
  else ∀ best, n.chain.bestChain.head? = some best →
    n.txnBegin.QuietReorganize env w (n.intermediate best pindexNew)

theorem harmless_reorganizeNotices :
    (∀ notice ∈ n.reorganizeNotices env w pindexNew, notice.Harmless) ↔
      n.QuietReorganize env w pindexNew := by
  unfold QuietReorganize
  fun_cases reorganizeNotices with
  | case1 => grind
  | case2 _ pfork hfork =>
    rw [ChainState.harmless_switchNotices]
    grind

theorem harmless_innerNotices : (∀ notice ∈ n.innerNotices env w b pindexNew, notice.Harmless) ↔
      ∀ s, n.chain.connectBlock env w n.mempool.mapTx b pindexNew ≠ .ok s := by
  fun_cases innerNotices with
  | case1 _ hconn => simp [hconn]
  | case2 s hconn =>
    rw [← append_nil b.connectedNotices]
    refine ⟨fun hall => absurd hall (ChainState.not_harmless_connected hconn), fun hnever => ?_⟩
    exact absurd hconn (hnever s)

theorem reorganize_of_false {best : CBlockIndex} {rest : List CBlockIndex}
    (hchain : n.chain.bestChain = best :: rest)
    (hfalse : (n.txnBegin.setBestByReorganize env w (env.scryptBlockhash b.toCBlockHeader)
      pindexNew).2 = .returned false) :
    ∀ n1, n.txnBegin.reorganize env w (n.intermediate best pindexNew) ≠ (n1, .ok ()) := by
  intro n1 hreorg
  have hchain' : n.txnBegin.chain.bestChain = best :: rest := hchain
  unfold setBestByReorganize at hfalse
  simp only [hchain'] at hfalse
  erw [hreorg] at hfalse
  simp only at hfalse
  split at hfalse
  · cases hfalse
  · cases hfalse

theorem harmless_setBestChainNotices
    (hfalse : (n.setBestChain env w b pindexNew).2 = .returned false) :
    (∀ notice ∈ n.setBestChainNotices env w b pindexNew, notice.Harmless) ↔
      n.Quiet env w b pindexNew := by
  unfold setBestChain at hfalse
  unfold setBestChainNotices Quiet
  by_cases hbegin : w.txnBeginOk .setBestChain = true
  swap
  · simp [hbegin]
  by_cases hgenesis : n.chain.pindexGenesisBlock = none ∧
      env.scryptBlockhash b.toCBlockHeader = env.hashGenesisBlock
  · simp [hbegin, hgenesis]
  simp only [hbegin, Bool.not_true, Bool.false_eq_true, if_false, hgenesis] at hfalse ⊢
  simp only [not_false_eq_true, forall_const]
  by_cases hchild : b.hashPrevBlock = n.chain.hashBestChain
  · rw [if_pos hchild, if_pos hchild]
    exact harmless_innerNotices
  rw [if_neg hchild] at hfalse
  rw [if_neg hchild, if_neg hchild]
  rcases hchain : n.chain.bestChain with _ | ⟨_, _⟩
  · simp
  · have hnone := reorganize_of_false hchain hfalse
    simp only [head?_cons, Option.some.injEq, forall_eq']
    rw [← harmless_reorganizeNotices, append_nil]

/-! ## Whose notices they are -/

/-- A connected transaction is one of the block it is announced with; a disconnected one is of a
block of the best chain. -/
def NoticeOk (n : Node) (env : Env) (w : World) : WalletNotice → Prop
  | .connected pblock tx => tx ∈ pblock.vtx
  | .disconnected tx => ∃ p ∈ n.chain.bestChain, ∃ block, w.readBlock env p = some block ∧
      tx ∈ block.vtx

variable {m : Node} {notice : WalletNotice}

theorem noticeOk_connectedNotices (h : notice ∈ b.connectedNotices) : m.NoticeOk env w notice := by
  obtain ⟨_, htx, rfl⟩ := mem_map.mp h
  exact htx

theorem noticeOk_connectNotices (vConnect : List CBlockIndex) (s : ChainState)
    (h : notice ∈ s.connectNotices env w mempool vConnect) : m.NoticeOk env w notice := by
  fun_induction ChainState.connectNotices with
  | case4 _ _ _ _ _ _ _ ih =>
    rcases mem_append.mp h with h | h
    · exact noticeOk_connectedNotices h
    · exact ih h
  | _ => cases h

theorem noticeOk_switchNotices (vDisconnect : List CBlockIndex) (s : ChainState)
    (hsub : vDisconnect ⊆ m.chain.bestChain)
    (h : notice ∈ s.switchNotices env w mempool vConnect vDisconnect) :
    m.NoticeOk env w notice := by
  fun_induction ChainState.switchNotices with
  | case1 => exact noticeOk_connectNotices vConnect _ h
  | case4 p _ _ block hread _ _ ih =>
    rcases mem_append.mp h with h | h
    · obtain ⟨_, htx, rfl⟩ := mem_map.mp h
      exact ⟨p, hsub mem_cons_self, block, hread, htx⟩
    · exact ih (fun q hq => hsub (mem_cons_of_mem p hq)) h
  | _ => cases h

theorem noticeOk_innerNotices
    (h : notice ∈ n.innerNotices env w b pindexNew) : m.NoticeOk env w notice := by
  unfold innerNotices at h
  split at h
  · cases h
  · exact noticeOk_connectedNotices h

theorem noticeOk_furtherNotices (l : List CBlockIndex) (n : Node)
    (h : notice ∈ furtherNotices env w l n) : m.NoticeOk env w notice := by
  fun_induction furtherNotices with
  | case3 _ _ _ _ _ _ ih =>
    rcases mem_append.mp h with h | h
    · exact noticeOk_innerNotices h
    · split at h
      next n1 _ => exact ih n1 h
      · cases h
  | _ => cases h

theorem noticeOk_setBestChainNotices
    (h : notice ∈ n.setBestChainNotices env w b pindexNew) : n.NoticeOk env w notice := by
  revert h
  fun_cases setBestChainNotices with
  | case3 => exact noticeOk_innerNotices
  | case5 _ _ _ best rest hchain =>
    intro h
    rcases mem_append.mp h with h | h
    · revert h
      fun_cases reorganizeNotices with
      | case1 => nofun
      | case2 => exact noticeOk_switchNotices _ _ (takeWhile_subset _)
    · split at h
      · exact noticeOk_furtherNotices _ _ h
      · cases h
  | _ => nofun

/-! ## The wallets after a failed call -/

/-- Whatever wallets are registered, they are as before when the call returns false. -/
def LeavesWallets (n : Node) (env : Env) (w : World) (b : CBlock) (pindexNew : CBlockIndex) :
    Prop :=
  ∀ wallets wallets',
    n.setBestChainWallets env w b pindexNew wallets = (wallets', .returned false) →
      wallets' = wallets

/-- No transaction of the best chain has more inputs than there are units of money. (A block has
at most a million bytes.) -/
def InputsBounded (n : Node) (env : Env) (w : World) : Prop :=
  ∀ p ∈ n.chain.bestChain, ∀ block, w.readBlock env p = some block →
    ∀ tx ∈ block.vtx, (tx.vin.length : Int) ≤ maxMoney

section

variable (hfalse : (n.setBestChain env w b pindexNew).2 = .returned false)
include hfalse

theorem Quiet.leavesWallets
    (hquiet : n.Quiet env w b pindexNew) : n.LeavesWallets env w b pindexNew := by
  intro wallets wallets' h
  have hharmless := (harmless_setBestChainNotices hfalse).mpr hquiet
  have hsync : each (syncWithWallets env.toCrypto) (n.setBestChainNotices env w b pindexNew) wallets
      = (wallets, .ok ()) :=
    each_eq_self fun notice hnotice => syncWithWallets_harmless (hharmless notice hnotice) wallets
  unfold setBestChainWallets at h
  rw [hsync] at h
  exact (Prod.mk.inj h).1.symm

theorem not_leavesWallets {wallet wallet' : CWallet} (hne : wallet' ≠ wallet)
    (hsync : each (syncWithWallets env.toCrypto) (n.setBestChainNotices env w b pindexNew) [wallet]
      = ([wallet'], .ok ())) : ¬ n.LeavesWallets env w b pindexNew := by
  intro hleaves
  have hsame := hleaves [wallet] [wallet'] (by
    unfold setBestChainWallets
    rw [hsync, hfalse])
  exact hne (cons.inj hsame).1

theorem LeavesWallets.quiet
    (hsize : n.InputsBounded env w) (hleaves : n.LeavesWallets env w b pindexNew) :
    n.Quiet env w b pindexNew := by
  refine (harmless_setBestChainNotices hfalse).mp ?_
  -- a connected block would reach a wallet that was given one of its transactions
  have hdisconnected : ∀ notice ∈ n.setBestChainNotices env w b pindexNew,
      ∃ tx, notice = .disconnected tx ∧ (tx.vin.length : Int) ≤ maxMoney := by
    rintro (⟨_, tx⟩ | ⟨tx⟩) hnotice
    · obtain ⟨wallet, wallet', hsync, hne⟩ :=
        connected_reaches hnotice (noticeOk_setBestChainNotices hnotice)
      exact absurd hleaves (not_leavesWallets hfalse hne hsync)
    · obtain ⟨p, hp, block, hread, htx⟩ := noticeOk_setBestChainNotices hnotice
      exact ⟨tx, rfl, hsize p hp block hread tx htx⟩
  intro notice hnotice
  obtain ⟨tx, rfl, -⟩ := hdisconnected notice hnotice
  rcases hstake : tx.isCoinStake with _ | _
  · exact hstake
  · obtain ⟨wallet, wallet', hsync, hne⟩ := disconnected_reaches hdisconnected hnotice hstake
    exact absurd hleaves (not_leavesWallets hfalse hne hsync)

end

end Node

/-- **A failed change of best chain leaves the wallets alone** when it fails quietly; and unless it
does, some wallet is changed. -/
theorem failed_switch_leaves_wallets {n : Node} {b : CBlock} {pindexNew : CBlockIndex}
    (hfalse : (n.setBestChain env w b pindexNew).2 = .returned false) :
    (n.Quiet env w b pindexNew → n.LeavesWallets env w b pindexNew) ∧
      (n.InputsBounded env w → n.LeavesWallets env w b pindexNew → n.Quiet env w b pindexNew) :=
  ⟨fun hquiet => hquiet.leavesWallets hfalse, fun hsize hleaves => hleaves.quiet hfalse hsize⟩

/-! ## A commit that fails -/

def minerWallet : CWallet where
  keys := ⟨fun script => decide (script = [0x51]), 0⟩
  io := fun _ _ => quietIO
  mapWallet := fun _ => none

def noCommitWorld : World :=
  { minedWorld 2 with txnCommitOk := fun site => site != .inner 2 }

/-- Block 2 is disconnected, and block 4 cannot be read. -/
def stuckWorld : World := { minedWorld 5 with blockReadOk := fun hash => hash != 4 }

theorem failed_switch_leaves_wallets_branches :
    let b := minedBlock 5 4 2
    let pindexNew := twoBranches.chain.entry 5
    twoBranches.setBestChainNotices sampleEnv stuckWorld b pindexNew
        = (minedBlock 2 1 1).vtx.map .disconnected ∧
      twoBranches.Quiet sampleEnv stuckWorld b pindexNew ∧
      twoBranches.LeavesWallets sampleEnv stuckWorld b pindexNew := by
  intro b pindexNew
  have hfalse : (twoBranches.setBestChain sampleEnv stuckWorld b pindexNew).2
      = .returned false := by decide +kernel
  have hnotices : twoBranches.setBestChainNotices sampleEnv stuckWorld b pindexNew
      = (minedBlock 2 1 1).vtx.map .disconnected := by decide +kernel
  have hquiet : twoBranches.Quiet sampleEnv stuckWorld b pindexNew := by
    rw [← Node.harmless_setBestChainNotices hfalse, hnotices]
    rintro notice ⟨⟩
    · rfl
    · contradiction
  exact ⟨hnotices, hquiet, (failed_switch_leaves_wallets hfalse).1 hquiet⟩

/-- The commit fails: the wallet has the coinbase of block 2, which is not on the chain. -/
theorem failed_commit_reaches_wallet :
    let result := commitFailed.1.setBestChainWallets sampleEnv noCommitWorld (minedBlock 2 1 1)
      (commitFailed.1.chain.entry 2) [minerWallet]
    commitFailed.1.chain.mapBlockIndex.Indexed (commitFailed.1.chain.entry 2) ∧
      minerWallet.mapWallet 2 = none ∧ result.2 = .returned false ∧
      result.1.map (fun wallet => (wallet.mapWallet 2).map fun wtx => (wtx.hashBlock, wtx.nIndex))
        = [some (2, 0)] :=
  ⟨by decide +kernel, rfl, by decide +kernel, by decide +kernel⟩

end HoboNickels

import HoboNickels.Coins
import HoboNickels.SpentFlags

/-!
# Cached credits and debits

`GetDebit`, `GetCredit`, `GetAvailableCredit` and their relatives each keep the last amount and a
flag that says whether it may still be used. The amounts depend on the spent flags, on the keys and
on the chain, so every routine that changes one of these clears flags.

`MarkDirty` leaves out the flags of the immature credits: after a key is imported, these still show
the old amount (`immatureCredit_stale`). All other caches are right at any time, and these as long
as no change of keys finds them filled with an amount it changes (`caches_coherent`).
-/

namespace HoboNickels

open Fallible CWalletTx

structure IsMineFilter where
  watchOnly : Bool
  spendable : Bool
  deriving DecidableEq, Repr

namespace IsMineFilter

def mineSpendable : IsMineFilter := ⟨false, true⟩
def mineWatchOnly : IsMineFilter := ⟨true, false⟩
def mineAll : IsMineFilter := ⟨true, true⟩

def has (filter : IsMineFilter) : IsMineType → Bool
  | .no => false
  | .watchOnly => filter.watchOnly
  | .spendable => filter.spendable

end IsMineFilter

structure OwnerWallet where
  isMine : CScript → IsMineType
  /-- `ExtractDestination` finds an address, and the address book has it. -/
  inAddressBook : CScript → Bool
  mapWallet : MapWallet

namespace OwnerWallet

variable (pwallet : OwnerWallet)

variable (filter : IsMineFilter) (tx : CTransaction)

def keys : KeyStore := ⟨fun script => filter.has (pwallet.isMine script), 0⟩

def isChange (txout : CTxOut) : Bool :=
  decide (pwallet.isMine txout.scriptPubKey ≠ .no) && !pwallet.inAddressBook txout.scriptPubKey

def getCredit : Except String Int :=
  (pwallet.keys filter).creditFrom 0 tx.vout

def getDebit : Except String Int :=
  (pwallet.keys filter).debitFrom pwallet.mapWallet 0 tx.vin

def changeFrom (nChange : Int) : List CTxOut → Except String Int
  | [] => .ok nChange
  | txout :: rest => do
    require (moneyRange txout.nValue) "CWallet::GetChange() : value out of range"
    let nNext := nChange + if pwallet.isChange txout then txout.nValue else 0
    require (moneyRange nNext) "CWallet::GetChange() : value out of range"
    changeFrom nNext rest

def getChange : Except String Int := pwallet.changeFrom 0 tx.vout

/-- The loop of `GetAvailableCredit` over the outputs that are not spent. -/
def availableFrom (filter : IsMineFilter) (message : String) (nCredit : Int) :
    List (CTxOut × Bool) → Except String Int
  | [] => .ok nCredit
  | (txout, fSpent) :: rest =>
    if fSpent then availableFrom filter message nCredit rest
    else do
      require (moneyRange txout.nValue) "CWallet::GetCredit() : value out of range"
      let nNext := nCredit
        + if filter.has (pwallet.isMine txout.scriptPubKey) then txout.nValue else 0
      require (moneyRange nNext) message
      availableFrom filter message nNext rest

end OwnerWallet

/-! ## Caches -/

structure CachedAmount where
  fCached : Bool
  nCached : Int
  deriving DecidableEq, Repr

namespace CachedAmount

section

variable (c : CachedAmount) (compute : Except String Int)

def init : CachedAmount := ⟨false, 0⟩

def clear : CachedAmount := { c with fCached := false }

/-- The pattern of the getters. A computation that throws leaves the cache. -/
def reuse (fUseCache : Bool) (compute : Except String Int) (c : CachedAmount) :
    CachedAmount × Except String Int :=
  if fUseCache && c.fCached then (c, .ok c.nCached)
  else match compute with
    | .ok n => (⟨true, n⟩, .ok n)
    | .error e => (c, .error e)

def reuseIf (fWanted : Bool) (compute : Except String Int) (c : CachedAmount) :
    CachedAmount × Except String Int :=
  if fWanted then c.reuse true compute else (c, .ok 0)

def Right : Prop :=
  c.fCached = true → compute = .ok c.nCached

theorem right_clear : c.clear.Right compute :=
  fun h => by cases h

theorem right_init : init.Right compute := fun h => by cases h

end

variable {c : CachedAmount} {compute : Except String Int}

theorem Right.reuse (h : c.Right compute) (fUseCache : Bool) :
    (c.reuse fUseCache compute).2 = compute ∧ (c.reuse fUseCache compute).1.Right compute := by
  unfold CachedAmount.reuse
  split
  next huse =>
    have hcached := h ((Bool.and_eq_true _ _).mp huse).2
    exact ⟨hcached.symm, h⟩
  · rcases compute with e | n
    · exact ⟨rfl, h⟩
    · exact ⟨rfl, fun _ => rfl⟩

theorem Right.reuseIf (h : c.Right compute) (fWanted : Bool) :
    (c.reuseIf fWanted compute).2 = (if fWanted then compute else .ok 0) ∧
      (c.reuseIf fWanted compute).1.Right compute := by
  unfold CachedAmount.reuseIf
  split
  · exact h.reuse true
  · exact ⟨rfl, h⟩

end CachedAmount

structure CreditCaches where
  debit : CachedAmount
  watchDebit : CachedAmount
  credit : CachedAmount
  availableCredit : CachedAmount
  availableWatchCredit : CachedAmount
  immatureCredit : CachedAmount
  immatureWatchCredit : CachedAmount
  change : CachedAmount
  deriving DecidableEq, Repr

namespace CreditCaches

def init : CreditCaches := ⟨.init, .init, .init, .init, .init, .init, .init, .init⟩

def clearAvailable (c : CreditCaches) : CreditCaches :=
  { c with
    availableCredit := c.availableCredit.clear
    availableWatchCredit := c.availableWatchCredit.clear }

def markDirty (c : CreditCaches) : CreditCaches :=
  { c with
    credit := c.credit.clear
    availableCredit := c.availableCredit.clear
    availableWatchCredit := c.availableWatchCredit.clear
    debit := c.debit.clear
    watchDebit := c.watchDebit.clear
    change := c.change.clear }

end CreditCaches

/-- A wallet transaction with its caches, the wallet it is bound to and its depth in the chain. -/
structure CachedTx where
  fTestNet : Bool
  wtx : CWalletTx
  caches : CreditCaches
  pwallet : OwnerWallet
  nDepth : Int

namespace CachedTx

variable (r : CachedTx)

def getBlocksToMaturity : Int :=
  if r.wtx.isCoinBase || r.wtx.isCoinStake then
    max 0 ((nCoinbaseMaturity r.fTestNet : Int) + 20 - r.nDepth)
  else 0

def isInMainChain : Bool := decide (r.nDepth > 0)

def outputs : List (CTxOut × Bool) :=
  r.wtx.vout.zipIdx.map fun (txout, i) => (txout, r.wtx.vfSpent.getD i false)

def availableSum : Except String Int :=
  r.pwallet.availableFrom .mineSpendable
    "CWalletTx::GetAvailableCredit() : value out of range" 0 r.outputs

def availableWatchSum : Except String Int :=
  r.pwallet.availableFrom .mineWatchOnly
    "CWalletTx::GetAvailableWatchCredit() : value out of range" 0 r.outputs

def isImmature : Bool :=
  (r.wtx.isCoinBase || r.wtx.isCoinStake) && decide (r.getBlocksToMaturity > 0)

def isImmatureCoinBase : Bool :=
  r.wtx.isCoinBase && decide (r.getBlocksToMaturity > 0) && r.isInMainChain

/-! ## The getters -/

def getDebit (filter : IsMineFilter) : CachedTx × Except String Int :=
  if r.wtx.vin.isEmpty then (r, .ok 0)
  else
    match r.caches.debit.reuseIf filter.spendable
      (r.pwallet.getDebit .mineSpendable r.wtx.toCTransaction) with
    | (debit, .error e) => ({ r with caches := { r.caches with debit } }, .error e)
    | (debit, .ok nDebit) =>
      let (watchDebit, n) := r.caches.watchDebit.reuseIf filter.watchOnly
        (r.pwallet.getDebit .mineWatchOnly r.wtx.toCTransaction)
      ({ r with caches := { r.caches with debit, watchDebit } }, n.map (nDebit + ·))

variable (fUseCache : Bool)

def getCredit : CachedTx × Except String Int :=
  if r.isImmature then (r, .ok 0)
  else
    let (credit, n) :=
      r.caches.credit.reuse fUseCache (r.pwallet.getCredit .mineAll r.wtx.toCTransaction)
    ({ r with caches := { r.caches with credit } }, n)

def getImmatureCredit : CachedTx × Except String Int :=
  if r.isImmatureCoinBase then
    let (immatureCredit, n) := r.caches.immatureCredit.reuse fUseCache
      (r.pwallet.getCredit .mineSpendable r.wtx.toCTransaction)
    ({ r with caches := { r.caches with immatureCredit } }, n)
  else (r, .ok 0)

def getImmatureWatchOnlyCredit : CachedTx × Except String Int :=
  if r.isImmatureCoinBase then
    let (immatureWatchCredit, n) := r.caches.immatureWatchCredit.reuse fUseCache
      (r.pwallet.getCredit .mineWatchOnly r.wtx.toCTransaction)
    ({ r with caches := { r.caches with immatureWatchCredit } }, n)
  else (r, .ok 0)

def getAvailableCredit : CachedTx × Except String Int :=
  if r.isImmature then (r, .ok 0)
  else
    let (availableCredit, n) := r.caches.availableCredit.reuse fUseCache r.availableSum
    ({ r with caches := { r.caches with availableCredit } }, n)

/-- At the end, where the others set their flag, this one writes `true` to the amount. -/
def getAvailableWatchCredit : CachedTx × Except String Int :=
  if r.isImmature then (r, .ok 0)
  else if fUseCache && r.caches.availableWatchCredit.fCached then
    (r, .ok r.caches.availableWatchCredit.nCached)
  else match r.availableWatchSum with
    | .error e => (r, .error e)
    | .ok nCredit =>
      ({ r with caches := { r.caches with
          availableWatchCredit := { r.caches.availableWatchCredit with nCached := 1 } } },
        .ok nCredit)

def getChange : CachedTx × Except String Int :=
  let (change, n) := r.caches.change.reuse true (r.pwallet.getChange r.wtx.toCTransaction)
  ({ r with caches := { r.caches with change } }, n)

/-! ## Calls -/

inductive Amount where
  | debit (filter : IsMineFilter)
  | credit
  | immatureCredit
  | immatureWatchOnlyCredit
  | availableCredit
  | availableWatchCredit
  | change

/-- One of the getters; `GetDebit` and `GetChange` always use their cache. -/
def ask (fUseCache : Bool) : Amount → CachedTx × Except String Int
  | .debit filter => r.getDebit filter
  | .credit => r.getCredit fUseCache
  | .immatureCredit => r.getImmatureCredit fUseCache
  | .immatureWatchOnlyCredit => r.getImmatureWatchOnlyCredit fUseCache
  | .availableCredit => r.getAvailableCredit fUseCache
  | .availableWatchCredit => r.getAvailableWatchCredit fUseCache
  | .change => r.getChange

def fresh (amount : Amount) : Except String Int :=
  ({ r with caches := .init }.ask true amount).2

/-- `MarkSpent` and `MarkUnspent`, which throw before they change anything. -/
def setSpent (fSpent : Bool) (nOut : Nat) : CachedTx :=
  match if fSpent then r.wtx.markSpent nOut else r.wtx.markUnspent nOut with
  | .error _ => r
  | .ok wtx =>
    { r with
      wtx
      caches := if r.wtx.vfSpent.getD nOut false = fSpent then r.caches
        else r.caches.clearAvailable }

def updateSpent (vfNewSpent : List Bool) : CachedTx :=
  match r.wtx.updateSpent vfNewSpent with
  | (wtx, fUpdated) =>
    { r with wtx, caches := if fUpdated then r.caches.clearAvailable else r.caches }

def markDirty : CachedTx := { r with caches := r.caches.markDirty }

def bindWallet (pwallet : OwnerWallet) : CachedTx := { r with pwallet }.markDirty

inductive Call where
  | ask (fUseCache : Bool) (amount : Amount)
  | markSpent (nOut : Nat)
  | markUnspent (nOut : Nat)
  | updateSpent (vfNewSpent : List Bool)
  | markDirty
  | bindWallet (pwallet : OwnerWallet)
  /-- Keys or scripts are added to the wallet, and `CWallet::MarkDirty` is called. `pwallet` is the
  wallet afterwards: any wallet, which is more than an import can make of the one before. -/
  | importKeys (pwallet : OwnerWallet)
  /-- Blocks are added to the chain, or taken off it. -/
  | chainMoves (nDepth : Int)

def step : Call → CachedTx
  | .ask fUseCache amount => (r.ask fUseCache amount).1
  | .markSpent nOut => r.setSpent true nOut
  | .markUnspent nOut => r.setSpent false nOut
  | .updateSpent vfNewSpent => r.updateSpent vfNewSpent
  | .markDirty => r.markDirty
  | .bindWallet pwallet => r.bindWallet pwallet
  | .importKeys pwallet => { r with pwallet }.markDirty
  | .chainMoves nDepth => { r with nDepth }

def run (calls : List Call) : CachedTx := calls.foldl step r

/-! ## The caches hold what would be computed -/

def amountOf : Amount → Except String Int
  | .debit filter =>
    if r.wtx.vin.isEmpty then .ok 0
    else
      Except.bind
        (if filter.spendable then r.pwallet.getDebit .mineSpendable r.wtx.toCTransaction
          else .ok 0)
        fun nDebit => Except.map (nDebit + ·)
          (if filter.watchOnly then r.pwallet.getDebit .mineWatchOnly r.wtx.toCTransaction
            else .ok 0)
  | .credit =>
    if r.isImmature then .ok 0 else r.pwallet.getCredit .mineAll r.wtx.toCTransaction
  | .immatureCredit =>
    if r.isImmatureCoinBase then r.pwallet.getCredit .mineSpendable r.wtx.toCTransaction
    else .ok 0
  | .immatureWatchOnlyCredit =>
    if r.isImmatureCoinBase then r.pwallet.getCredit .mineWatchOnly r.wtx.toCTransaction
    else .ok 0
  | .availableCredit => if r.isImmature then .ok 0 else r.availableSum
  | .availableWatchCredit => if r.isImmature then .ok 0 else r.availableWatchSum
  | .change => r.pwallet.getChange r.wtx.toCTransaction

/-- Every cache that is filled is right. The one for available watch-only credit is never
filled. -/
structure Right : Prop where
  debit : r.caches.debit.Right (r.pwallet.getDebit .mineSpendable r.wtx.toCTransaction)
  watchDebit : r.caches.watchDebit.Right (r.pwallet.getDebit .mineWatchOnly r.wtx.toCTransaction)
  credit : r.caches.credit.Right (r.pwallet.getCredit .mineAll r.wtx.toCTransaction)
  availableCredit : r.caches.availableCredit.Right r.availableSum
  availableWatchCredit : r.caches.availableWatchCredit.fCached = false
  immatureCredit :
    r.caches.immatureCredit.Right (r.pwallet.getCredit .mineSpendable r.wtx.toCTransaction)
  immatureWatchCredit :
    r.caches.immatureWatchCredit.Right (r.pwallet.getCredit .mineWatchOnly r.wtx.toCTransaction)
  change : r.caches.change.Right (r.pwallet.getChange r.wtx.toCTransaction)

variable {r : CachedTx}

theorem right_init (r : CachedTx) : Right { r with caches := .init } := by
  constructor
  all_goals first | rfl | exact CachedAmount.right_init _

theorem Right.getDebit (h : r.Right) (filter : IsMineFilter) :
    (r.getDebit filter).2 = r.amountOf (.debit filter) ∧ (r.getDebit filter).1.Right := by
  obtain ⟨hown, hdebit⟩ := h.debit.reuseIf filter.spendable
  obtain ⟨hwatch, hwatchDebit⟩ := h.watchDebit.reuseIf filter.watchOnly
  unfold CachedTx.getDebit amountOf
  split
  · exact ⟨rfl, h⟩
  dsimp only
  rw [← hown, ← hwatch]
  rcases hcase : r.caches.debit.reuseIf filter.spendable
    (r.pwallet.getDebit .mineSpendable r.wtx.toCTransaction) with ⟨debit, e | nDebit⟩
  · rw [hcase] at hdebit
    exact ⟨rfl, { h with debit := hdebit }⟩
  · rw [hcase] at hdebit
    exact ⟨rfl, { h with debit := hdebit, watchDebit := hwatchDebit }⟩

theorem Right.ask (h : r.Right) (fUseCache : Bool) (amount : Amount) :
    (r.ask fUseCache amount).2 = r.amountOf amount ∧ (r.ask fUseCache amount).1.Right := by
  cases amount with
  | debit filter => exact h.getDebit filter
  | credit =>
    obtain ⟨hvalue, hright⟩ := h.credit.reuse fUseCache
    simp only [CachedTx.ask, CachedTx.getCredit, amountOf]
    split
    · exact ⟨rfl, h⟩
    · exact ⟨hvalue, { h with credit := hright }⟩
  | immatureCredit =>
    obtain ⟨hvalue, hright⟩ := h.immatureCredit.reuse fUseCache
    simp only [CachedTx.ask, CachedTx.getImmatureCredit, amountOf]
    split
    · exact ⟨hvalue, { h with immatureCredit := hright }⟩
    · exact ⟨rfl, h⟩
  | immatureWatchOnlyCredit =>
    obtain ⟨hvalue, hright⟩ := h.immatureWatchCredit.reuse fUseCache
    simp only [CachedTx.ask, CachedTx.getImmatureWatchOnlyCredit, amountOf]
    split
    · exact ⟨hvalue, { h with immatureWatchCredit := hright }⟩
    · exact ⟨rfl, h⟩
  | availableCredit =>
    obtain ⟨hvalue, hright⟩ := h.availableCredit.reuse fUseCache
    simp only [CachedTx.ask, CachedTx.getAvailableCredit, amountOf]
    split
    · exact ⟨rfl, h⟩
    · exact ⟨hvalue, { h with availableCredit := hright }⟩
  | availableWatchCredit =>
    simp only [CachedTx.ask, CachedTx.getAvailableWatchCredit, amountOf, h.availableWatchCredit,
      Bool.and_false, Bool.false_eq_true, if_false]
    split
    · exact ⟨rfl, h⟩
    · rcases r.availableWatchSum with e | _
      · exact ⟨rfl, h⟩
      · exact ⟨rfl, { h with availableWatchCredit := rfl }⟩
  | change =>
    obtain ⟨hvalue, hright⟩ := h.change.reuse true
    exact ⟨hvalue, { h with change := hright }⟩

theorem Right.ask_eq_fresh (h : r.Right) (fUseCache : Bool) (amount : Amount) :
    (r.ask fUseCache amount).2 = r.fresh amount := by
  rw [(h.ask fUseCache amount).1]
  exact ((right_init r).ask true amount).1.symm

/-! ## Changes -/

theorem Right.withFlags (h : r.Right) {vfSpent : List Bool} {caches : CreditCaches}
    (hcaches : caches = r.caches.clearAvailable ∨ (caches = r.caches ∧
      ∀ i < r.wtx.vout.length, vfSpent.getD i false = r.wtx.vfSpent.getD i false)) :
    Right { r with wtx := { r.wtx with vfSpent }, caches } := by
  rcases hcaches with rfl | ⟨rfl, hsame⟩
  · exact { h with
      availableCredit := CachedAmount.right_clear _ _
      availableWatchCredit := rfl }
  have houtputs : { r with wtx := { r.wtx with vfSpent } }.outputs = r.outputs := by
    apply List.map_congr_left
    rintro ⟨_, i⟩ hmem
    dsimp only
    rw [hsame i (List.snd_lt_of_mem_zipIdx hmem)]
  refine { h with availableCredit := ?_ }
  unfold availableSum
  rw [houtputs]
  exact h.availableCredit

theorem Right.setSpent (h : r.Right) (fSpent : Bool) (nOut : Nat) :
    (r.setSpent fSpent nOut).Right := by
  have hmark : (if fSpent then r.wtx.markSpent nOut else r.wtx.markUnspent nOut)
      = r.wtx.mark fSpent (if fSpent then "CWalletTx::MarkSpent() : nOut out of range"
          else "CWalletTx::MarkUnspent() : nOut out of range") nOut := by
    cases fSpent <;> rfl
  unfold CachedTx.setSpent
  rw [hmark]
  split
  · exact h
  rename_i wtx hok
  obtain ⟨hin, rfl⟩ := mark_eq_ok.mp hok
  apply h.withFlags
  split
  next hsame =>
    refine .inr ⟨rfl, ?_⟩
    intro i hi
    rw [getD_set_resizeSpent r.wtx.vfSpent fSpent hin hi]
    split
    next heq => rw [heq, hsame]
    · rfl
  · exact .inl rfl

theorem Right.updateSpent (h : r.Right) (vfNewSpent : List Bool) :
    (r.updateSpent vfNewSpent).Right := by
  apply h.withFlags
  split
  · exact .inl rfl
  rename_i hsame
  refine .inr ⟨rfl, ?_⟩
  intro i _
  rw [bne_iff_ne, not_not] at hsame
  rw [hsame]

/-- The two caches that `MarkDirty` does not clear are empty, or hold what they would hold with the
new keys. -/
def ImmatureUnchanged (r : CachedTx) (pwallet : OwnerWallet) : Prop :=
  (r.caches.immatureCredit.fCached = true →
    pwallet.getCredit .mineSpendable r.wtx.toCTransaction
      = r.pwallet.getCredit .mineSpendable r.wtx.toCTransaction) ∧
  (r.caches.immatureWatchCredit.fCached = true →
    pwallet.getCredit .mineWatchOnly r.wtx.toCTransaction
      = r.pwallet.getCredit .mineWatchOnly r.wtx.toCTransaction)

theorem Right.rebind (h : r.Right) {pwallet : OwnerWallet} (hsame : r.ImmatureUnchanged pwallet) :
    Right { r with pwallet, caches := r.caches.markDirty } where
  debit := CachedAmount.right_clear _ _
  watchDebit := CachedAmount.right_clear _ _
  credit := CachedAmount.right_clear _ _
  availableCredit := CachedAmount.right_clear _ _
  availableWatchCredit := rfl
  immatureCredit := fun hcached => (hsame.1 hcached).trans (h.immatureCredit hcached)
  immatureWatchCredit := fun hcached => (hsame.2 hcached).trans (h.immatureWatchCredit hcached)
  change := CachedAmount.right_clear _ _

def CallOk (r : CachedTx) : Call → Prop
  | .bindWallet pwallet => r.ImmatureUnchanged pwallet
  | .importKeys pwallet => r.ImmatureUnchanged pwallet
  | _ => True

theorem Right.step (h : r.Right) {call : Call} (hok : r.CallOk call) : (r.step call).Right := by
  cases call with
  | ask fUseCache amount => exact (h.ask fUseCache amount).2
  | markSpent nOut => exact h.setSpent true nOut
  | markUnspent nOut => exact h.setSpent false nOut
  | updateSpent vfNewSpent => exact h.updateSpent vfNewSpent
  | markDirty => exact h.rebind ⟨fun _ => rfl, fun _ => rfl⟩
  | bindWallet pwallet => exact h.rebind hok
  | importKeys pwallet => exact h.rebind hok
  | chainMoves nDepth => exact { h with }

def RunOk : CachedTx → List Call → Prop
  | _, [] => True
  | r, call :: rest => r.CallOk call ∧ RunOk (r.step call) rest

theorem Right.run {calls : List Call} : ∀ {r : CachedTx}, r.Right → RunOk r calls →
    (r.run calls).Right := by
  induction calls with
  | nil => exact fun h _ => h
  | cons call rest ih => exact fun h hok => ih (h.step hok.1) hok.2

def ofWallet (fTestNet : Bool) (wtx : CWalletTx) (pwallet : OwnerWallet) (nDepth : Int) :
    CachedTx :=
  ⟨fTestNet, wtx, .init, pwallet, nDepth⟩

/-- **The caches are coherent.** After any calls, of which those that change the keys leave what the
caches of the immature credits hold, every getter returns what it would compute afresh. -/
theorem caches_coherent (fTestNet : Bool) (wtx : CWalletTx) (pwallet : OwnerWallet) (nDepth : Int)
    (calls : List Call) (hok : RunOk (ofWallet fTestNet wtx pwallet nDepth) calls)
    (amount : Amount) :
    (((ofWallet fTestNet wtx pwallet nDepth).run calls).ask true amount).2
      = ((ofWallet fTestNet wtx pwallet nDepth).run calls).fresh amount := by
  have hinit : (ofWallet fTestNet wtx pwallet nDepth).Right :=
    right_init (ofWallet fTestNet wtx pwallet nDepth)
  exact (hinit.run hok).ask_eq_fresh true amount

/-! ## An imported key

A coinbase pays five coins to a public key. The wallet watches the script itself, which was imported
in hexadecimal. `AddKey` refuses a key while the script of its address is watched, and that one is
not: the key can be imported, and `IsMine` asks for it before it looks at the watched scripts. -/

def pubKeyScript : CScript := 33 :: 2 :: List.replicate 32 7 ++ [0xac]

def minedWtx : CWalletTx :=
  .ofTx { sampleCoinbase 7 0 with vout := [⟨5 * coin, pubKeyScript⟩] }

def watchingOwner (fHaveKey : Bool) : OwnerWallet :=
  ⟨fun script =>
      if script = pubKeyScript then if fHaveKey then .spendable else .watchOnly else .no,
    fun _ => false, fun _ => none⟩

theorem caches_coherent_sample :
    let calls := [.ask true .availableCredit, .importKeys (watchingOwner true), .chainMoves 30]
    let t := (ofWallet false minedWtx (watchingOwner false) 1).run calls
    t.fresh .availableCredit = .ok (5 * coin) ∧
      (t.ask true .availableCredit).2 = t.fresh .availableCredit := by
  intro calls t
  exact ⟨by decide +kernel, caches_coherent false minedWtx (watchingOwner false) 1 calls
    ⟨trivial, ⟨(by cases ·), (by cases ·)⟩, trivial, trivial⟩ .availableCredit⟩

def minedImported : CachedTx :=
  (ofWallet false minedWtx (watchingOwner false) 1).run
    [.ask true .immatureCredit, .ask true .immatureWatchOnlyCredit,
      .importKeys (watchingOwner true)]

/-- The spendable credit is still reported as zero and the watch-only credit as five coins. -/
theorem immatureCredit_stale :
    (minedImported.ask true .immatureCredit).2 = .ok 0 ∧
      minedImported.fresh .immatureCredit = .ok (5 * coin) ∧
      (minedImported.ask true .immatureWatchOnlyCredit).2 = .ok (5 * coin) ∧
      minedImported.fresh .immatureWatchOnlyCredit = .ok 0 := by
  decide +kernel

end CachedTx

end HoboNickels

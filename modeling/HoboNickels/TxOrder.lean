import HoboNickels.Primitives
import HoboNickels.WalletZap

/-!
# The order of a wallet's transactions

Wallet transactions and accounting entries share one numbering, `nOrderPos`. When `LoadWallet` meets
an item without a position it calls `ReorderTransactions`, which goes through the items by time,
numbers those without a position and shifts the others. Afterwards the positions should be distinct
and below `nOrderPosNext`, items that had positions should stay in their order, and the next start
should find the same (`Reordered`).

But only the entries of the account `""` are listed; a transaction that gets its first position is
not written; and an old position is compared with the places of new items in the shifted numbering,
so an item can end where a new one is. `reorderTransactions_reordered` says for which files all goes
well.
-/

namespace HoboNickels.TxOrder

open List

/-- What identifies a wallet transaction or an accounting entry: the rest of its database key. -/
inductive ItemRef where
  | tx (hash : Uint256)
  | entry (strAccount : String) (nEntryNo : Nat)
  deriving DecidableEq

def ItemRef.isTx : ItemRef → Bool
  | .tx _ => true
  | .entry _ _ => false

structure TxItem where
  ref : ItemRef
  time : Int
  deriving DecidableEq

/-- A wallet file: its items, transactions and entries each in the order of their keys, their
positions, and the record `orderposnext` (0, as in a new wallet, if there is none). -/
structure WalletFile where
  items : List TxItem
  nodup : (items.map TxItem.ref).Nodup
  nOrderPos : ItemRef → Int
  orderposnext : Int

/-- A wallet and its file. Transactions have a position in memory, accounting entries have not. -/
structure Wallet where
  file : WalletFile
  txPos : ItemRef → Int
  nOrderPosNext : Int

def Wallet.position (w : Wallet) (r : ItemRef) : Int :=
  if r.isTx then w.txPos r else w.file.nOrderPos r

/-! ## The functions of the wallet database -/

/-- `ListAccountCreditDebit`: the entries of one account, or all for `"*"`. -/
def WalletFile.listAccountCreditDebit (file : WalletFile) (strAccount : String) : List TxItem :=
  file.items.filter fun x =>
    match x.ref with
    | .entry account _ => strAccount = "*" || account = strAccount
    | .tx _ => false

/-- `multimap::insert`: behind the elements of the same time. -/
def insertByTime (x : TxItem) : List TxItem → List TxItem
  | [] => [x]
  | y :: rest => if x.time < y.time then x :: y :: rest else y :: insertByTime x rest

/-- The transactions, then the entries that are listed, in a multimap by time. -/
def WalletFile.txByTime (file : WalletFile) : List TxItem :=
  (file.items.filter (fun x => x.ref.isTx) ++ file.listAccountCreditDebit "").foldl
    (fun l x => insertByTime x l) []

structure ReorderState where
  wallet : Wallet
  nOrderPosOffsets : List Int

section Reorder

variable (writeOk : ItemRef → Bool)

/-- The assignment to `nOrderPos`. That of an entry is in a local list, which is gone at the end. -/
def Wallet.setPos (w : Wallet) (r : ItemRef) (nOrderPos : Int) : Wallet :=
  if r.isTx then { w with txPos := Function.update w.txPos r nOrderPos } else w

def ReorderState.write (s : ReorderState) (r : ItemRef) (nOrderPos : Int) : ReorderState × Bool :=
  if writeOk r then
    let file := { s.wallet.file with
      nOrderPos := Function.update s.wallet.file.nOrderPos r nOrderPos }
    ({ s with wallet := { s.wallet with file } }, true)
  else (s, false)

def ReorderState.visit (s : ReorderState) (x : TxItem) : ReorderState × Bool :=
  let nOrderPos := s.wallet.position x.ref
  if nOrderPos = -1 then
    let nOrderPos := s.wallet.nOrderPosNext
    let s : ReorderState :=
      ⟨{ s.wallet.setPos x.ref nOrderPos with nOrderPosNext := int64 (nOrderPos + 1) },
        s.nOrderPosOffsets ++ [nOrderPos]⟩
    -- A transaction is not written here.
    if x.ref.isTx then (s, true) else s.write writeOk x.ref nOrderPos
  else
    let nOrderPosOff := s.nOrderPosOffsets.countP (fun nOffsetStart => nOffsetStart ≤ nOrderPos)
    let nOrderPos := int64 (nOrderPos + nOrderPosOff)
    let s : ReorderState :=
      ⟨{ s.wallet.setPos x.ref nOrderPos with
          nOrderPosNext := max s.wallet.nOrderPosNext (int64 (nOrderPos + 1)) },
        s.nOrderPosOffsets⟩
    if nOrderPosOff = 0 then (s, true) else s.write writeOk x.ref nOrderPos

def ReorderState.visitAll (s : ReorderState) : List TxItem → Wallet × DBErrors
  | [] => (s.wallet, .DB_LOAD_OK)
  | x :: rest =>
    match s.visit writeOk x with
    | (s, true) => s.visitAll rest
    | (s, false) => (s.wallet, .DB_LOAD_FAIL)

/-- `CWalletDB::ReorderTransactions`, on the wallet that was read from the file. -/
def reorderTransactions (file : WalletFile) : Wallet × DBErrors :=
  ReorderState.visitAll writeOk ⟨⟨file, file.nOrderPos, 0⟩, []⟩ file.txByTime

/-- The part of `LoadWallet` that concerns the positions; the test is `fAnyUnordered`. -/
def loadWallet (file : WalletFile) : Wallet × DBErrors :=
  if file.items.any (fun x => file.nOrderPos x.ref = -1) then reorderTransactions writeOk file
  else (⟨file, file.nOrderPos, file.orderposnext⟩, .DB_LOAD_OK)

end Reorder

/-! ## What a reordering should do -/

structure WalletFile.Positioned (file : WalletFile) : Prop where
  atLeast : ∀ x ∈ file.items, -1 ≤ file.nOrderPos x.ref
  distinct : ∀ x ∈ file.items, ∀ y ∈ file.items, file.nOrderPos x.ref ≠ -1 →
    file.nOrderPos x.ref = file.nOrderPos y.ref → x = y

/-- No position is so high that the numbers of two starts do not fit behind it. -/
def WalletFile.HasRoom (file : WalletFile) : Prop :=
  ∀ x ∈ file.items, file.nOrderPos x.ref + 2 * file.items.length + 1 < 2 ^ 63

structure Reordered (file : WalletFile) (w : Wallet) : Prop where
  distinct : ∀ x ∈ file.items, ∀ y ∈ file.items, w.position x.ref = w.position y.ref → x = y
  inRange : ∀ x ∈ file.items, 0 ≤ w.position x.ref ∧ w.position x.ref < w.nOrderPosNext
  keepsOrder : ∀ x ∈ file.items, ∀ y ∈ file.items, file.nOrderPos x.ref ≠ -1 →
    file.nOrderPos x.ref < file.nOrderPos y.ref → w.position x.ref < w.position y.ref
  reload : ∀ writeOk w', loadWallet writeOk w.file = (w', .DB_LOAD_OK) →
    ∀ x ∈ file.items, w'.position x.ref = w.position x.ref

/-! ## The numbering

The positions that a list of old positions leads to, apart from any wallet and any bound. -/

structure Numbering where
  nOrderPosNext : Int
  nOrderPosOffsets : List Int

namespace Numbering

def newPos (n : Numbering) (p : Int) : Int :=
  if p = -1 then n.nOrderPosNext
  else p + n.nOrderPosOffsets.countP (fun nOffsetStart => nOffsetStart ≤ p)

def after (n : Numbering) (p : Int) : Numbering :=
  if p = -1 then ⟨n.nOrderPosNext + 1, n.nOrderPosOffsets ++ [n.nOrderPosNext]⟩
  else ⟨max n.nOrderPosNext (n.newPos p + 1), n.nOrderPosOffsets⟩

def of (l : List Int) : Numbering := l.foldl after ⟨0, []⟩

variable (l a b : List Int)

theorem of_snoc (p : Int) : of (l ++ [p]) = (of l).after p := by
  simp [of]

theorem of_append (l' : List Int) : of (l ++ l') = l'.foldl after (of l) := by
  simp [of]

theorem newPos_lt_after (n : Numbering) (p : Int) :
    n.newPos p < (n.after p).nOrderPosNext ∧ n.nOrderPosNext ≤ (n.after p).nOrderPosNext := by
  unfold after newPos
  split <;> simp

theorem foldl_after (n : Numbering) (l : List Int) :
    n.nOrderPosNext ≤ (l.foldl after n).nOrderPosNext ∧
      ∃ later, (l.foldl after n).nOrderPosOffsets = n.nOrderPosOffsets ++ later ∧
        ∀ s ∈ later, n.nOrderPosNext ≤ s := by
  induction l generalizing n with
  | nil => exact ⟨le_rfl, [], by simp, by simp⟩
  | cons p rest ih =>
    obtain ⟨hnext, later, hlater, hbehind⟩ := ih (n.after p)
    have hstep := (newPos_lt_after n p).2
    refine ⟨hstep.trans hnext, ?_⟩
    by_cases hp : p = -1
    · refine ⟨n.nOrderPosNext :: later, ?_, ?_⟩
      · rw [foldl_cons, hlater]
        simp [after, hp]
      · intro s hs
        rcases mem_cons.mp hs with rfl | hs
        · exact le_rfl
        · exact hstep.trans (hbehind s hs)
    · refine ⟨later, ?_, fun s hs => hstep.trans (hbehind s hs)⟩
      rw [foldl_cons, hlater]
      simp [after, hp]

variable {p p' : Int}

theorem next_nonneg : 0 ≤ (of l).nOrderPosNext := (foldl_after ⟨0, []⟩ l).1

theorem exists_of_mem_offsets {l : List Int} {s : Int} (h : s ∈ (of l).nOrderPosOffsets) :
    ∃ a b, l = a ++ -1 :: b ∧ s = (of a).nOrderPosNext := by
  induction l using reverseRecOn with
  | nil => cases h
  | append_singleton l p ih =>
    have hold : s ∈ (of l).nOrderPosOffsets → ∃ a b, l ++ [p] = a ++ -1 :: b ∧
        s = (of a).nOrderPosNext := by
      intro hs
      obtain ⟨a, b, rfl, heq⟩ := ih hs
      exact ⟨a, b ++ [p], by simp, heq⟩
    rw [of_snoc, after] at h
    split at h
    next hp =>
      rcases mem_append.mp h with hs | hs
      · exact hold hs
      · exact ⟨l, [], by rw [hp], mem_singleton.mp hs⟩
    · exact hold h

theorem count_snoc_of_ne (hp : p ≠ -1) : (l ++ [p]).count (-1) = l.count (-1) := by
  rw [count_append, count_singleton, if_neg (by simpa using hp), Nat.add_zero]

theorem length_offsets : (of l).nOrderPosOffsets.length = l.count (-1) := by
  induction l using reverseRecOn with
  | nil => rfl
  | append_singleton l p ih =>
    rw [of_snoc, after]
    split
    next hp => simp [ih, hp]
    next hp =>
      rw [count_snoc_of_ne l hp]
      exact ih

/-! ### Items that have positions keep their order -/

theorem countP_mono (h : p ≤ p') : l.countP (fun s => s ≤ p) ≤ l.countP (fun s => s ≤ p') := by
  apply countP_mono_left
  intro s _ hs
  simp only [decide_eq_true_eq] at hs ⊢
  omega

theorem countP_eq_zero (h : ∀ s ∈ l, p < s) : l.countP (fun s => s ≤ p) = 0 := by
  rw [List.countP_eq_zero]
  intro s hs
  simpa using h s hs

theorem newPos_eq {n : Numbering} (hp : p ≠ -1) :
    n.newPos p = p + n.nOrderPosOffsets.countP (fun s => s ≤ p) := if_neg hp

theorem offsets_later (p : Int) :
    ∃ later, (of (a ++ p :: b)).nOrderPosOffsets = ((of a).after p).nOrderPosOffsets ++ later ∧
      ∀ s ∈ later, (of a).newPos p < s := by
  obtain ⟨-, later, hlater, hbehind⟩ := foldl_after ((of a).after p) b
  refine ⟨later, ?_, ?_⟩
  · rw [of_append, foldl_cons, hlater]
  · intro s hs
    exact (newPos_lt_after (of a) p).1.trans_le (hbehind s hs)

theorem newPos_order (hp : p ≠ -1) (hp' : p' ≠ -1) :
    (p < p' → (of a).newPos p < (of (a ++ p :: b)).newPos p') ∧
      (p' < p → (of (a ++ p :: b)).newPos p' < (of a).newPos p) := by
  obtain ⟨later, hlater, hbehind⟩ := offsets_later a b p
  have hoffsets : ((of a).after p).nOrderPosOffsets = (of a).nOrderPosOffsets := by
    simp [after, hp]
  rw [newPos_eq hp] at hbehind
  rw [newPos_eq hp, newPos_eq hp', hlater, hoffsets, countP_append]
  constructor
  all_goals
    intro hlt
    have hmono := countP_mono (of a).nOrderPosOffsets hlt.le
  · omega
  · have hnone : later.countP (fun s => s ≤ p') = 0 := by
      apply countP_eq_zero
      intro s hs
      have hs := hbehind s hs
      omega
    omega

theorem newPos_lt_next (p : Int) : (of a).newPos p < (of (a ++ p :: b)).nOrderPosNext := by
  have hnext := (foldl_after ((of a).after p) b).1
  have hlt := (newPos_lt_after (of a) p).1
  rw [of_append]
  exact hlt.trans_le hnext

/-! ### When a shifted item meets no new one -/

def highest (l : List Int) : Int := l.foldl max (-1)

theorem highest_snoc (p : Int) : highest (l ++ [p]) = max (highest l) p := by
  simp [highest]

theorem highest_append (l' : List Int) : highest l ≤ highest (l ++ l') := by
  induction l' using reverseRecOn with
  | nil => simp
  | append_singleton l' p ih =>
    rw [← append_assoc, highest_snoc]
    exact ih.trans (le_max_left _ _)

theorem neg_one_le_highest : -1 ≤ highest l := by
  simpa [highest] using highest_append [] l

/-- The new item goes behind the highest position of the items `a` before it; the position `p`
behind it is not to lie between that and the shifted place. -/
def Clear (a : List Int) (p : Int) : Prop :=
  p ≤ highest a ∨ highest a + a.count (-1) < p

/-- Every item with a position is clear of the new items before it. -/
def AllClear (l : List Int) : Prop :=
  ∀ a b p c, l = a ++ -1 :: (b ++ p :: c) → p ≠ -1 → Clear a p

theorem AllClear.of_append {l' : List Int} (h : AllClear (l ++ l')) : AllClear l := by
  rintro a b p c rfl hp
  exact h a b p (c ++ l') (by simp) hp

theorem next_eq {l : List Int} (h : AllClear l) :
    (of l).nOrderPosNext = highest l + l.count (-1) + 1 := by
  induction hn : l.length using Nat.strong_induction_on generalizing l with
  | _ n ih =>
    rcases l.eq_nil_or_concat' with rfl | ⟨l, p, rfl⟩
    · rfl
    have hl := ih l.length (by simp [← hn]) h.of_append rfl
    rw [of_snoc, highest_snoc]
    by_cases hp : p = -1
    · have hhigh := neg_one_le_highest l
      simp only [after, hp, if_true, count_append, count_singleton_self]
      omega
    simp only [after, if_neg hp, newPos_eq hp, count_snoc_of_ne l hp]
    have hlength := length_offsets l
    by_cases hhigh : p ≤ highest l
    · have hle := countP_le_length (p := fun s => decide (s ≤ p)) (l := (of l).nOrderPosOffsets)
      omega
    -- A new greatest position is shifted by all items that have been added.
    have hall : (of l).nOrderPosOffsets.countP (fun s => s ≤ p) =
        (of l).nOrderPosOffsets.length := by
      rw [countP_eq_length]
      intro s hs
      obtain ⟨a, b, rfl, rfl⟩ := exists_of_mem_offsets hs
      have ha := ih a.length (by simp [← hn]) h.of_append.of_append rfl
      have hclear := h a b p [] (by simp) hp
      have hle := highest_append a (-1 :: b)
      unfold Clear at hclear
      simp only [decide_eq_true_eq]
      omega
    omega

theorem newPos_clear {a b c : List Int} (h : AllClear (a ++ -1 :: (b ++ p :: c))) (hp : p ≠ -1) :
    (p ≤ highest a → (of (a ++ -1 :: b)).newPos p < (of a).newPos (-1)) ∧
      (highest a < p → (of a).newPos (-1) < (of (a ++ -1 :: b)).newPos p) := by
  have hnext := next_eq h.of_append
  have hclear := h a b p c rfl hp
  obtain ⟨later, hlater, hbehind⟩ := offsets_later a b (-1)
  have hplace : (of a).newPos (-1) = (of a).nOrderPosNext := if_pos rfl
  have hoffsets : ((of a).after (-1)).nOrderPosOffsets =
      (of a).nOrderPosOffsets ++ [(of a).nOrderPosNext] := by
    simp [after]
  rw [newPos_eq hp, hlater, hoffsets]
  simp only [countP_append, countP_singleton, decide_eq_true_eq]
  constructor
  · intro hhigh
    have hnone : later.countP (fun s => s ≤ p) = 0 := by
      apply countP_eq_zero
      intro s hs
      have hs := hbehind s hs
      omega
    have hle := countP_le_length (p := fun s => decide (s ≤ p)) (l := (of a).nOrderPosOffsets)
    have hlength := length_offsets a
    rw [if_neg (by omega)]
    omega
  · intro hhigh
    unfold Clear at hclear
    rw [if_pos (by omega)]
    omega

end Numbering

/-! ## A run of the loop -/

section Runs

open TxOrder.Numbering hiding AllClear

variable {old : ItemRef → Int} {file : WalletFile} {w : Wallet} {a b c l : List TxItem}
  {x y : TxItem}

def numbering (old : ItemRef → Int) (l : List TxItem) : Numbering :=
  of (l.map fun x => old x.ref)

def place (old : ItemRef → Int) (a : List TxItem) (x : TxItem) : Int :=
  (numbering old a).newPos (old x.ref)

def Unwritten (old : ItemRef → Int) (x : TxItem) : Prop := old x.ref = -1 ∧ x.ref.isTx = true

instance (old : ItemRef → Int) (x : TxItem) : Decidable (Unwritten old x) :=
  inferInstanceAs (Decidable (_ ∧ _))

theorem numbering_snoc : numbering old (a ++ [x]) = (numbering old a).after (old x.ref) := by
  simp [numbering, of_snoc]

theorem numbering_next_le {bound : Int} (hbound : -1 ≤ bound) (h : ∀ x ∈ l, old x.ref ≤ bound) :
    (numbering old l).nOrderPosNext ≤ bound + l.length + 1 := by
  induction l using reverseRecOn with
  | nil =>
    simp [numbering, of]
    omega
  | append_singleton l x ih =>
    have hl := ih fun y hy => h y (mem_append_left _ hy)
    have hx := h x (by simp)
    have hoffsets : (numbering old l).nOrderPosOffsets.length ≤ l.length := by
      rw [numbering, length_offsets]
      exact count_le_length.trans_eq (length_map _)
    have hcount := (numbering old l).nOrderPosOffsets.countP_le_length
      (p := fun s => decide (s ≤ old x.ref))
    rw [numbering_snoc, Numbering.after, newPos, length_append, length_singleton]
    split <;> dsimp only <;> omega

/-- What a run over the items `l` leaves: each one at its place, on the disk too unless it is
unwritten. -/
structure Run (old : ItemRef → Int) (l : List TxItem) (w : Wallet) : Prop where
  next : w.nOrderPosNext = (numbering old l).nOrderPosNext
  others : ∀ r ∉ l.map TxItem.ref, w.txPos r = old r ∧ w.file.nOrderPos r = old r
  placed : ∀ a x b, l = a ++ x :: b → w.position x.ref = place old a x ∧
    w.file.nOrderPos x.ref = if Unwritten old x then -1 else place old a x

/-- One item is moved to `q`, and to `disk` on the disk. -/
structure MovesTo (s s' : ReorderState) (r : ItemRef) (q disk : Int) : Prop where
  items : s'.wallet.file.items = s.wallet.file.items
  others : ∀ r' ≠ r, s'.wallet.txPos r' = s.wallet.txPos r' ∧
    s'.wallet.file.nOrderPos r' = s.wallet.file.nOrderPos r'
  position : s'.wallet.position r = q
  disk : s'.wallet.file.nOrderPos r = disk

variable {writeOk : ItemRef → Bool} {s : ReorderState} {r : ItemRef} {offsets : List Int}

theorem MovesTo.of_write {s' : ReorderState} {q next : Int} (h : ReorderState.write writeOk
      ⟨{ s.wallet.setPos r q with nOrderPosNext := next }, offsets⟩ r q = (s', true)) :
    MovesTo s s' r q q ∧ s'.wallet.nOrderPosNext = next ∧ s'.nOrderPosOffsets = offsets := by
  unfold ReorderState.write at h
  split at h
  · cases h
    refine ⟨⟨?_, ?_, ?_, ?_⟩, rfl, rfl⟩
    all_goals
      unfold Wallet.setPos
      cases htx : r.isTx <;> simp +contextual [Wallet.position, htx]
  · cases h

theorem MovesTo.of_setPos {q disk next : Int}
    (hdisk : s.wallet.file.nOrderPos r = disk) (h : r.isTx = true ∨ disk = q) :
    MovesTo s ⟨{ s.wallet.setPos r q with nOrderPosNext := next }, offsets⟩ r q disk := by
  unfold Wallet.setPos
  cases htx : r.isTx with
  | true => constructor <;> simp +contextual [Wallet.position, htx, hdisk]
  | false =>
    have hq : disk = q := by simpa [htx] using h
    constructor <;> simp [Wallet.position, htx, hdisk, hq]

/-- As long as `nOrderPosNext` fits, an item is moved as in the numbering without a bound. -/
theorem visit_moves {s' : ReorderState} (hpos : -1 ≤ old x.ref)
    (hroom : (numbering old (a ++ [x])).nOrderPosNext < 2 ^ 63)
    (hold : s.wallet.position x.ref = old x.ref ∧ s.wallet.file.nOrderPos x.ref = old x.ref)
    (hn : s.wallet.nOrderPosNext = (numbering old a).nOrderPosNext ∧
      s.nOrderPosOffsets = (numbering old a).nOrderPosOffsets)
    (h : s.visit writeOk x = (s', true)) :
    MovesTo s s' x.ref (place old a x) (if Unwritten old x then -1 else place old a x) ∧
      s'.wallet.nOrderPosNext = (numbering old (a ++ [x])).nOrderPosNext ∧
      s'.nOrderPosOffsets = (numbering old (a ++ [x])).nOrderPosOffsets := by
  have hnext : 0 ≤ (numbering old a).nOrderPosNext := next_nonneg _
  unfold ReorderState.visit at h
  rw [numbering_snoc] at hroom ⊢
  by_cases hp : old x.ref = -1
  · simp only [Numbering.after, if_pos hp] at hroom
    simp only [hold.1, if_pos hp, hn.1, hn.2, int64_of_range (by omega) hroom] at h
    simp only [place, newPos, Numbering.after, if_pos hp]
    by_cases htx : x.ref.isTx = true
    · rw [if_pos htx] at h
      cases h
      rw [if_pos ⟨hp, htx⟩]
      exact ⟨.of_setPos (hold.2.trans hp) (.inl htx), rfl, rfl⟩
    · rw [if_neg htx] at h
      rw [if_neg (fun hun : Unwritten old x => htx hun.2)]
      exact MovesTo.of_write h
  · have hwritten : ¬Unwritten old x := fun hun => hp hun.1
    simp only [Numbering.after, if_neg hp, newPos_eq hp] at hroom
    set nOrderPosOff := (numbering old a).nOrderPosOffsets.countP (fun s => s ≤ old x.ref) with heq
    have hfits : old x.ref + nOrderPosOff + 1 < 2 ^ 63 := (le_max_right _ _).trans_lt hroom
    have hmoved : int64 (old x.ref + nOrderPosOff) = old x.ref + nOrderPosOff :=
      int64_of_range (by omega) (by omega)
    simp only [hold.1, if_neg hp, hn.1, hn.2, ← heq, hmoved, int64_of_range (by omega) hfits] at h
    simp only [if_neg hwritten, place, Numbering.after, if_neg hp, newPos_eq hp, ← heq]
    by_cases hoff : nOrderPosOff = 0
    · rw [if_pos hoff] at h
      cases h
      refine ⟨.of_setPos ?_ (.inr rfl), rfl, rfl⟩
      rw [hold.2, hoff]
      simp
    · rw [if_neg hoff] at h
      exact MovesTo.of_write h

theorem position_congr {w' : Wallet}
    (h : w.txPos r = w'.txPos r ∧ w.file.nOrderPos r = w'.file.nOrderPos r) :
    w.position r = w'.position r := by
  unfold Wallet.position
  rw [h.1, h.2]

theorem visitAll_run (a : List TxItem) (hnodup : (l.map TxItem.ref).Nodup)
    (hpos : ∀ x ∈ l, -1 ≤ old x.ref) (hroom : (numbering old (a ++ l)).nOrderPosNext < 2 ^ 63)
    (hold : ∀ x ∈ l, s.wallet.position x.ref = old x.ref ∧
      s.wallet.file.nOrderPos x.ref = old x.ref)
    (hn : s.wallet.nOrderPosNext = (numbering old a).nOrderPosNext ∧
      s.nOrderPosOffsets = (numbering old a).nOrderPosOffsets)
    (h : s.visitAll writeOk l = (w, .DB_LOAD_OK)) :
    w.nOrderPosNext = (numbering old (a ++ l)).nOrderPosNext ∧
      w.file.items = s.wallet.file.items ∧
      (∀ r ∉ l.map TxItem.ref, w.txPos r = s.wallet.txPos r ∧
        w.file.nOrderPos r = s.wallet.file.nOrderPos r) ∧
      ∀ b x c, l = b ++ x :: c → w.position x.ref = place old (a ++ b) x ∧
        w.file.nOrderPos x.ref = if Unwritten old x then -1 else place old (a ++ b) x := by
  induction l generalizing s a with
  | nil =>
    cases h
    refine ⟨by rw [append_nil, hn.1], rfl, fun _ _ => ⟨rfl, rfl⟩, ?_⟩
    intro b x c hnil
    simp at hnil
  | cons y rest ih =>
    obtain ⟨hy, hrest⟩ := nodup_cons.mp hnodup
    unfold ReorderState.visitAll at h
    split at h
    next s1 hvisit =>
      rw [append_cons] at hroom
      have hroom1 : (numbering old (a ++ [y])).nOrderPosNext < 2 ^ 63 := by
        rw [numbering, map_append, of_append] at hroom
        exact (foldl_after _ _).1.trans_lt hroom
      obtain ⟨hmoves, hn1⟩ :=
        visit_moves (hpos y mem_cons_self) hroom1 (hold y mem_cons_self) hn hvisit
      have hold1 : ∀ x ∈ rest, s1.wallet.position x.ref = old x.ref ∧
          s1.wallet.file.nOrderPos x.ref = old x.ref := by
        intro x hx
        have hne : x.ref ≠ y.ref := fun heq => hy (heq ▸ mem_map_of_mem hx)
        rw [position_congr (hmoves.others x.ref hne), (hmoves.others x.ref hne).2]
        exact hold x (mem_cons_of_mem _ hx)
      obtain ⟨hnext, hitems, hothers, hplaced⟩ := ih (a ++ [y]) hrest
        (fun x hx => hpos x (mem_cons_of_mem _ hx)) hroom hold1 hn1 h
      rw [append_assoc] at hnext
      refine ⟨hnext, hitems.trans hmoves.items, ?_, ?_⟩
      · intro r hr
        rw [map_cons, mem_cons, not_or] at hr
        obtain ⟨htx, hdisk⟩ := hothers r hr.2
        rw [htx, hdisk]
        exact hmoves.others r hr.1
      · intro b x c hsplit
        cases b with
        | nil =>
          obtain ⟨rfl, rfl⟩ := cons.inj hsplit
          rw [position_congr (hothers y.ref hy), (hothers y.ref hy).2, append_nil]
          exact ⟨hmoves.position, hmoves.disk⟩
        | cons z b =>
          obtain ⟨rfl, htail⟩ := cons.inj hsplit
          have hx := hplaced b x c htail
          rwa [append_assoc] at hx
    · cases h

/-! ## The items of a file -/

theorem insertByTime_perm (x : TxItem) (l : List TxItem) : (insertByTime x l).Perm (x :: l) := by
  induction l with
  | nil => exact Perm.refl _
  | cons y rest ih =>
    unfold insertByTime
    split
    · exact Perm.refl _
    · exact (ih.cons y).trans (Perm.swap x y rest)

theorem txByTime_perm (file : WalletFile) :
    file.txByTime.Perm
      (file.items.filter (fun x => x.ref.isTx) ++ file.listAccountCreditDebit "") := by
  have hfold : ∀ items l : List TxItem,
      (items.foldl (fun l x => insertByTime x l) l).Perm (items ++ l) := by
    intro items
    induction items with
    | nil => exact fun l => Perm.refl l
    | cons x rest ih =>
      intro l
      refine (ih _).trans (((insertByTime_perm x l).append_left rest).trans ?_)
      exact perm_middle
  have hperm := hfold (file.items.filter (fun x => x.ref.isTx) ++ file.listAccountCreditDebit "") []
  rwa [append_nil] at hperm

theorem mem_txByTime : x ∈ file.txByTime ↔
    x ∈ file.items ∧ ∀ account n, x.ref = .entry account n → account = "" := by
  rw [(txByTime_perm file).mem_iff, mem_append, WalletFile.listAccountCreditDebit,
    mem_filter, mem_filter]
  cases x.ref <;> simp [ItemRef.isTx]

theorem nodup_txByTime : (file.txByTime.map TxItem.ref).Nodup := by
  rw [((txByTime_perm file).map TxItem.ref).nodup_iff, map_append, nodup_append]
  have hfilter (p : TxItem → Bool) : ((file.items.filter p).map TxItem.ref).Nodup :=
    (filter_sublist.map _).nodup file.nodup
  refine ⟨hfilter _, hfilter _, ?_⟩
  intro r hr r' hr' heq
  obtain ⟨x, hx, rfl⟩ := mem_map.mp hr
  obtain ⟨y, hy, rfl⟩ := mem_map.mp hr'
  have htx := (mem_filter.mp hx).2
  have hentry := (mem_filter.mp hy).2
  rw [heq] at htx
  cases hy : y.ref <;> simp [hy, ItemRef.isTx] at htx hentry

theorem length_txByTime_le (file : WalletFile) : file.txByTime.length ≤ file.items.length :=
  (subperm_of_subset nodup_txByTime.of_map fun _ hx => (mem_txByTime.mp hx).1).length_le

theorem exists_run (hpos : ∀ x ∈ file.txByTime, -1 ≤ file.nOrderPos x.ref)
    (hroom : (numbering file.nOrderPos file.txByTime).nOrderPosNext < 2 ^ 63)
    (h : reorderTransactions writeOk file = (w, .DB_LOAD_OK)) :
    Run file.nOrderPos file.txByTime w ∧ w.file.items = file.items := by
  have hold : ∀ r, Wallet.position ⟨file, file.nOrderPos, 0⟩ r = file.nOrderPos r := by
    simp [Wallet.position]
  obtain ⟨hnext, hitems, hothers, hplaced⟩ :=
    visitAll_run [] nodup_txByTime hpos hroom (fun x _ => ⟨hold x.ref, rfl⟩) ⟨rfl, rfl⟩ h
  exact ⟨⟨hnext, hothers, hplaced⟩, hitems⟩

theorem reorderTransactions_ok (file : WalletFile) :
    (reorderTransactions (fun _ => true) file).2 = .DB_LOAD_OK := by
  have hall : ∀ (l : List TxItem) (s : ReorderState),
      (s.visitAll (fun _ => true) l).2 = .DB_LOAD_OK := by
    intro l
    induction l with
    | nil => exact fun _ => rfl
    | cons x rest ih =>
      intro s
      have hvisit : (s.visit (fun _ => true) x).2 = true := by
        unfold ReorderState.visit
        dsimp only
        split <;> split <;> rfl
      unfold ReorderState.visitAll
      split
      · exact ih _
      next hfalse =>
        rw [hfalse] at hvisit
        cases hvisit
  exact hall _ _

theorem exists_split_two (hx : x ∈ l) (hy : y ∈ l) (hne : x ≠ y) :
    (∃ a b c, l = a ++ x :: (b ++ y :: c)) ∨ (∃ a b c, l = a ++ y :: (b ++ x :: c)) := by
  obtain ⟨a, b, rfl⟩ := append_of_mem hx
  rcases mem_append.mp hy with hy | hy
  · obtain ⟨a, c, rfl⟩ := append_of_mem hy
    exact .inr ⟨a, c, b, by simp⟩
  rcases mem_cons.mp hy with rfl | hy
  · exact absurd rfl hne
  · obtain ⟨b, c, rfl⟩ := append_of_mem hy
    exact .inl ⟨a, b, c, rfl⟩

/-! ## Places -/

def AllClear (old : ItemRef → Int) (l : List TxItem) : Prop :=
  Numbering.AllClear (l.map fun x => old x.ref)

def Settled (old : ItemRef → Int) (l : List TxItem) : Prop :=
  ∀ a x b y c, l = a ++ x :: (b ++ y :: c) → Unwritten old x → Unwritten old y ∨
    (old y.ref ≠ -1 ∧ old y.ref ≤ highest (a.map fun x => old x.ref))

theorem place_middle : place old (a ++ x :: b) y =
    (of (a.map (fun x => old x.ref) ++ old x.ref :: b.map fun x => old x.ref)).newPos
      (old y.ref) := by
  simp [place, numbering]

theorem place_lt_fresh (hy : old y.ref = -1) : place old a x < place old (a ++ x :: b) y := by
  rw [place_middle, hy]
  exact newPos_lt_next _ _ _

theorem place_clear (hclear : AllClear old (a ++ x :: (b ++ y :: c))) (hx : old x.ref = -1)
    (hy : old y.ref ≠ -1) :
    (old y.ref ≤ highest (a.map fun x => old x.ref) →
        place old (a ++ x :: b) y < place old a x) ∧
      (highest (a.map fun x => old x.ref) < old y.ref →
        place old a x < place old (a ++ x :: b) y) := by
  unfold AllClear at hclear
  rw [map_append, map_cons, map_append, hx] at hclear
  rw [place_middle, place, hx]
  exact newPos_clear hclear hy

theorem place_order (hx : old x.ref ≠ -1) (hy : old y.ref ≠ -1) :
    (old x.ref < old y.ref → place old a x < place old (a ++ x :: b) y) ∧
      (old y.ref < old x.ref → place old (a ++ x :: b) y < place old a x) := by
  rw [place_middle]
  exact newPos_order _ _ hx hy

theorem place_ne (hne : old x.ref ≠ -1 → old x.ref ≠ old y.ref)
    (hclear : AllClear old (a ++ x :: (b ++ y :: c))) :
    place old a x ≠ place old (a ++ x :: b) y := by
  by_cases hy : old y.ref = -1
  · exact (place_lt_fresh hy).ne
  by_cases hx : old x.ref = -1
  · obtain ⟨hbefore, hbehind⟩ := place_clear hclear hx hy
    rcases le_or_gt (old y.ref) (highest (a.map fun x => old x.ref)) with hle | hgt
    · exact (hbefore hle).ne'
    · exact (hbehind hgt).ne
  · rcases lt_or_gt_of_ne (hne hx) with hlt | hgt
    · exact ((place_order hx hy).1 hlt).ne
    · exact ((place_order hx hy).2 hgt).ne'

theorem place_nonneg (hp : -1 ≤ old x.ref) : 0 ≤ place old a x := by
  have hn : 0 ≤ (numbering old a).nOrderPosNext := next_nonneg _
  unfold place newPos
  split <;> omega

theorem place_lt_next : place old a x < (numbering old (a ++ x :: b)).nOrderPosNext := by
  rw [numbering, map_append, map_cons]
  exact newPos_lt_next _ _ _

/-! ## The next start -/

section Again

variable {disk : ItemRef → Int}

def SameNext (old disk : ItemRef → Int) (a : List TxItem) : Prop :=
  (numbering disk a).nOrderPosNext = (numbering old a).nOrderPosNext

section

variable
    (hdisk : ∀ a x b, l = a ++ x :: b → disk x.ref = if Unwritten old x then -1 else place old a x)
    (hpos : ∀ x ∈ l, -1 ≤ old x.ref) (hclear : AllClear old l) (hsettled : Settled old l)
include hdisk hpos hclear hsettled

theorem place_again (hsplit : l = a ++ x :: b)
    (hsame : ∀ a' b', l = a' ++ b' → a'.length ≤ a.length → SameNext old disk a') :
    place disk a x = place old a x := by
  have hplace := hdisk a x b hsplit
  have hnonneg {a x b} (h : l = a ++ x :: b) : 0 ≤ place old a x :=
    place_nonneg (hpos x (by simp [h]))
  by_cases hx : Unwritten old x
  · rw [if_pos hx] at hplace
    rw [place, place, hplace, hx.1]
    exact hsame a _ hsplit le_rfl
  rw [if_neg hx] at hplace
  have hne : place old a x ≠ -1 := by
    have := hnonneg hsplit
    omega
  -- The places taken in the second run are those of unwritten transactions, all behind `x`.
  have hnone : (numbering disk a).nOrderPosOffsets.countP (fun s => s ≤ place old a x) = 0 := by
    apply Numbering.countP_eq_zero
    intro s hs
    obtain ⟨_, _, hl, rfl⟩ := exists_of_mem_offsets hs
    obtain ⟨a1, _, rfl, rfl, ha2⟩ := map_eq_append_iff.mp hl
    obtain ⟨z, b1, rfl, _, rfl⟩ := map_eq_cons_iff.mp ha2
    have hsplit1 : l = a1 ++ z :: (b1 ++ x :: b) := by
      rw [hsplit, append_assoc, cons_append]
    have hzun : Unwritten old z := by
      by_contra hnot
      have hz' := hdisk a1 z _ hsplit1
      rw [if_neg hnot] at hz'
      have := hnonneg hsplit1
      omega
    have hnext : (numbering disk a1).nOrderPosNext = place old a1 z := by
      rw [hsame a1 _ hsplit1 (by simp), place, hzun.1]
      rfl
    obtain ⟨hxpos, hxle⟩ := (hsettled a1 z b1 x b hsplit1 hzun).resolve_left hx
    exact hnext ▸ (place_clear (hsplit1 ▸ hclear) hzun.1 hxpos).1 hxle
  rw [place, hplace, newPos_eq hne, hnone]
  simp

theorem sameNext (a b : List TxItem) (hsplit : l = a ++ b) : SameNext old disk a := by
  induction hn : a.length using Nat.strong_induction_on generalizing a b with
  | _ n ih =>
    rcases a.eq_nil_or_concat' with rfl | ⟨a, x, rfl⟩
    · rfl
    have hsplit' : l = a ++ x :: b := by rw [hsplit, append_assoc, singleton_append]
    have hshorter : ∀ a' b', l = a' ++ b' → a'.length ≤ a.length → SameNext old disk a' := by
      intro a' b' hl hle
      exact ih a'.length (by simp at hn; omega) a' b' hl rfl
    have hagain := place_again hdisk hpos hclear hsettled hsplit' hshorter
    have hnext := hshorter a _ hsplit' le_rfl
    have hplace := hdisk a x b hsplit'
    have hnonneg : 0 ≤ place old a x := place_nonneg (hpos x (by simp [hsplit']))
    unfold SameNext at hnext ⊢
    unfold place at hagain hplace hnonneg
    rw [numbering_snoc, numbering_snoc]
    unfold Numbering.after
    by_cases hx : old x.ref = -1
    · have hnew : (numbering old a).newPos (old x.ref) = (numbering old a).nOrderPosNext :=
        if_pos hx
      split
      · simp [hnext]
      · simp [hagain, hnext, hnew]
    · rw [if_neg (fun hun => hx hun.1)] at hplace
      rw [if_neg (by omega), if_neg hx]
      simp [hagain, hnext]

end

end Again

/-! ## When a reordering does its work -/

structure WalletFile.Harmless (file : WalletFile) : Prop where
  seen : ∀ x ∈ file.items, ∀ account n, x.ref = .entry account n → account = ""
  clear : AllClear file.nOrderPos file.txByTime
  settled : Settled file.nOrderPos file.txByTime

theorem WalletFile.Harmless.mem_txByTime (h : file.Harmless) (hx : x ∈ file.items) :
    x ∈ file.txByTime :=
  TxOrder.mem_txByTime.mpr ⟨hx, h.seen x hx⟩

theorem txByTime_congr {file' : WalletFile} (h : file'.items = file.items) :
    file'.txByTime = file.txByTime := by
  unfold WalletFile.txByTime WalletFile.listAccountCreditDebit
  rw [h]

theorem WalletFile.Positioned.atLeast_txByTime (h : file.Positioned) (hx : x ∈ file.txByTime) :
    -1 ≤ file.nOrderPos x.ref :=
  h.atLeast x (mem_txByTime.mp hx).1

theorem WalletFile.HasRoom.next_le (h : file.HasRoom) (hpos : file.Positioned) :
    (numbering file.nOrderPos file.txByTime).nOrderPosNext + file.txByTime.length < 2 ^ 63 := by
  rcases file.txByTime.eq_nil_or_concat' with hnil | ⟨l, x, hl⟩
  · simp [hnil, numbering, of]
  have hlength := length_txByTime_le file
  have hx : x ∈ file.items := (mem_txByTime.mp (by simp [hl])).1
  have hfirst := h x hx
  have hatLeast := hpos.atLeast x hx
  have hnext : (numbering file.nOrderPos file.txByTime).nOrderPosNext ≤
      (2 ^ 63 - 2 * file.items.length - 2) + file.txByTime.length + 1 := by
    apply numbering_next_le (by omega)
    intro y hy
    have hy := h y (mem_txByTime.mp hy).1
    omega
  omega

/-- The next start makes a run of its own, on what the first one left on the disk. -/
theorem Run.exists_again {w' : Wallet} (h : Run file.nOrderPos file.txByTime w)
    (hitems : w.file.items = file.items) (hpos : file.Positioned) (hroom : file.HasRoom)
    (hok : reorderTransactions writeOk w.file = (w', .DB_LOAD_OK)) :
    Run w.file.nOrderPos file.txByTime w' := by
  have hfirst := hroom.next_le hpos
  have hnonneg : 0 ≤ (numbering file.nOrderPos file.txByTime).nOrderPosNext :=
    next_nonneg _
  have hdisk : ∀ x ∈ file.txByTime, -1 ≤ w.file.nOrderPos x.ref ∧
      w.file.nOrderPos x.ref ≤ (numbering file.nOrderPos file.txByTime).nOrderPosNext - 1 := by
    intro x hx
    obtain ⟨a, b, hsplit⟩ := append_of_mem hx
    have hplace : 0 ≤ place file.nOrderPos a x := place_nonneg (hpos.atLeast_txByTime hx)
    have hlt : place file.nOrderPos a x < (numbering file.nOrderPos file.txByTime).nOrderPosNext :=
      hsplit ▸ place_lt_next
    rw [(h.placed a x b hsplit).2]
    split <;> omega
  have hnext := numbering_next_le (by omega) fun x hx => (hdisk x hx).2
  have hagain : (numbering w.file.nOrderPos file.txByTime).nOrderPosNext < 2 ^ 63 := by omega
  rw [← txByTime_congr hitems] at hdisk hagain ⊢
  exact (exists_run (fun x hx => (hdisk x hx).1) hagain hok).1

theorem Run.two_placed (h : Run old l w) (hsplit : l = a ++ x :: (b ++ y :: c)) :
    w.position x.ref = place old a x ∧ w.position y.ref = place old (a ++ x :: b) y :=
  ⟨(h.placed a x _ hsplit).1, (h.placed (a ++ x :: b) y c (by simp [hsplit])).1⟩

theorem Run.keepsOrder (h : Run old l w) (hx : x ∈ l) (hy : y ∈ l) (hxpos : old x.ref ≠ -1)
    (hypos : old y.ref ≠ -1) (hlt : old x.ref < old y.ref) :
    w.position x.ref < w.position y.ref := by
  have hne : x ≠ y := fun heq => hlt.ne (by rw [heq])
  rcases exists_split_two hx hy hne with ⟨a, b, c, hsplit⟩ | ⟨a, b, c, hsplit⟩
  · obtain ⟨hplace, hplace'⟩ := h.two_placed hsplit
    rw [hplace, hplace']
    exact (place_order hxpos hypos).1 hlt
  · obtain ⟨hplace, hplace'⟩ := h.two_placed hsplit
    rw [hplace, hplace']
    exact (place_order hypos hxpos).2 hlt

theorem Run.distinct (h : Run old l w) (hclear : AllClear old l)
    (hold : ∀ x ∈ l, ∀ y ∈ l, old x.ref ≠ -1 → old x.ref = old y.ref → x = y) (hx : x ∈ l)
    (hy : y ∈ l) (heq : w.position x.ref = w.position y.ref) : x = y := by
  by_contra hne
  rcases exists_split_two hx hy hne with ⟨a, b, c, hsplit⟩ | ⟨a, b, c, hsplit⟩
  · obtain ⟨hplace, hplace'⟩ := h.two_placed hsplit
    rw [hplace, hplace'] at heq
    exact place_ne (fun hp hpos => hne (hold x hx y hy hp hpos)) (hsplit ▸ hclear) heq
  · obtain ⟨hplace, hplace'⟩ := h.two_placed hsplit
    rw [hplace, hplace'] at heq
    exact place_ne (fun hp hpos => hne (hold y hy x hx hp hpos).symm) (hsplit ▸ hclear) heq.symm

theorem Run.reload {w' : Wallet} (h : Run file.nOrderPos file.txByTime w)
    (hitems : w.file.items = file.items) (hpos : file.Positioned) (hroom : file.HasRoom)
    (hfile : file.Harmless) (hload : loadWallet writeOk w.file = (w', .DB_LOAD_OK))
    (hx : x ∈ file.items) : w'.position x.ref = w.position x.ref := by
  obtain ⟨a, b, hsplit⟩ := append_of_mem (hfile.mem_txByTime hx)
  obtain ⟨hplace, hdisk⟩ := h.placed a x b hsplit
  have hatLeast : ∀ x ∈ file.txByTime, -1 ≤ file.nOrderPos x.ref :=
    fun _ => hpos.atLeast_txByTime
  have hdisks a x b hsplit := (h.placed a x b hsplit).2
  unfold loadWallet at hload
  split at hload
  · have h' := h.exists_again hitems hpos hroom hload
    have hsame a' b' (hl : file.txByTime = a' ++ b') (_ : a'.length ≤ a.length) :=
      sameNext hdisks hatLeast hfile.clear hfile.settled a' b' hl
    rw [(h'.placed a x b hsplit).1, hplace,
      place_again hdisks hatLeast hfile.clear hfile.settled hsplit hsame]
  next hordered =>
    cases hload
    rw [hitems] at hordered
    have hwritten : ¬Unwritten file.nOrderPos x := by
      intro hun
      rw [if_pos hun] at hdisk
      exact hordered (any_eq_true.mpr ⟨x, hx, by simpa using hdisk⟩)
    rw [if_neg hwritten] at hdisk
    rw [hplace, ← hdisk]
    simp [Wallet.position]

section

variable (h : Run file.nOrderPos file.txByTime w)
include h

theorem Run.reordered (hitems : w.file.items = file.items)
    (hpos : file.Positioned) (hroom : file.HasRoom) (hfile : file.Harmless) :
    Reordered file w where
  distinct := by
    intro x hx y hy heq
    apply h.distinct hfile.clear _ (hfile.mem_txByTime hx) (hfile.mem_txByTime hy) heq
    intro x hx y hy
    exact hpos.distinct x (mem_txByTime.mp hx).1 y (mem_txByTime.mp hy).1
  inRange := by
    intro x hx
    obtain ⟨a, b, hsplit⟩ := append_of_mem (hfile.mem_txByTime hx)
    rw [(h.placed a x b hsplit).1, h.next, hsplit]
    exact ⟨place_nonneg (hpos.atLeast x hx), place_lt_next⟩
  keepsOrder := by
    intro x hx y hy hp hlt
    have hatLeast := hpos.atLeast x hx
    exact h.keepsOrder (hfile.mem_txByTime hx) (hfile.mem_txByTime hy) hp (by omega) hlt
  reload := fun _ _ hload _ hx => h.reload hitems hpos hroom hfile hload hx

theorem Run.seen (hre : Reordered file w)
    (hx : x ∈ file.items) (hnot : x ∉ file.txByTime) : file.nOrderPos x.ref ≠ -1 := by
  intro hfresh
  have hunseen : x.ref ∉ file.txByTime.map TxItem.ref := by
    intro hin
    obtain ⟨y, hy, heq⟩ := mem_map.mp hin
    have hsame : y = x := inj_on_of_nodup_map file.nodup (mem_txByTime.mp hy).1 hx heq
    exact hnot (hsame ▸ hy)
  have hposition : w.position x.ref = -1 := by
    simp [Wallet.position, h.others x.ref hunseen, hfresh]
  have hrange := (hre.inRange x hx).1
  omega

theorem Run.settled (hitems : w.file.items = file.items)
    (hpos : file.Positioned) (hroom : file.HasRoom)
    (hclear : AllClear file.nOrderPos file.txByTime) (hre : Reordered file w) :
    Settled file.nOrderPos file.txByTime := by
  intro a x b y c hsplit hx
  by_cases hy : Unwritten file.nOrderPos y
  · exact .inl hy
  refine .inr ?_
  have hxin : x ∈ file.items := (mem_txByTime.mp (by simp [hsplit])).1
  have hyin : y ∈ file.items := (mem_txByTime.mp (by simp [hsplit])).1
  have hsplit' : file.txByTime = (a ++ x :: b) ++ y :: c := by simp [hsplit]
  obtain ⟨hxplace, hxdisk⟩ := h.placed a x _ hsplit
  obtain ⟨_, hydisk⟩ := h.placed (a ++ x :: b) y c hsplit'
  rw [if_pos hx] at hxdisk
  rw [if_neg hy] at hydisk
  -- The second run, with no write that fails.
  have hok := reorderTransactions_ok w.file
  have hload : loadWallet (fun _ => true) w.file =
      ((reorderTransactions (fun _ => true) w.file).1, .DB_LOAD_OK) := by
    unfold loadWallet
    rw [if_pos (any_eq_true.mpr ⟨x, hitems ▸ hxin, by simpa using hxdisk⟩), ← hok]
  have h' := h.exists_again hitems hpos hroom (Prod.ext rfl hok)
  have hxsame := hre.reload _ _ hload x hxin
  have hysame := hre.reload _ _ hload y hyin
  rw [(h'.placed a x _ hsplit).1, hxplace] at hxsame
  rw [(h'.placed (a ++ x :: b) y c hsplit').1] at hysame
  have hbefore : place file.nOrderPos (a ++ x :: b) y < place file.nOrderPos a x := by
    have hnonneg : 0 ≤ place file.nOrderPos (a ++ x :: b) y :=
      place_nonneg (hpos.atLeast y hyin)
    rw [← hxsame, ← hydisk]
    rw [place, newPos_eq (by omega)] at hysame
    obtain ⟨_, hlater, -⟩ := offsets_later
      (a.map fun x => w.file.nOrderPos x.ref) (b.map fun x => w.file.nOrderPos x.ref) (-1)
    have hin : place w.file.nOrderPos a x ∈
        (numbering w.file.nOrderPos (a ++ x :: b)).nOrderPosOffsets := by
      rw [numbering, map_append, map_cons, hxdisk, hlater]
      simp [Numbering.after, newPos, place, numbering, hxdisk]
    have hnone : (numbering w.file.nOrderPos (a ++ x :: b)).nOrderPosOffsets.countP
        (fun s => s ≤ w.file.nOrderPos y.ref) = 0 := by
      omega
    simpa using countP_eq_zero.mp hnone _ hin
  have hypos : file.nOrderPos y.ref ≠ -1 := fun hy => hbefore.asymm (place_lt_fresh hy)
  refine ⟨hypos, ?_⟩
  by_contra hbehind
  exact hbefore.asymm ((place_clear (hsplit ▸ hclear) hx.1 hypos).2 (not_le.mp hbehind))

end

end Runs

/-- A reordering that returns `DB_LOAD_OK` does what it should on a harmless file whose numbers have
room. It does so only if every item that is not seen has a position; and where the items are clear,
only if they are settled. -/
theorem reorderTransactions_reordered (writeOk : ItemRef → Bool) (file : WalletFile)
    (hpos : file.Positioned) (hroom : file.HasRoom) (w : Wallet)
    (hok : reorderTransactions writeOk file = (w, .DB_LOAD_OK)) :
    (file.Harmless → Reordered file w) ∧
      (Reordered file w →
        (∀ x ∈ file.items, x ∉ file.txByTime → file.nOrderPos x.ref ≠ -1) ∧
        (AllClear file.nOrderPos file.txByTime → Settled file.nOrderPos file.txByTime)) := by
  have hnext := hroom.next_le hpos
  obtain ⟨hrun, hitems⟩ := exists_run (fun _ => hpos.atLeast_txByTime) (by omega) hok
  refine ⟨hrun.reordered hitems hpos hroom, fun hre => ⟨?_, ?_⟩⟩
  · intro x hx hnot
    exact hrun.seen hre hx hnot
  · intro hclear
    exact hrun.settled hitems hpos hroom hclear hre

/-! ## Small wallets -/

def fileOf (items : List (TxItem × Int)) (h : ((items.map Prod.fst).map TxItem.ref).Nodup) :
    WalletFile :=
  ⟨items.map Prod.fst, h, fun r => ((items.find? fun e => e.1.ref = r).map Prod.snd).getD 0, 0⟩

def mixedFile : WalletFile :=
  fileOf [(⟨.tx 5, 4⟩, -1), (⟨.tx 7, 3⟩, 1), (⟨.entry "" 1, 1⟩, 0), (⟨.entry "" 2, 2⟩, -1)]
    (by decide +kernel)

theorem mixedFile_positioned : mixedFile.Positioned :=
  ⟨by decide +kernel, by decide +kernel⟩

theorem mixedFile_harmless : mixedFile.Harmless where
  seen := by
    have hall : ∀ x ∈ mixedFile.items, x.ref.isTx = true ∨ ∃ n < 3, x.ref = .entry "" n := by
      decide +kernel
    intro x hx account n hentry
    rcases hall x hx with htx | ⟨m, -, hm⟩
    · rw [hentry] at htx
      cases htx
    · rw [hentry] at hm
      exact (ItemRef.entry.inj hm).1
  clear := by
    have hitems : mixedFile.txByTime.map (fun x => mixedFile.nOrderPos x.ref) = [0, -1, 1, -1] := by
      decide +kernel
    unfold AllClear
    rw [hitems]
    intro a b p c hsplit hp
    rcases a with _ | ⟨_, _ | ⟨_, _ | ⟨_, _ | ⟨_, a⟩⟩⟩⟩
    all_goals simp at hsplit
    -- The new entry: the transaction behind it has the position 1.
    obtain ⟨rfl, hrest⟩ := hsplit
    rcases b with _ | ⟨_, _ | ⟨_, b⟩⟩
    · obtain ⟨rfl, -⟩ := cons.inj hrest
      exact .inr (by decide)
    · simp at hrest
      exact absurd hrest.2.1.symm hp
    · simp at hrest
  settled := by
    have hitems : mixedFile.txByTime =
        [⟨.entry "" 1, 1⟩, ⟨.entry "" 2, 2⟩, ⟨.tx 7, 3⟩, ⟨.tx 5, 4⟩] := by
      decide +kernel
    rw [hitems]
    intro a x b y c hsplit hx
    -- Only the last item is an unwritten transaction.
    have hlast : ∀ z ∈ [(⟨.entry "" 1, 1⟩ : TxItem), ⟨.entry "" 2, 2⟩, ⟨.tx 7, 3⟩],
        ¬Unwritten mixedFile.nOrderPos z := by
      decide +kernel
    refine absurd hx (hlast x ?_)
    rcases a with _ | ⟨_, _ | ⟨_, _ | ⟨_, _ | ⟨_, a⟩⟩⟩⟩
    all_goals simp at hsplit
    all_goals simp [hsplit]

theorem reorderTransactions_reordered_mixed :
    (reorderTransactions (fun _ => true) mixedFile).2 = .DB_LOAD_OK ∧
      Reordered mixedFile (reorderTransactions (fun _ => true) mixedFile).1 := by
  have hok := reorderTransactions_ok mixedFile
  have hroom : mixedFile.HasRoom := by
    unfold WalletFile.HasRoom
    decide +kernel
  exact ⟨hok, (reorderTransactions_reordered _ mixedFile mixedFile_positioned hroom _
    (Prod.ext rfl hok)).1 mixedFile_harmless⟩

def crossedFile : WalletFile :=
  fileOf [(⟨.entry "" 1, 1⟩, -1), (⟨.entry "" 2, 2⟩, 0), (⟨.entry "" 3, 3⟩, -1),
    (⟨.entry "" 4, 4⟩, 1)] (by decide +kernel)

def unwrittenFile : WalletFile :=
  fileOf [(⟨.tx 7, 1⟩, -1), (⟨.tx 8, 2⟩, 0)] (by decide +kernel)

def namedFile : WalletFile := fileOf [(⟨.entry "savings" 1, 1⟩, -1)] (by decide +kernel)

/-- Two entries end at one position; a transaction has another one after the next start; an entry
stays without. -/
theorem reorderTransactions_disorders :
    let run := reorderTransactions fun _ => true
    let load := loadWallet fun _ => true
    (crossedFile.Positioned ∧ (run crossedFile).2 = .DB_LOAD_OK ∧
      (run crossedFile).1.position (.entry "" 3) = 2 ∧
      (run crossedFile).1.position (.entry "" 4) = 2) ∧
    (unwrittenFile.Positioned ∧ (run unwrittenFile).2 = .DB_LOAD_OK ∧
      (run unwrittenFile).1.position (.tx 8) = 1 ∧
      (load (run unwrittenFile).1.file).2 = .DB_LOAD_OK ∧
      (load (run unwrittenFile).1.file).1.position (.tx 8) = 2) ∧
    (namedFile.Positioned ∧ (run namedFile).2 = .DB_LOAD_OK ∧
      (run namedFile).1.position (.entry "savings" 1) = -1) := by
  refine ⟨⟨⟨?_, ?_⟩, ?_⟩, ⟨⟨?_, ?_⟩, ?_⟩, ⟨⟨?_, ?_⟩, ?_⟩⟩
  all_goals decide +kernel

end HoboNickels.TxOrder

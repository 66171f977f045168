import HoboNickels.KeyStores

/-!
# The key pool

`setKeyPool` has the indexes of the keys that can be handed out; the keys stand in pool records on
disk. A `CReserveKey` takes an index out of the set and later keeps the key, which erases the
record, or returns the index.

`TopUpKeyPool` goes on from the largest index of the set, `NewKeyPool` from 1, and both may write
over the record of an index that is held. Then a key is handed out twice, or an index comes back
whose record is gone. New keys come from a source that never repeats one.
-/

namespace HoboNickels.KeyPool

open Function Finset List

open KeyStores (CPubKey)

structure CKeyPool where
  nTime : Int
  vchPubKey : CPubKey
  deriving DecidableEq

/-- `CReserveKey`: the index is `-1` when nothing is reserved; the key may be unset. -/
structure CReserveKey where
  nIndex : Int
  vchPubKey : Option CPubKey
  deriving DecidableEq

structure KeySource where
  newKey : List CPubKey → CPubKey
  fresh : ∀ keys, newKey keys ∉ keys

/-- `keyOk` is false for a key that `AddKey` cannot write to the wallet file. -/
structure PoolCalls where
  now : Int
  keyOk : CPubKey → Bool
  readOk : Int → Bool
  writeOk : Int → Bool
  eraseOk : Int → Bool

/-- The wallet with its `CReserveKey` objects. `pool` are the pool records on disk, `keys` what
`HaveKey` knows; `vchDefaultKey` is unset when it is not valid. -/
structure Wallet where
  setKeyPool : Finset Int
  pool : Int → Option CKeyPool
  keys : List CPubKey
  vchDefaultKey : Option CPubKey
  fLocked : Bool
  reserveKeys : Nat → CReserveKey

/-- What `ReserveKeyFromKeyPool` leaves in its arguments, and the exception if it throws one. -/
structure Reserved where
  nIndex : Int
  keypool : Option CKeyPool
  thrown : Option String

namespace Wallet

variable (src : KeySource) (nKeypool : Nat)

def generateNewKey (w : Wallet) : CPubKey × Wallet :=
  (src.newKey w.keys, { w with keys := src.newKey w.keys :: w.keys })

variable (w : Wallet) (io : PoolCalls)

def writePool (nPool : Int) (keypool : CKeyPool) : Wallet :=
  if io.writeOk nPool then { w with pool := update w.pool nPool (some keypool) } else w

def erasePool (nPool : Int) : Wallet :=
  if io.eraseOk nPool then { w with pool := update w.pool nPool none } else w

def nEnd (w : Wallet) : Int := w.setKeyPool.max.unbotD 0 + 1

/-- How many keys `TopUpKeyPool` adds; the sizes are 32-bit. -/
def missing (w : Wallet) (nSize : Nat) : Nat :=
  let nTargetSize := if nSize > 0 then nSize else nKeypool
  (nTargetSize + 1) % 2 ^ 32 - w.setKeyPool.card

def topUpLoop (io : PoolCalls) : Nat → Wallet → Wallet × Option String
  | 0, w => (w, none)
  | rounds + 1, w =>
    let nEnd := w.nEnd
    let (key, w) := w.generateNewKey src
    if !io.keyOk key then (w, some "CWallet::GenerateNewKey() : AddKey failed")
    else if io.writeOk nEnd then
      let w := w.writePool io nEnd ⟨io.now, key⟩
      topUpLoop io rounds { w with setKeyPool := insert nEnd w.setKeyPool }
    else (w, some "TopUpKeyPool() : writing generated key failed")

def topUpKeyPool (nSize : Nat) : Wallet × Option String :=
  if w.fLocked then (w, none) else topUpLoop src io (w.missing nKeypool nSize) w

/-- The loop of `NewKeyPool`, for `nKeys` keys from the index `nIndex` on. The result of
`WritePool` is not looked at; an exception of `GenerateNewKey` ends it. -/
def newKeys (io : PoolCalls) : Nat → Int → Wallet → Wallet
  | 0, _, w => w
  | nKeys + 1, nIndex, w =>
    let (key, w) := w.generateNewKey src
    if io.keyOk key then
      let w := w.writePool io nIndex ⟨io.now, key⟩
      newKeys io nKeys (nIndex + 1) { w with setKeyPool := insert nIndex w.setKeyPool }
    else w

def erased : Wallet :=
  { w with
    pool := fun n => if n ∈ w.setKeyPool ∧ io.eraseOk n = true then none else w.pool n
    setKeyPool := ∅ }

def newKeyPool : Wallet :=
  if w.fLocked then w.erased io else newKeys src io nKeypool 1 (w.erased io)

def reserveKeyFromKeyPool : Wallet × Reserved :=
  match w.topUpKeyPool src nKeypool io 0 with
  | (w, some message) => (w, ⟨-1, none, some message⟩)
  | (w, none) =>
    if h : w.setKeyPool.Nonempty then
      let nIndex := w.setKeyPool.min' h
      let w' := { w with setKeyPool := w.setKeyPool.erase nIndex }
      match (if io.readOk nIndex then w.pool nIndex else none) with
      | none => (w', ⟨nIndex, none, some "ReserveKeyFromKeyPool() : read failed"⟩)
      | some keypool =>
        if keypool.vchPubKey ∈ w.keys then (w', ⟨nIndex, some keypool, none⟩)
        else (w', ⟨nIndex, none, some "ReserveKeyFromKeyPool() : unknown key in key pool"⟩)
    else (w, ⟨-1, none, none⟩)

def keepKey (nIndex : Int) : Wallet := w.erasePool io nIndex

def returnKey (w : Wallet) (nIndex : Int) : Wallet :=
  { w with setKeyPool := insert nIndex w.setKeyPool }

def setReserveKey (w : Wallet) (r : Nat) (rk : CReserveKey) : Wallet :=
  { w with reserveKeys := update w.reserveKeys r rk }

end Wallet

/-! ## The calls -/

/-- A key of the pool, the key that object `r` holds already, the default key, a generated key, or
nothing. -/
inductive Returned where
  | poolKey (key : CPubKey)
  | heldKey (r : Nat) (key : CPubKey)
  | defaultKey (key : CPubKey)
  | newKey (key : CPubKey)
  | nothing
  deriving DecidableEq

namespace Wallet

variable (src : KeySource) (nKeypool : Nat)

variable (w : Wallet) (io : PoolCalls)

/-- `CReserveKey::GetReservedKey`. An exception leaves the index in the object. -/
def getReservedKey (r : Nat) : Wallet × Returned :=
  let rk := w.reserveKeys r
  if rk.nIndex = -1 then
    match w.reserveKeyFromKeyPool src nKeypool io with
    | (w, ⟨nIndex, _, some _⟩) => (w.setReserveKey r ⟨nIndex, rk.vchPubKey⟩, .nothing)
    | (w, ⟨nIndex, some keypool, none⟩) =>
      (w.setReserveKey r ⟨nIndex, some keypool.vchPubKey⟩, .poolKey keypool.vchPubKey)
    | (w, ⟨_, none, none⟩) =>
      match w.vchDefaultKey with
      | some key => (w.setReserveKey r ⟨-1, some key⟩, .defaultKey key)
      | none => (w, .nothing)
  else
    match rk.vchPubKey with
    | some key => (w, .heldKey r key)
    | none => (w, .nothing)

def keepReserved (r : Nat) : Wallet :=
  let rk := w.reserveKeys r
  let w := if rk.nIndex ≠ -1 then w.keepKey io rk.nIndex else w
  w.setReserveKey r ⟨-1, none⟩

/-- `CReserveKey::ReturnKey`, also called by the destructor. -/
def returnReserved (w : Wallet) (r : Nat) : Wallet :=
  let rk := w.reserveKeys r
  let w := if rk.nIndex ≠ -1 then w.returnKey rk.nIndex else w
  w.setReserveKey r ⟨-1, none⟩

def getKeyFromPool (fAllowReuse : Bool) : Wallet × Returned :=
  match w.reserveKeyFromKeyPool src nKeypool io with
  | (w, ⟨_, _, some _⟩) => (w, .nothing)
  | (w, ⟨nIndex, some keypool, none⟩) => (w.keepKey io nIndex, .poolKey keypool.vchPubKey)
  | (w, ⟨_, none, none⟩) =>
    match (if fAllowReuse then w.vchDefaultKey else none) with
    | some key => (w, .defaultKey key)
    | none =>
      if w.fLocked then (w, .nothing)
      else
        let (key, w) := w.generateNewKey src
        (w, if io.keyOk key then .newKey key else .nothing)

def getOldestKeyPoolTime : Wallet × Option Int :=
  match w.reserveKeyFromKeyPool src nKeypool io with
  | (w, ⟨_, _, some _⟩) => (w, none)
  | (w, ⟨nIndex, some keypool, none⟩) => (w.returnKey nIndex, some keypool.nTime)
  | (w, ⟨_, none, none⟩) => (w, some io.now)

end Wallet

inductive Call where
  | topUpKeyPool (nSize : Nat)
  | newKeyPool
  | getReservedKey (r : Nat)
  | keepKey (r : Nat)
  | returnKey (r : Nat)
  | getKeyFromPool (fAllowReuse : Bool)
  | getOldestKeyPoolTime
  | setLocked (fLocked : Bool)

def Call.run (src : KeySource) (nKeypool : Nat) (w : Wallet) (io : PoolCalls) :
    Call → Wallet × Returned
  | .topUpKeyPool nSize => ((w.topUpKeyPool src nKeypool io nSize).1, .nothing)
  | .newKeyPool => (w.newKeyPool src nKeypool io, .nothing)
  | .getReservedKey r => w.getReservedKey src nKeypool io r
  | .keepKey r => (w.keepReserved io r, .nothing)
  | .returnKey r => (w.returnReserved r, .nothing)
  | .getKeyFromPool fAllowReuse => w.getKeyFromPool src nKeypool io fAllowReuse
  | .getOldestKeyPoolTime => ((w.getOldestKeyPoolTime src nKeypool io).1, .nothing)
  | .setLocked fLocked => ({ w with fLocked := fLocked }, .nothing)

def Wallet.HasReserved (w : Wallet) (r : Nat) (key : CPubKey) : Prop :=
  (w.reserveKeys r).nIndex ≠ -1 ∧ (w.reserveKeys r).vchPubKey = some key ∧
    w.vchDefaultKey ≠ some key

instance (w : Wallet) (r : Nat) (key : CPubKey) : Decidable (w.HasReserved r key) :=
  inferInstanceAs (Decidable (_ ∧ _ ∧ _))

def Call.keeps (src : KeySource) (nKeypool : Nat) (w : Wallet) (io : PoolCalls) :
    Call → List CPubKey
  | .keepKey r =>
    match (w.reserveKeys r).vchPubKey with
    | some key => if w.HasReserved r key then [key] else []
    | none => []
  | .getKeyFromPool fAllowReuse =>
    match (w.getKeyFromPool src nKeypool io fAllowReuse).2 with
    | .poolKey key => [key]
    | _ => []
  | _ => []

/-! ## What holds of a pool that is sound -/

namespace Wallet

variable {src : KeySource} {nKeypool : Nat} {io : PoolCalls} {w : Wallet} {kept : List CPubKey}

@[simp]
theorem erasePool_frame (n : Int) : (w.erasePool io n).setKeyPool = w.setKeyPool ∧
    (w.erasePool io n).keys = w.keys ∧ (w.erasePool io n).vchDefaultKey = w.vchDefaultKey ∧
    (w.erasePool io n).reserveKeys = w.reserveKeys := by
  rw [erasePool]
  split <;> exact ⟨rfl, rfl, rfl, rfl⟩

variable {n : Int} {w' : Wallet} {key : CPubKey} {r : Nat}

theorem erasePool_pool {i : Int} (hne : i ≠ n) : (w.erasePool io n).pool i = w.pool i := by
  rw [erasePool]
  split
  · exact update_of_ne hne _ _
  · rfl

def Holds (w : Wallet) (r : Nat) (nIndex : Int) : Prop :=
  (w.reserveKeys r).nIndex = nIndex ∧ nIndex ≠ -1

def Active (w : Wallet) (nIndex : Int) : Prop :=
  nIndex ∈ w.setKeyPool ∨ ∃ r, w.Holds r nIndex

/-- Every index that is in the pool or held has a record of its own, with a key of the wallet that
was not kept. -/
structure Sound (w : Wallet) (kept : List CPubKey) : Prop where
  positive : ∀ n, w.Active n → 0 < n
  records : ∀ n, w.Active n → ∃ keypool, w.pool n = some keypool ∧
    keypool.vchPubKey ∈ w.keys ∧ keypool.vchPubKey ∉ kept
  distinct : ∀ n n' k k', w.Active n → w.Active n' → w.pool n = some k → w.pool n' = some k' →
    k.vchPubKey = k'.vchPubKey → n = n'
  notPooled : ∀ r n, w.Holds r n → n ∉ w.setKeyPool
  holder : ∀ r r' n, w.Holds r n → w.Holds r' n → r = r'
  heldKey : ∀ r n k key, w.Holds r n → w.pool n = some k →
    (w.reserveKeys r).vchPubKey = some key → key = k.vchPubKey ∨ w.vchDefaultKey = some key
  idleKey : ∀ r key, (w.reserveKeys r).nIndex = -1 → (w.reserveKeys r).vchPubKey = some key →
    w.vchDefaultKey = some key
  keptKnown : ∀ key ∈ kept, key ∈ w.keys

def addRecord (w : Wallet) (n : Int) (keypool : CKeyPool) : Wallet :=
  { w with
    keys := keypool.vchPubKey :: w.keys
    pool := update w.pool n (some keypool)
    setKeyPool := insert n w.setKeyPool }

variable {k : CKeyPool}

namespace Sound

variable {vchPubKey : Option CPubKey}

section

variable (h : w.Sound kept)
include h

theorem shrink (hset : ∀ n ∈ w'.setKeyPool, n ∈ w.setKeyPool)
    (hheld : ∀ r, w'.reserveKeys r = w.reserveKeys r ∨
      ((w'.reserveKeys r).nIndex = -1 ∧
        ∀ key, (w'.reserveKeys r).vchPubKey = some key → w.vchDefaultKey = some key))
    (hpool : ∀ n, w'.Active n → w'.pool n = w.pool n) (hkeys : ∀ key ∈ w.keys, key ∈ w'.keys)
    (hdefault : w'.vchDefaultKey = w.vchDefaultKey) : w'.Sound kept := by
  have hsame : ∀ r n, w'.Holds r n → w'.reserveKeys r = w.reserveKeys r := by
    intro r n hr
    rcases hheld r with heq | ⟨hidle, -⟩
    · exact heq
    · exact absurd (hr.1.symm.trans hidle) hr.2
  have hholds : ∀ r n, w'.Holds r n → w.Holds r n := by
    intro r n hr
    have heq := hsame r n hr
    exact ⟨heq ▸ hr.1, hr.2⟩
  have hactive : ∀ n, w'.Active n → w.Active n := by
    rintro n (hin | ⟨r, hr⟩)
    · exact .inl (hset n hin)
    · exact .inr ⟨r, hholds r n hr⟩
  constructor
  · exact fun n hn => h.positive n (hactive n hn)
  · intro n hn
    obtain ⟨k, hk, hin, hnot⟩ := h.records n (hactive n hn)
    exact ⟨k, (hpool n hn).trans hk, hkeys _ hin, hnot⟩
  · intro n n' k k' hn hn' hk hk'
    rw [hpool n hn] at hk
    rw [hpool n' hn'] at hk'
    exact h.distinct n n' k k' (hactive n hn) (hactive n' hn') hk hk'
  · exact fun r n hr hin => h.notPooled r n (hholds r n hr) (hset n hin)
  · exact fun r r' n hr hr' => h.holder r r' n (hholds r n hr) (hholds r' n hr')
  · intro r n k key hr hk hkey
    rw [hpool n (.inr ⟨r, hr⟩)] at hk
    rw [hsame r n hr] at hkey
    rw [hdefault]
    exact h.heldKey r n k key (hholds r n hr) hk hkey
  · intro r key hidle hkey
    rw [hdefault]
    rcases hheld r with heq | ⟨-, hall⟩
    · rw [heq] at hidle hkey
      exact h.idleKey r key hidle hkey
    · exact hall key hkey
  · exact fun key hkey => hkeys key (h.keptKnown key hkey)

theorem generateNewKey (src : KeySource) : (w.generateNewKey src).2.Sound kept :=
  h.shrink (fun _ hn => hn) (fun _ => .inl rfl) (fun _ _ => rfl)
    (fun _ hkey => mem_cons_of_mem _ hkey) rfl

theorem key_mem (hn : w.Active n)
    (hk : w.pool n = some k) : k.vchPubKey ∈ w.keys ∧ k.vchPubKey ∉ kept := by
  obtain ⟨_, hk', hin, hnot⟩ := h.records n hn
  rw [hk] at hk'
  cases hk'
  exact ⟨hin, hnot⟩

theorem addRecord (hpos : 0 < n) (hn : ¬ w.Active n)
    {keypool : CKeyPool} (hnew : keypool.vchPubKey ∉ w.keys) :
    (w.addRecord n keypool).Sound kept := by
  have hactive : ∀ i, (i ∈ insert n w.setKeyPool ∨ ∃ r, w.Holds r i) → i = n ∨ w.Active i := by
    rintro i (hin | hheld)
    · exact (mem_insert.mp hin).imp_right .inl
    · exact .inr (.inr hheld)
  have hold : ∀ i, w.Active i → update w.pool n (some keypool) i = w.pool i := by
    intro i hi
    apply update_of_ne
    rintro rfl
    exact hn hi
  unfold Wallet.addRecord
  constructor
  · intro i hi
    rcases hactive i hi with rfl | hi'
    · exact hpos
    · exact h.positive i hi'
  · intro i hi
    rcases hactive i hi with rfl | hi'
    · refine ⟨keypool, update_self _ _ _, mem_cons_self, ?_⟩
      exact fun hkept => hnew (h.keptKnown _ hkept)
    · obtain ⟨k, hk, hin, hnot⟩ := h.records i hi'
      exact ⟨k, (hold i hi').trans hk, mem_cons_of_mem _ hin, hnot⟩
  · intro i j k k' hi hj hk hk' hkey
    rcases hactive i hi with hin | hi' <;> rcases hactive j hj with hjn | hj'
    · exact hin.trans hjn.symm
    · simp only [hin, update_self, Option.some.injEq] at hk
      simp only [hold j hj'] at hk'
      exact absurd (hkey ▸ (h.key_mem hj' hk').1) (hk ▸ hnew)
    · simp only [hjn, update_self, Option.some.injEq] at hk'
      simp only [hold i hi'] at hk
      exact absurd (hkey ▸ (h.key_mem hi' hk).1) (hk' ▸ hnew)
    · simp only [hold i hi'] at hk
      simp only [hold j hj'] at hk'
      exact h.distinct i j k k' hi' hj' hk hk' hkey
  · intro r i hr hin
    rcases mem_insert.mp hin with rfl | hin
    · exact hn (.inr ⟨r, hr⟩)
    · exact h.notPooled r i hr hin
  · exact h.holder
  · intro r i k key hr hk hkey
    simp only [hold i (.inr ⟨r, hr⟩)] at hk
    exact h.heldKey r i k key hr hk hkey
  · exact h.idleKey
  · exact fun key hkey => mem_cons_of_mem _ (h.keptKnown key hkey)

/-- One object gets a new reservation, and the records stay. -/
theorem move (rk : CReserveKey) (hpool : w'.pool = w.pool) (hkeys : w'.keys = w.keys)
    (hdefault : w'.vchDefaultKey = w.vchDefaultKey)
    (hreserve : w'.reserveKeys = update w.reserveKeys r rk)
    (hset : ∀ n ∈ w'.setKeyPool, w.Active n ∧ ∀ r', r' ≠ r → ¬ w.Holds r' n)
    (hheld : rk.nIndex ≠ -1 → w.Active rk.nIndex ∧ rk.nIndex ∉ w'.setKeyPool ∧
      ∀ r', r' ≠ r → ¬ w.Holds r' rk.nIndex)
    (hkey : ∀ k key, rk.nIndex ≠ -1 → w.pool rk.nIndex = some k → rk.vchPubKey = some key →
      key = k.vchPubKey ∨ w.vchDefaultKey = some key)
    (hidle : ∀ key, rk.nIndex = -1 → rk.vchPubKey = some key → w.vchDefaultKey = some key) :
    w'.Sound kept := by
  have hholds : ∀ {r' n}, w'.Holds r' n →
      (r' = r ∧ rk.nIndex = n ∧ n ≠ -1) ∨ (r' ≠ r ∧ w.Holds r' n) := by
    intro r' n hr'
    rw [Holds, hreserve] at hr'
    by_cases heq : r' = r
    · rw [heq, update_self] at hr'
      exact .inl ⟨heq, hr'⟩
    · rw [update_of_ne heq] at hr'
      exact .inr ⟨heq, hr'⟩
  have hactive : ∀ n, w'.Active n → w.Active n := by
    rintro n (hin | ⟨r', hr'⟩)
    · exact (hset n hin).1
    · obtain ⟨-, rfl, hn⟩ | ⟨-, hr'⟩ := hholds hr'
      · exact (hheld hn).1
      · exact .inr ⟨r', hr'⟩
  constructor
  · exact fun n hn => h.positive n (hactive n hn)
  · rw [hpool, hkeys]
    exact fun n hn => h.records n (hactive n hn)
  · rw [hpool]
    exact fun n n' k k' hn hn' => h.distinct n n' k k' (hactive n hn) (hactive n' hn')
  · intro r' n hr' hin
    obtain ⟨-, rfl, hn⟩ | ⟨hne, hr'⟩ := hholds hr'
    · exact (hheld hn).2.1 hin
    · exact (hset n hin).2 r' hne hr'
  · intro r1 r2 n h1 h2
    obtain ⟨rfl, rfl, hn⟩ | ⟨hne1, h1⟩ := hholds h1 <;>
      obtain ⟨rfl, hn2, hn'⟩ | ⟨hne2, h2⟩ := hholds h2
    · rfl
    · exact absurd h2 ((hheld hn).2.2 r2 hne2)
    · exact absurd (hn2 ▸ h1) ((hheld (hn2 ▸ hn')).2.2 r1 hne1)
    · exact h.holder r1 r2 n h1 h2
  · rw [hpool, hdefault]
    intro r' n k key hr' hk hkey'
    rw [hreserve] at hkey'
    obtain ⟨rfl, rfl, hn⟩ | ⟨hne, hr'⟩ := hholds hr'
    · rw [update_self] at hkey'
      exact hkey k key hn hk hkey'
    · rw [update_of_ne hne] at hkey'
      exact h.heldKey r' n k key hr' hk hkey'
  · rw [hdefault, hreserve]
    intro r' key hidle' hkey'
    by_cases heq : r' = r
    · rw [heq, update_self] at hidle' hkey'
      exact hidle key hidle' hkey'
    · rw [update_of_ne heq] at hidle' hkey'
      exact h.idleKey r' key hidle' hkey'
  · rw [hkeys]
    exact h.keptKnown

theorem hold (hn : n ∈ w.setKeyPool) (r : Nat)
    (hkey : ∀ k key, w.pool n = some k → vchPubKey = some key →
      key = k.vchPubKey ∨ w.vchDefaultKey = some key) :
    (({ w with setKeyPool := w.setKeyPool.erase n } : Wallet).setReserveKey r
      ⟨n, vchPubKey⟩).Sound kept := by
  have hfree : ∀ i ∈ w.setKeyPool, ∀ r', r' ≠ r → ¬ w.Holds r' i :=
    fun i hi r' _ hr' => h.notPooled r' i hr' hi
  refine h.move ⟨n, vchPubKey⟩ rfl rfl rfl rfl (fun i hi => ?_)
    (fun _ => ⟨.inl hn, notMem_erase n _, hfree n hn⟩) (fun k key _ => hkey k key) ?_
  · have hin := mem_of_mem_erase hi
    exact ⟨.inl hin, hfree i hin⟩
  · intro key hidle _
    have hminus : n = -1 := hidle
    have hpos := h.positive n (.inl hn)
    omega

theorem giveBack (hr : w.Holds r n) : ((w.returnKey n).setReserveKey r ⟨-1, none⟩).Sound kept := by
  refine h.move ⟨-1, none⟩ rfl rfl rfl rfl (fun i hi => ?_) (fun hn => absurd rfl hn)
    (fun _ _ hn => absurd rfl hn) nofun
  rcases mem_insert.mp hi with rfl | hin
  · exact ⟨.inr ⟨r, hr⟩, fun r' hne hr' => hne (h.holder r' r i hr' hr)⟩
  · exact ⟨.inl hin, fun r' _ hr' => h.notPooled r' i hr' hin⟩

theorem setKept {kept' : List CPubKey}
    (hnot : ∀ n k, w.Active n → w.pool n = some k → k.vchPubKey ∉ kept')
    (hknown : ∀ key ∈ kept', key ∈ w.keys) : w.Sound kept' := by
  refine ⟨h.positive, ?_, h.distinct, h.notPooled, h.holder, h.heldKey, h.idleKey, hknown⟩
  intro n hn
  obtain ⟨k, hk, hin, -⟩ := h.records n hn
  exact ⟨k, hk, hin, hnot n k hn hk⟩

end

theorem forget (h : w.Sound (key :: kept)) : w.Sound kept := by
  refine h.setKept ?_ fun key' hkey' => h.keptKnown key' (mem_cons_of_mem _ hkey')
  exact fun n k hn hk hkept => (h.key_mem hn hk).2 (mem_cons_of_mem _ hkept)

theorem takeOut (h : w.Sound kept) (n : Int) :
    ({ w with setKeyPool := w.setKeyPool.erase n } : Wallet).Sound kept :=
  h.shrink (fun _ hi => mem_of_mem_erase hi) (fun _ => .inl rfl) (fun _ _ => rfl)
    (fun _ hkey => hkey) rfl

theorem retire (h : w.Sound kept) (hn : w.Active n) (hk : w.pool n = some k) (hgone : ¬ w'.Active n)
    (hset : ∀ i ∈ w'.setKeyPool, i ∈ w.setKeyPool)
    (hheld : ∀ r, w'.reserveKeys r = w.reserveKeys r ∨ w'.reserveKeys r = ⟨-1, none⟩)
    (hpool : ∀ i, i ≠ n → w'.pool i = w.pool i) (hkeys : w'.keys = w.keys)
    (hdefault : w'.vchDefaultKey = w.vchDefaultKey) : w'.Sound (k.vchPubKey :: kept) := by
  have hne : ∀ i, w'.Active i → i ≠ n := by
    rintro i hi rfl
    exact hgone hi
  have hactive : ∀ i, w'.Active i → w.Active i := by
    rintro i (hin | ⟨r, hr⟩)
    · exact .inl (hset i hin)
    · rcases hheld r with heq | heq
      · exact .inr ⟨r, heq ▸ hr.1, hr.2⟩
      · exact absurd (hr.1.symm.trans (congrArg CReserveKey.nIndex heq)) hr.2
  have hsound : w'.Sound kept := by
    refine h.shrink hset ?_ (fun i hi => hpool i (hne i hi)) (by simp [hkeys]) hdefault
    intro r
    refine (hheld r).imp_right fun heq => ?_
    simp [heq]
  refine hsound.setKept ?_ ?_
  · intro i k' hi hk'
    refine not_mem_cons_of_ne_of_not_mem (fun hkey => ?_) (hsound.key_mem hi hk').2
    rw [hpool i (hne i hi)] at hk'
    exact hne i hi (h.distinct i n k' k (hactive i hi) hn hk' hk hkey)
  · rw [List.forall_mem_cons, hkeys]
    exact ⟨(h.key_mem hn hk).1, h.keptKnown⟩

theorem setIdle (h : w.Sound kept) (r : Nat)
    (hkey : ∀ key, vchPubKey = some key → w.vchDefaultKey = some key) :
    (w.setReserveKey r ⟨-1, vchPubKey⟩).Sound kept := by
  refine h.shrink (fun _ hn => hn) ?_ (fun _ _ => rfl) (fun _ hk => hk) rfl
  intro r'
  by_cases heq : r' = r
  · right
    simpa [heq, setReserveKey] using hkey
  · left
    simp [heq, setReserveKey]

theorem reserved_record (h : w.Sound kept) (hr : w.HasReserved r key) :
    ∃ n k, w.Holds r n ∧ w.pool n = some k ∧ k.vchPubKey = key := by
  have hholds : w.Holds r (w.reserveKeys r).nIndex := ⟨rfl, hr.1⟩
  obtain ⟨k, hk, -, -⟩ := h.records _ (.inr ⟨r, hholds⟩)
  have hkey := h.heldKey r _ k key hholds hk hr.2.1
  exact ⟨_, k, hholds, hk, (hkey.resolve_right hr.2.2).symm⟩

end Sound

/-! ## Filling the pool -/

theorem lt_nEnd (hn : n ∈ w.setKeyPool) : n < w.nEnd := by
  have hle : (n : WithBot Int) ≤ w.setKeyPool.max := le_max hn
  cases hmax : w.setKeyPool.max with
  | bot => simp [hmax] at hle
  | coe m =>
    rw [hmax, WithBot.coe_le_coe] at hle
    simp only [nEnd, hmax, WithBot.unbotD_coe]
    omega

theorem nEnd_pos (hpos : ∀ n ∈ w.setKeyPool, 0 < n) : 0 < w.nEnd := by
  cases hmax : w.setKeyPool.max with
  | bot => simp [nEnd, hmax]
  | coe m =>
    have hm := hpos m (mem_of_max hmax)
    simp only [nEnd, hmax, WithBot.unbotD_coe]
    omega

theorem nEnd_insert (hset : w'.setKeyPool = insert w.nEnd w.setKeyPool) : w'.nEnd = w.nEnd + 1 := by
  have hle : w.setKeyPool.max ≤ (w.nEnd : WithBot Int) := by
    apply Finset.max_le
    intro n hn
    exact WithBot.coe_le_coe.mpr (lt_nEnd hn).le
  have hmax : w'.setKeyPool.max = (w.nEnd : WithBot Int) := by
    rw [hset, Finset.max_insert, max_eq_left hle]
  rw [nEnd, hmax, WithBot.unbotD_coe]

/-- The new indexes are 64-bit numbers, and none of them is held. -/
def TopUpSafe (w : Wallet) (nKeypool nSize : Nat) : Prop :=
  w.fLocked = true ∨ w.nEnd + w.missing nKeypool nSize ≤ 2 ^ 63 ∧
    ∀ r n, w.Holds r n → w.nEnd ≤ n → w.nEnd + w.missing nKeypool nSize ≤ n

def RoundOk (src : KeySource) (io : PoolCalls) (w : Wallet) : Prop :=
  io.keyOk (src.newKey w.keys) = true ∧ io.writeOk w.nEnd = true

theorem topUpLoop_fails (rounds : Nat) (hok : ¬ RoundOk src io w) :
    (topUpLoop src io (rounds + 1) w).1 = (w.generateNewKey src).2 := by
  by_cases hkey : io.keyOk (src.newKey w.keys) = true
  · have hwrite : ¬ io.writeOk w.nEnd = true := fun hwrite => hok ⟨hkey, hwrite⟩
    simp [topUpLoop, generateNewKey, hkey, hwrite]
  · simp [topUpLoop, generateNewKey, hkey]

theorem topUpLoop_succ (rounds : Nat) (hok : RoundOk src io w) :
    topUpLoop src io (rounds + 1) w
      = topUpLoop src io rounds (w.addRecord w.nEnd ⟨io.now, src.newKey w.keys⟩) := by
  simp [topUpLoop, generateNewKey, writePool, addRecord, hok.1, hok.2]

theorem topUpLoop_sound (rounds : Nat) :
    ∀ w : Wallet, w.Sound kept → (∀ r n, w.Holds r n → w.nEnd ≤ n → w.nEnd + rounds ≤ n) →
      (topUpLoop src io rounds w).1.Sound kept := by
  induction rounds with
  | zero => exact fun w hw _ => hw
  | succ rounds ih =>
    intro w hw hsafe
    by_cases hok : RoundOk src io w
    · rw [topUpLoop_succ rounds hok]
      have hfree : ¬ w.Active w.nEnd := by
        rintro (hin | ⟨r, hr⟩)
        · exact lt_irrefl _ (lt_nEnd hin)
        · have := hsafe r _ hr le_rfl
          omega
      apply ih
      · exact hw.addRecord (nEnd_pos fun n hn => hw.positive n (.inl hn)) hfree (src.fresh w.keys)
      intro r n hr hle
      rw [nEnd_insert rfl] at hle ⊢
      have := hsafe r n hr (by omega)
      omega
    · rw [topUpLoop_fails rounds hok]
      exact hw.generateNewKey src

theorem topUpLoop_frame (rounds : Nat) :
    ∀ w : Wallet, (topUpLoop src io rounds w).1.reserveKeys = w.reserveKeys ∧
      (topUpLoop src io rounds w).1.vchDefaultKey = w.vchDefaultKey := by
  induction rounds with
  | zero => exact fun w => ⟨rfl, rfl⟩
  | succ rounds ih =>
    intro w
    by_cases hok : RoundOk src io w
    · rw [topUpLoop_succ rounds hok]
      exact ih _
    · rw [topUpLoop_fails rounds hok]
      exact ⟨rfl, rfl⟩

theorem Sound.topUpKeyPool (h : w.Sound kept) {nSize : Nat}
    (hsafe : w.TopUpSafe nKeypool nSize) : (w.topUpKeyPool src nKeypool io nSize).1.Sound kept := by
  simp only [Wallet.topUpKeyPool]
  split
  · exact h
  next hunlocked => exact topUpLoop_sound _ w h (hsafe.resolve_left hunlocked).2

theorem topUpKeyPool_frame (src : KeySource) (nKeypool : Nat) (io : PoolCalls) (w : Wallet)
    (nSize : Nat) :
    (w.topUpKeyPool src nKeypool io nSize).1.reserveKeys = w.reserveKeys ∧
      (w.topUpKeyPool src nKeypool io nSize).1.vchDefaultKey = w.vchDefaultKey := by
  simp only [topUpKeyPool]
  split
  · exact ⟨rfl, rfl⟩
  · exact topUpLoop_frame _ w

def NewSafe (w : Wallet) (io : PoolCalls) (nKeypool : Nat) : Prop :=
  w.fLocked = true ∨ (∀ r n, w.Holds r n → 1 ≤ n → nKeypool < n) ∧
    ∀ n : Int, 1 ≤ n → n ≤ nKeypool → io.writeOk n = true

theorem newKeys_sound (nKeys : Nat) :
    ∀ (nIndex : Int) (w : Wallet), w.Sound kept → 0 < nIndex → (∀ n ∈ w.setKeyPool, n < nIndex) →
      (∀ r n, w.Holds r n → nIndex ≤ n → nIndex + nKeys ≤ n) →
      (∀ n, nIndex ≤ n → n < nIndex + nKeys → io.writeOk n = true) →
      (newKeys src io nKeys nIndex w).Sound kept := by
  induction nKeys with
  | zero => exact fun _ w hw _ _ _ _ => hw
  | succ nKeys ih =>
    intro nIndex w hw hpos hset hheld hwrite
    by_cases hkey : io.keyOk (src.newKey w.keys) = true
    case neg =>
      simp only [newKeys, Wallet.generateNewKey, hkey]
      exact hw.generateNewKey src
    have hok : io.writeOk nIndex = true := hwrite nIndex le_rfl (by push_cast; omega)
    have hfree : ¬ w.Active nIndex := by
      rintro (hin | ⟨r, hr⟩)
      · exact lt_irrefl _ (hset _ hin)
      · have := hheld r _ hr le_rfl
        omega
    have hround : newKeys src io (nKeys + 1) nIndex w = newKeys src io nKeys (nIndex + 1)
        (w.addRecord nIndex ⟨io.now, src.newKey w.keys⟩) := by
      simp [newKeys, Wallet.generateNewKey, writePool, addRecord, hkey, hok]
    rw [hround]
    apply ih _ _ (hw.addRecord hpos hfree (src.fresh w.keys)) (by omega)
    · intro n hn
      rcases mem_insert.mp hn with rfl | hn
      · omega
      · have := hset n hn
        omega
    · intro r n hr hle
      have := hheld r n hr (by omega)
      omega
    · intro n hle hlt
      exact hwrite n (by omega) (by push_cast; omega)

theorem Sound.erased (h : w.Sound kept) : (w.erased io).Sound kept := by
  refine h.shrink (by simp [Wallet.erased]) (fun _ => .inl rfl) ?_ (fun _ hkey => hkey) rfl
  rintro n (hin | ⟨r, hr⟩)
  · simp [Wallet.erased] at hin
  · have hnot : n ∉ w.setKeyPool := h.notPooled r n hr
    simp [Wallet.erased, hnot]

theorem Sound.newKeyPool (h : w.Sound kept) (hsafe : w.NewSafe io nKeypool) :
    (w.newKeyPool src nKeypool io).Sound kept := by
  simp only [Wallet.newKeyPool]
  split
  · exact h.erased
  rename_i hunlocked
  obtain ⟨hheld, hwrite⟩ := hsafe.resolve_left hunlocked
  apply newKeys_sound nKeypool 1 _ h.erased one_pos
  · simp [Wallet.erased]
  · intro r n hr hle
    have := hheld r n hr hle
    omega
  · exact fun n hle hlt => hwrite n hle (by omega)

/-! ## Taking an index -/

/-- **ReserveKeyFromKeyPool** fills the pool up and takes out an index, if there is one. -/
theorem reserveKeyFromKeyPool_cases (h : w.Sound kept) (hsafe : w.TopUpSafe nKeypool 0)
    {res : Reserved} (hres : w.reserveKeyFromKeyPool src nKeypool io = (w', res)) :
    ∃ w1 : Wallet, w1.Sound kept ∧ w1.reserveKeys = w.reserveKeys ∧
      w1.vchDefaultKey = w.vchDefaultKey ∧
      ((w' = w1 ∧ ∃ thrown, res = ⟨-1, none, thrown⟩) ∨
        ∃ n ∈ w1.setKeyPool, w' = { w1 with setKeyPool := w1.setKeyPool.erase n } ∧
          ((∃ message, res = ⟨n, none, some message⟩) ∨
            ∃ keypool, res = ⟨n, some keypool, none⟩ ∧ w1.pool n = some keypool)) := by
  have hsound : (w.topUpKeyPool src nKeypool io 0).1.Sound kept := h.topUpKeyPool hsafe
  obtain ⟨hreserve, hdefault⟩ := topUpKeyPool_frame src nKeypool io w 0
  simp only [reserveKeyFromKeyPool] at hres
  split at hres
  next w1 message htop =>
    rw [htop] at hsound hreserve hdefault
    cases hres
    exact ⟨_, hsound, hreserve, hdefault, .inl ⟨rfl, _, rfl⟩⟩
  rename_i w1 htop
  rw [htop] at hsound hreserve hdefault
  refine ⟨w1, hsound, hreserve, hdefault, ?_⟩
  split at hres
  next hne =>
    refine .inr ⟨w1.setKeyPool.min' hne, min'_mem _ hne, ?_⟩
    split at hres
    · cases hres
      exact ⟨rfl, .inl ⟨_, rfl⟩⟩
    rename_i keypool hread
    split at hres
    · cases hres
      refine ⟨rfl, .inr ⟨keypool, rfl, ?_⟩⟩
      split at hread
      · exact hread
      · cases hread
    · cases hres
      exact ⟨rfl, .inl ⟨_, rfl⟩⟩
  · cases hres
    exact .inl ⟨rfl, _, rfl⟩

def NotHandedOut (w : Wallet) (kept : List CPubKey) : Returned → Prop
  | .poolKey key | .newKey key => key ∉ kept ∧ ∀ r, ¬ w.HasReserved r key
  | .heldKey r key => w.vchDefaultKey = some key ∨
      (key ∉ kept ∧ ∀ r', r' ≠ r → ¬ w.HasReserved r' key)
  | .defaultKey key => w.vchDefaultKey = some key
  | .nothing => True

namespace Sound

theorem poolKey_notHandedOut {w1 : Wallet} (h1 : w1.Sound kept)
    (hreserve : w1.reserveKeys = w.reserveKeys) (hdefault : w1.vchDefaultKey = w.vchDefaultKey)
    (hn : n ∈ w1.setKeyPool) (hk : w1.pool n = some k) :
    w.NotHandedOut kept (.poolKey k.vchPubKey) := by
  refine ⟨(h1.key_mem (.inl hn) hk).2, fun r hr => ?_⟩
  have hr1 : w1.HasReserved r k.vchPubKey := by
    rwa [HasReserved, hreserve, hdefault]
  obtain ⟨n', k', hholds, hk', hkey⟩ := h1.reserved_record hr1
  have heq := h1.distinct n' n k' k (.inr ⟨r, hholds⟩) (.inl hn) hk' hk hkey
  exact h1.notPooled r n' hholds (heq ▸ hn)

theorem heldKey_notHandedOut (h : w.Sound kept)
    (hindex : (w.reserveKeys r).nIndex ≠ -1) (hkey : (w.reserveKeys r).vchPubKey = some key) :
    w.NotHandedOut kept (.heldKey r key) := by
  by_cases hdefault : w.vchDefaultKey = some key
  · exact .inl hdefault
  obtain ⟨n, k, hholds, hk, hkeq⟩ := h.reserved_record ⟨hindex, hkey, hdefault⟩
  refine .inr ⟨hkeq ▸ (h.key_mem (.inr ⟨r, hholds⟩) hk).2, fun r' hne hr' => hne ?_⟩
  obtain ⟨n', k', hholds', hk', hkeq'⟩ := h.reserved_record hr'
  have heq := h.distinct n' n k' k (.inr ⟨r', hholds'⟩) (.inr ⟨r, hholds⟩) hk' hk
    (hkeq'.trans hkeq.symm)
  exact h.holder r' r n (heq ▸ hholds') hholds

theorem newKey_notHandedOut {w1 : Wallet} (h1 : w1.Sound kept)
    (hreserve : w1.reserveKeys = w.reserveKeys) (hdefault : w1.vchDefaultKey = w.vchDefaultKey) :
    w.NotHandedOut kept (.newKey (src.newKey w1.keys)) := by
  refine ⟨fun hkept => src.fresh _ (h1.keptKnown _ hkept), fun r hr => ?_⟩
  have hr1 : w1.HasReserved r (src.newKey w1.keys) := by
    rwa [HasReserved, hreserve, hdefault]
  obtain ⟨n, k, hholds, hk, hkey⟩ := h1.reserved_record hr1
  exact src.fresh w1.keys (hkey ▸ (h1.key_mem (.inr ⟨r, hholds⟩) hk).1)

/-! ## The calls, one by one -/

section

variable (h : w.Sound kept)
include h

theorem getReservedKey (hsafe : (w.reserveKeys r).nIndex = -1 → w.TopUpSafe nKeypool 0) :
    (w.getReservedKey src nKeypool io r).1.Sound kept ∧
      w.NotHandedOut kept (w.getReservedKey src nKeypool io r).2 := by
  by_cases hidle : (w.reserveKeys r).nIndex = -1
  · generalize hres : w.reserveKeyFromKeyPool src nKeypool io = taken
    obtain ⟨w', _⟩ := taken
    obtain ⟨w1, h1, hreserve, hdefault, hcase⟩ := reserveKeyFromKeyPool_cases h (hsafe hidle) hres
    have hunset : ∀ key, (w.reserveKeys r).vchPubKey = some key → w1.vchDefaultKey = some key := by
      intro key hkey
      rw [hdefault]
      exact h.idleKey r key hidle hkey
    simp only [Wallet.getReservedKey, hidle, ↓reduceIte, hres]
    rcases hcase with ⟨rfl, thrown, rfl⟩ | ⟨n, hn, rfl, ⟨message, rfl⟩ | ⟨_, rfl, hk⟩⟩
    · cases thrown with
      | some message => exact ⟨h1.setIdle r hunset, trivial⟩
      | none =>
        dsimp only
        cases hkey : w'.vchDefaultKey with
        | none => exact ⟨h1, trivial⟩
        | some key =>
          refine ⟨h1.setIdle r ?_, hdefault.symm.trans hkey⟩
          exact fun key' heq => heq ▸ hkey
    · exact ⟨h1.hold hn r fun _ key _ hkey => .inr (hunset key hkey), trivial⟩
    · refine ⟨h1.hold hn r ?_, h1.poolKey_notHandedOut hreserve hdefault hn hk⟩
      intro k key hk' hkey
      rw [hk] at hk'
      cases hk'
      cases hkey
      exact .inl rfl
  · simp only [Wallet.getReservedKey, hidle, ↓reduceIte]
    cases hkey : (w.reserveKeys r).vchPubKey with
    | some key => exact ⟨h, h.heldKey_notHandedOut hidle hkey⟩
    | none => exact ⟨h, trivial⟩

theorem keepReserved (r : Nat) :
    (w.keepReserved io r).Sound (Call.keeps src nKeypool w io (.keepKey r) ++ kept) := by
  by_cases hidle : (w.reserveKeys r).nIndex = -1
  · have hkeeps : Call.keeps src nKeypool w io (.keepKey r) = [] := by
      simp only [Call.keeps, HasReserved, hidle]
      split <;> simp
    have hkept : w.keepReserved io r = w.setReserveKey r ⟨-1, none⟩ := by
      simp [Wallet.keepReserved, hidle]
    rw [hkeeps, hkept]
    exact h.setIdle r (by simp)
  · have hholds : w.Holds r (w.reserveKeys r).nIndex := ⟨rfl, hidle⟩
    obtain ⟨k, hk, -, -⟩ := h.records _ (.inr ⟨r, hholds⟩)
    have hsound : (w.keepReserved io r).Sound (k.vchPubKey :: kept) := by
      simp only [Wallet.keepReserved, ne_eq, hidle, not_false_eq_true, ↓reduceIte]
      refine h.retire (.inr ⟨r, hholds⟩) hk ?_ ?_ ?_ ?_ ?_ ?_
      · rintro (hin | ⟨r', hr'⟩)
        · exact h.notPooled r _ hholds (by simpa [setReserveKey, keepKey] using hin)
        · by_cases heq : r' = r
          · simp only [Holds, setReserveKey, heq, update_self] at hr'
            exact hr'.2 hr'.1.symm
          · have hr : w.Holds r' (w.reserveKeys r).nIndex := by
              simpa [Holds, setReserveKey, keepKey, heq] using hr'
            exact heq (h.holder r' r _ hr hholds)
      · simp [setReserveKey, keepKey]
      · intro r'
        by_cases heq : r' = r
        · simp [setReserveKey, heq]
        · simp [setReserveKey, keepKey, heq]
      · intro i hi
        simp [setReserveKey, keepKey, erasePool_pool, hi]
      · simp [setReserveKey, keepKey]
      · simp [setReserveKey, keepKey]
    simp only [Call.keeps]
    split
    next key hkey =>
      split
      next hreserved =>
        have heq := h.heldKey r _ k key hholds hk hkey
        rw [heq.resolve_right hreserved.2.2]
        exact hsound
      · exact hsound.forget
    · exact hsound.forget

theorem returnReserved (r : Nat) : (w.returnReserved r).Sound kept := by
  by_cases hidle : (w.reserveKeys r).nIndex = -1
  · simp only [Wallet.returnReserved, hidle, ne_eq, not_true_eq_false, ↓reduceIte]
    exact h.setIdle r (by simp)
  · simp only [Wallet.returnReserved, ne_eq, hidle, not_false_eq_true, ↓reduceIte]
    exact h.giveBack ⟨rfl, hidle⟩

theorem getKeyFromPool (fAllowReuse : Bool) (hsafe : w.TopUpSafe nKeypool 0) :
    (w.getKeyFromPool src nKeypool io fAllowReuse).1.Sound
        (Call.keeps src nKeypool w io (.getKeyFromPool fAllowReuse) ++ kept) ∧
      w.NotHandedOut kept (w.getKeyFromPool src nKeypool io fAllowReuse).2 := by
  generalize hres : w.reserveKeyFromKeyPool src nKeypool io = taken
  obtain ⟨w', _⟩ := taken
  obtain ⟨_, h1, hreserve, hdefault, hcase⟩ := reserveKeyFromKeyPool_cases h hsafe hres
  simp only [Call.keeps, Wallet.getKeyFromPool, hres]
  rcases hcase with ⟨rfl, thrown, rfl⟩ | ⟨n, hn, rfl, ⟨message, rfl⟩ | ⟨_, rfl, hk⟩⟩
  · cases thrown with
    | some message => exact ⟨h1, trivial⟩
    | none =>
      dsimp only
      cases hkey : (if fAllowReuse then w'.vchDefaultKey else none) with
      | some key =>
        refine ⟨h1, ?_⟩
        cases fAllowReuse with
        | false => cases hkey
        | true => exact hdefault.symm.trans hkey
      | none =>
        by_cases hlocked : w'.fLocked = true
        · simp only [hlocked, ↓reduceIte]
          exact ⟨h1, trivial⟩
        · simp only [hlocked, Bool.false_eq_true, ↓reduceIte]
          cases io.keyOk (w'.generateNewKey src).1
          · exact ⟨h1.generateNewKey src, trivial⟩
          · exact ⟨h1.generateNewKey src, h1.newKey_notHandedOut hreserve hdefault⟩
  · exact ⟨h1.takeOut n, trivial⟩
  · refine ⟨h1.retire (.inl hn) hk ?_ ?_ (fun _ => .inl ?_) ?_ ?_ ?_,
      h1.poolKey_notHandedOut hreserve hdefault hn hk⟩
    · rintro (hin | ⟨r, hr⟩)
      · simp [keepKey] at hin
      · exact h1.notPooled r n (by simpa [keepKey, Holds] using hr) hn
    · simp [keepKey]
    · simp [keepKey]
    · simp +contextual [keepKey, erasePool_pool]
    · simp [keepKey]
    · simp [keepKey]

theorem getOldestKeyPoolTime (hsafe : w.TopUpSafe nKeypool 0) :
    (w.getOldestKeyPoolTime src nKeypool io).1.Sound kept := by
  generalize hres : w.reserveKeyFromKeyPool src nKeypool io = taken
  obtain ⟨_, _⟩ := taken
  obtain ⟨_, h1, -, -, hcase⟩ := reserveKeyFromKeyPool_cases h hsafe hres
  simp only [Wallet.getOldestKeyPoolTime, hres]
  rcases hcase with ⟨rfl, thrown, rfl⟩ | ⟨n, hn, rfl, ⟨message, rfl⟩ | ⟨_, rfl, -⟩⟩
  · cases thrown <;> exact h1
  · exact h1.takeOut n
  · simpa only [returnKey, insert_erase hn] using h1

end

end Sound

end Wallet

/-! ## Runs -/

def Call.Safe (nKeypool : Nat) (w : Wallet) (io : PoolCalls) : Call → Prop
  | .topUpKeyPool nSize => w.TopUpSafe nKeypool nSize
  | .newKeyPool => w.NewSafe io nKeypool
  | .getReservedKey r => (w.reserveKeys r).nIndex = -1 → w.TopUpSafe nKeypool 0
  | .getKeyFromPool _ | .getOldestKeyPoolTime => w.TopUpSafe nKeypool 0
  | .keepKey _ | .returnKey _ | .setLocked _ => True

section Runs

variable (src : KeySource) (nKeypool : Nat)

def Call.step (s : Wallet × List CPubKey) (c : PoolCalls × Call) : Wallet × List CPubKey :=
  ((c.2.run src nKeypool s.1 c.1).1, c.2.keeps src nKeypool s.1 c.1 ++ s.2)

def poolRun (w : Wallet) (calls : List (PoolCalls × Call)) : Wallet × List CPubKey :=
  calls.foldl (Call.step src nKeypool) (w, [])

def SafeRun (w : Wallet) (calls : List (PoolCalls × Call)) : Prop :=
  ∀ before io call after, calls = before ++ (io, call) :: after →
    call.Safe nKeypool (poolRun src nKeypool w before).1 io

end Runs

structure Wallet.Started (w : Wallet) : Prop where
  positive : ∀ n ∈ w.setKeyPool, 0 < n
  records : ∀ n ∈ w.setKeyPool, ∃ keypool, w.pool n = some keypool ∧ keypool.vchPubKey ∈ w.keys
  distinct : ∀ n ∈ w.setKeyPool, ∀ n' ∈ w.setKeyPool, ∀ k k', w.pool n = some k →
    w.pool n' = some k' → k.vchPubKey = k'.vchPubKey → n = n'
  idle : ∀ r, w.reserveKeys r = ⟨-1, none⟩

variable {src : KeySource} {nKeypool : Nat} {w : Wallet} {kept : List CPubKey}

theorem Wallet.Started.sound (h : w.Started) : w.Sound [] := by
  have hnone : ∀ r n, ¬ w.Holds r n := by
    intro r n hr
    rw [Wallet.Holds, h.idle r] at hr
    exact hr.2 hr.1.symm
  have hactive : ∀ n, w.Active n → n ∈ w.setKeyPool := by
    rintro n (hin | ⟨r, hr⟩)
    · exact hin
    · exact absurd hr (hnone r n)
  constructor
  · exact fun n hn => h.positive n (hactive n hn)
  · intro n hn
    obtain ⟨k, hk, hin⟩ := h.records n (hactive n hn)
    exact ⟨k, hk, hin, not_mem_nil⟩
  · intro n n' k k' hn hn'
    exact h.distinct n (hactive n hn) n' (hactive n' hn') k k'
  · exact fun r n hr => absurd hr (hnone r n)
  · exact fun r r' n hr => absurd hr (hnone r n)
  · exact fun r n k key hr => absurd hr (hnone r n)
  · intro r key _ hkey
    simp [h.idle r] at hkey
  · simp

theorem Call.Safe.sound {io : PoolCalls} {call : Call} (h : w.Sound kept)
    (hsafe : call.Safe nKeypool w io) :
    (Call.step src nKeypool (w, kept) (io, call)).1.Sound
        (Call.step src nKeypool (w, kept) (io, call)).2 ∧
      w.NotHandedOut kept (call.run src nKeypool w io).2 := by
  cases call with
  | topUpKeyPool nSize => exact ⟨h.topUpKeyPool hsafe, trivial⟩
  | newKeyPool => exact ⟨h.newKeyPool hsafe, trivial⟩
  | getReservedKey r => exact h.getReservedKey hsafe
  | keepKey r => exact ⟨h.keepReserved r, trivial⟩
  | returnKey r => exact ⟨h.returnReserved r, trivial⟩
  | getKeyFromPool fAllowReuse => exact h.getKeyFromPool fAllowReuse hsafe
  | getOldestKeyPoolTime => exact ⟨h.getOldestKeyPoolTime hsafe, trivial⟩
  | setLocked fLocked =>
    exact ⟨h.shrink (fun _ hn => hn) (fun _ => .inl rfl) (fun _ _ => rfl) (fun _ hk => hk) rfl,
      trivial⟩

theorem poolRun_sound (h : w.Started) (calls : List (PoolCalls × Call))
    (hsafe : SafeRun src nKeypool w calls) :
    (poolRun src nKeypool w calls).1.Sound (poolRun src nKeypool w calls).2 := by
  induction calls using reverseRecOn with
  | nil => exact h.sound
  | append_singleton calls c ih =>
    have hlast := hsafe calls c.1 c.2 [] rfl
    have hprev : SafeRun src nKeypool w calls := by
      intro before io call after heq
      exact hsafe before io call (after ++ [c]) (by simp [heq])
    simp only [poolRun, foldl_append, foldl_cons, foldl_nil]
    exact (Call.Safe.sound (ih hprev) hlast).1

/-- In a run that never writes over a held record, every index of `setKeyPool` has a record with a
key of the wallet, and what the next call returns is neither kept nor reserved. -/
theorem keyPool_sound (src : KeySource) (nKeypool : Nat) (w : Wallet) (hw : w.Started)
    (calls : List (PoolCalls × Call)) (hsafe : SafeRun src nKeypool w calls) :
    (∀ n ∈ (poolRun src nKeypool w calls).1.setKeyPool, ∃ keypool,
      (poolRun src nKeypool w calls).1.pool n = some keypool ∧
        keypool.vchPubKey ∈ (poolRun src nKeypool w calls).1.keys) ∧
    ∀ io call, Call.Safe nKeypool (poolRun src nKeypool w calls).1 io call →
      (poolRun src nKeypool w calls).1.NotHandedOut (poolRun src nKeypool w calls).2
        (call.run src nKeypool (poolRun src nKeypool w calls).1 io).2 := by
  have hsound := poolRun_sound hw calls hsafe
  refine ⟨fun n hn => ?_, fun io call hcall => (Call.Safe.sound hsound hcall).2⟩
  obtain ⟨keypool, hk, hin, -⟩ := hsound.records n (.inl hn)
  exact ⟨keypool, hk, hin⟩

/-! ## Two objects on one index -/

def growingSource : KeySource where
  newKey keys := 0 :: keys.flatten
  fresh keys hin := by
    have hle := (List.sublist_flatten_of_mem hin).length_le
    rw [List.length_cons] at hle
    omega

def allWell : PoolCalls := ⟨0, fun _ => true, fun _ => true, fun _ => true, fun _ => true⟩

def newWallet : Wallet := ⟨∅, fun _ => none, [], none, false, fun _ => ⟨-1, none⟩⟩

theorem newWallet_started : newWallet.Started := by
  refine ⟨?_, ?_, ?_, fun _ => rfl⟩
  · simp [newWallet]
  · simp [newWallet]
  · simp [newWallet]

/-- With `-keypool=0`, the pool restarts at index 1 for object 1 while object 0 holds it. -/
def overlapping : List (PoolCalls × Call) :=
  [(allWell, .getReservedKey 0), (allWell, .getReservedKey 1), (allWell, .returnKey 0)]

/-- Object 2 reserves the key of object 1. When object 1 keeps it and object 2 returns it, index 1
is without a record. -/
theorem reserved_index_overwritten :
    let w := (poolRun growingSource 0 newWallet overlapping).1
    let w' := (poolRun growingSource 0 newWallet (overlapping ++ [(allWell, .getReservedKey 2),
      (allWell, .keepKey 1), (allWell, .returnKey 2)])).1
    newWallet.Started ∧ w.HasReserved 1 [0, 0] ∧
      ((Call.getReservedKey 2).run growingSource 0 w allWell).2 = .poolKey [0, 0] ∧
      1 ∈ w'.setKeyPool ∧ w'.pool 1 = none :=
  ⟨newWallet_started, by decide +kernel⟩

def keptOne : List (PoolCalls × Call) :=
  [(allWell, .getReservedKey 0), (allWell, .keepKey 0)]

theorem keptOne_safe : SafeRun growingSource 0 newWallet keptOne := by
  intro before io call after heq
  match before, heq with
  | [], heq =>
    cases heq
    exact fun _ => .inr ⟨by decide +kernel, fun r n hr => absurd hr.1.symm hr.2⟩
  | [_], heq =>
    cases heq
    trivial
  | [_, _], heq => cases heq

theorem keyPool_sound_keptOne :
    (poolRun growingSource 0 newWallet keptOne).2 = [[0]] ∧
    ((Call.getKeyFromPool false).run growingSource 0
      (poolRun growingSource 0 newWallet keptOne).1 allWell).2 = .poolKey [0, 0] ∧
    (poolRun growingSource 0 newWallet keptOne).1.NotHandedOut [[0]] (.poolKey [0, 0]) := by
  refine ⟨by decide +kernel, by decide +kernel, ?_⟩
  apply (keyPool_sound growingSource 0 newWallet newWallet_started keptOne keptOne_safe).2
    allWell (.getKeyFromPool false)
  refine .inr ⟨by decide +kernel, fun r n hr => absurd ?_ hr.2⟩
  rw [← hr.1]
  cases r with
  | zero => rfl
  | succ r => rfl

end HoboNickels.KeyPool

import HoboNickels.Lib.WriteBatch

/-!
# The transaction database

The accessors of `CTxDB`, over the bytes they hand to LevelDB. While a batch is active, writes and
erases go into it, and a read finds the pending operation on its key by replaying the batch through
a `CBatchScanner`. The callers treat the object as a map with transactions (`TxMap`).

`Exists` asks the batch only whether the key is written, and falls through to the database when the
last pending operation is a delete, so an erased key still exists (`exists_finds_erased_key`).
`run_eq_spec_iff` says that nothing else goes wrong.
-/

namespace HoboNickels

open WriteBatch List

abbrev Bytes := List UInt8

/-- A call of one of the accessors. `Read` unserializes what it finds into a `T`; `fOk` is
`status.ok()` of LevelDB. -/
inductive DbCall (T : Type) where
  | write (key value : Bytes) (fOk : Bool)
  | erase (key : Bytes) (fOk : Bool)
  | read (key : Bytes) (unserialize : Bytes → Option T)
  | existsKey (key : Bytes)
  | txnBegin
  | txnCommit (fOk : Bool)
  | txnAbort

inductive DbAnswer (T : Type) where
  | status (f : Bool)
  | value (v : Option T)
  deriving DecidableEq

section Run

variable {σ C A : Type}

/-- The state and the answers after a sequence of calls, up to the first failed assertion. -/
def runDb (step : σ → C → Option (σ × A)) : σ → List C → σ × List A
  | s, [] => (s, [])
  | s, c :: cs =>
    match step s c with
    | none => (s, [])
    | some (s', a) =>
      let r := runDb step s' cs
      (r.1, a :: r.2)

end Run

/-! ## `CTxDB` -/

/-- What `CBatchScanner` collects while the batch is replayed. -/
structure CBatchScanner where
  foundEntry : Bool
  deleted : Bool
  foundValue : Bytes

def CBatchScanner.handle (needle : Bytes) (sc : CBatchScanner) :
    Op (fun _ : Bytes => Bytes) → CBatchScanner
  | .put key value => if key = needle then ⟨true, false, value⟩ else sc
  | .delete key => if key = needle then { sc with foundEntry := true, deleted := true } else sc

structure TxDb extends Store (fun _ : Bytes => Bytes) where
  fReadOnly : Bool

namespace TxDb

variable {T : Type}

def scanBatch (batch : List (Op (fun _ : Bytes => Bytes))) (needle : Bytes) : CBatchScanner :=
  batch.foldl (CBatchScanner.handle needle) ⟨false, false, []⟩

variable (db : TxDb)

def get (key : Bytes) : Option Bytes := db.committed.lookup key

def readBytes (key : Bytes) : Option Bytes :=
  match db.activeBatch with
  | none => db.get key
  | some batch =>
    let sc := scanBatch batch key
    if sc.deleted then none
    else if sc.foundEntry then some sc.foundValue
    else db.get key

def existsKey (key : Bytes) : Bool :=
  match db.activeBatch with
  | none => (db.get key).isSome
  | some batch =>
    let sc := scanBatch batch key
    if sc.foundEntry && !sc.deleted then true else (db.get key).isSome

def issue (op : Op (fun _ : Bytes => Bytes)) (fOk : Bool) : TxDb × Bool :=
  match db.activeBatch with
  | some _ => ({ db with toStore := db.toStore.doOp op }, true)
  | none => if fOk then ({ db with toStore := db.toStore.doOp op }, true) else (db, false)

def step : DbCall T → Option (TxDb × DbAnswer T)
  | .write key value fOk =>
    if db.fReadOnly then none
    else
      let r := db.issue (.put key value) fOk
      some (r.1, .status r.2)
  | .erase key fOk =>
    if db.fReadOnly then none
    else
      let r := db.issue (.delete key) fOk
      some (r.1, .status r.2)
  | .read key unserialize => some (db, .value ((db.readBytes key).bind unserialize))
  | .existsKey key => some (db, .status (db.existsKey key))
  | .txnBegin =>
    if db.activeBatch.isSome then none
    else some ({ db with toStore := db.toStore.txnBegin }, .status true)
  | .txnCommit fOk =>
    if db.activeBatch.isNone then none
    else if fOk then some ({ db with toStore := db.toStore.txnCommit }, .status true)
    else some ({ db with toStore := db.toStore.txnAbort }, .status false)
  | .txnAbort => some ({ db with toStore := db.toStore.txnAbort }, .status true)

def ErasedCommitted (key : Bytes) : Prop :=
  ∃ batch, db.activeBatch = some batch ∧ WriteBatch.scanBatch batch key = some none ∧
    (db.get key).isSome

end TxDb

structure TxMap where
  committed : Table (fun _ : Bytes => Bytes)
  pending : Option (Table (fun _ : Bytes => Bytes))
  fReadOnly : Bool

namespace TxMap

variable {T : Type}

def contents (m : TxMap) : Table (fun _ : Bytes => Bytes) := m.pending.getD m.committed

def issue (m : TxMap) (op : Op (fun _ : Bytes => Bytes)) (fOk : Bool) : TxMap × Bool :=
  match m.pending with
  | some t => ({ m with pending := some (op.applyTo t) }, true)
  | none => if fOk then ({ m with committed := op.applyTo m.committed }, true) else (m, false)

def step (m : TxMap) : DbCall T → Option (TxMap × DbAnswer T)
  | .write key value fOk =>
    if m.fReadOnly then none
    else
      let r := m.issue (.put key value) fOk
      some (r.1, .status r.2)
  | .erase key fOk =>
    if m.fReadOnly then none
    else
      let r := m.issue (.delete key) fOk
      some (r.1, .status r.2)
  | .read key unserialize => some (m, .value ((m.contents.lookup key).bind unserialize))
  | .existsKey key => some (m, .status (m.contents.lookup key).isSome)
  | .txnBegin =>
    if m.pending.isSome then none else some ({ m with pending := some m.committed }, .status true)
  | .txnCommit fOk =>
    if m.pending.isNone then none
    else if fOk then some ({ m with committed := m.contents, pending := none }, .status true)
    else some ({ m with pending := none }, .status false)
  | .txnAbort => some ({ m with pending := none }, .status true)

end TxMap

def TxDb.toTxMap (db : TxDb) : TxMap where
  committed := db.committed
  pending := db.activeBatch.map (applyBatch db.committed)
  fReadOnly := db.fReadOnly

/-! ## Replaying the batch -/

def CBatchScanner.found (sc : CBatchScanner) : Option (Option Bytes) :=
  if sc.foundEntry then some (if sc.deleted then none else some sc.foundValue) else none

def CBatchScanner.Sound (sc : CBatchScanner) : Prop := sc.deleted = true → sc.foundEntry = true

theorem CBatchScanner.handle_spec {needle : Bytes} {sc : CBatchScanner} (h : sc.Sound)
    (op : Op (fun _ : Bytes => Bytes)) :
    (sc.handle needle op).Sound ∧ (sc.handle needle op).found = Op.scan needle sc.found op := by
  cases op with
  | put key | delete key =>
    by_cases hkey : key = needle
    · subst hkey
      simp [handle, Sound, found, Op.scan]
    · simpa [handle, Op.scan, hkey] using h

namespace TxDb

variable {T : Type}

theorem scanBatch_spec (batch : List (Op (fun _ : Bytes => Bytes))) (needle : Bytes) :
    (scanBatch batch needle).Sound ∧
      (scanBatch batch needle).found = WriteBatch.scanBatch batch needle := by
  -- The two folds run side by side, from any scanner.
  have key : ∀ (batch : List (Op (fun _ : Bytes => Bytes))) (sc : CBatchScanner), sc.Sound →
      (batch.foldl (CBatchScanner.handle needle) sc).Sound ∧
        (batch.foldl (CBatchScanner.handle needle) sc).found =
          batch.foldl (Op.scan needle) sc.found := by
    intro batch
    induction batch with
    | nil => intro sc h; exact ⟨h, rfl⟩
    | cons op batch ih =>
      intro sc h
      obtain ⟨hsound, hfound⟩ := CBatchScanner.handle_spec h op
      rw [foldl_cons, foldl_cons, ← hfound]
      exact ih _ hsound
  exact key batch ⟨false, false, []⟩ (fun h => nomatch h)

variable (db : TxDb)

theorem readBytes_eq (key : Bytes) : db.readBytes key = db.toStore.read key := by
  unfold readBytes Store.read
  cases db.activeBatch with
  | none => rfl
  | some batch =>
    obtain ⟨hsound, hfound⟩ := scanBatch_spec batch key
    simp only [← hfound]
    cases hf : (scanBatch batch key).foundEntry with
    | false =>
      have hdel : (scanBatch batch key).deleted = false := by
        cases hd : (scanBatch batch key).deleted with
        | false => rfl
        | true => rw [hsound hd] at hf; cases hf
      simp [CBatchScanner.found, hf, hdel, get]
    | true => cases hd : (scanBatch batch key).deleted <;> simp [CBatchScanner.found, hf, hd]

/-- `Exists` agrees with `Read` on every key but those it finds erased in the batch and present in
the database. -/
theorem existsKey_eq_iff (key : Bytes) :
    db.existsKey key = (db.toStore.read key).isSome ↔ ¬ db.ErasedCommitted key := by
  unfold existsKey Store.read ErasedCommitted
  cases db.activeBatch with
  | none => simp [get]
  | some batch =>
    obtain ⟨-, hfound⟩ := scanBatch_spec batch key
    cases hf : (scanBatch batch key).foundEntry with
    | false => simp [CBatchScanner.found, hf, get, ← hfound]
    | true =>
      cases hd : (scanBatch batch key).deleted <;>
        simp [CBatchScanner.found, hf, hd, get, ← hfound]

/-! ## The simulation -/

@[simp] theorem fReadOnly_toTxMap : db.toTxMap.fReadOnly = db.fReadOnly := rfl

@[simp] theorem pending_toTxMap :
    db.toTxMap.pending = db.activeBatch.map (applyBatch db.committed) := rfl

@[simp] theorem contents_toTxMap : db.toTxMap.contents = db.toStore.view := by
  unfold TxMap.contents toTxMap Store.view
  cases db.activeBatch <;> rfl

theorem issue_toTxMap (op : Op (fun _ : Bytes => Bytes)) (fOk : Bool) :
    db.toTxMap.issue op fOk = ((db.issue op fOk).1.toTxMap, (db.issue op fOk).2) := by
  unfold issue TxMap.issue toTxMap
  cases hb : db.activeBatch with
  | none => cases fOk <;> simp [Store.doOp, hb]
  | some batch => simp [Store.doOp, hb, applyBatch, foldl_append]

/-- The same assertions fail, the states stay related, and the answers differ exactly for `Exists`
of an erased key that is committed. -/
theorem step_toTxMap (c : DbCall T) : (db.step c = none ∧ db.toTxMap.step c = none) ∨
      ∃ db' a b, db.step c = some (db', a) ∧ db.toTxMap.step c = some (db'.toTxMap, b) ∧
        (a = b ↔ ∀ key, c = .existsKey key → ¬ db.ErasedCommitted key) := by
  cases c with
  | write | erase =>
    by_cases hro : db.fReadOnly = true
    · exact .inl ⟨by simp [step, hro], by simp [TxMap.step, hro]⟩
    · refine .inr ⟨_, _, _, if_neg hro, (if_neg hro).trans (by rw [issue_toTxMap]), ?_⟩
      simp
  | read key unserialize =>
    refine .inr ⟨db, _, _, rfl, rfl, ?_⟩
    simp [readBytes_eq, lookup_view]
  | existsKey key =>
    refine .inr ⟨db, _, _, rfl, rfl, ?_⟩
    simp [existsKey_eq_iff, lookup_view]
  | txnBegin =>
    cases hb : db.activeBatch with
    | some batch => exact .inl ⟨by simp [step, hb], by simp [TxMap.step, hb]⟩
    | none =>
      refine .inr ⟨{ db with toStore := db.toStore.txnBegin }, .status true, .status true,
        by simp [step, hb], ?_, by simp⟩
      simp [TxMap.step, toTxMap, hb, Store.txnBegin, applyBatch]
  | txnCommit fOk =>
    cases hb : db.activeBatch with
    | none => exact .inl ⟨by simp [step, hb], by simp [TxMap.step, hb]⟩
    | some batch =>
      refine .inr ⟨{ db with toStore := if fOk then db.toStore.txnCommit else db.toStore.txnAbort },
        .status fOk, .status fOk, by cases fOk <;> simp [step, hb], ?_, by simp⟩
      cases fOk with
      | true => simp [TxMap.step, toTxMap, hb, Store.txnCommit, TxMap.contents]
      | false => simp [TxMap.step, toTxMap, hb, Store.txnAbort]
  | txnAbort =>
    refine .inr ⟨{ db with toStore := db.toStore.txnAbort }, _, _, rfl, rfl, ?_⟩
    simp

def NoErasedExists (calls : List (DbCall T)) : Prop :=
  ∀ (before after : List (DbCall T)) (key : Bytes), calls = before ++ .existsKey key :: after →
    (runDb step db before).2.length = before.length →
    ¬ (runDb step db before).1.ErasedCommitted key

theorem noErasedExists_cons {db db' : TxDb} {c : DbCall T} {a : DbAnswer T}
    (h : db.step c = some (db', a)) (calls : List (DbCall T)) :
    db.NoErasedExists (c :: calls) ↔
      (∀ key, c = .existsKey key → ¬ db.ErasedCommitted key) ∧ db'.NoErasedExists calls := by
  constructor
  · intro hall
    refine ⟨?_, ?_⟩
    · rintro key rfl
      exact hall [] calls key rfl rfl
    intro before after key hcalls hlen
    have := hall (c :: before) after key (by rw [hcalls]; rfl)
    simp only [runDb, h, length_cons] at this
    exact this (by omega)
  · rintro ⟨hhead, htail⟩ before after key hcalls hlen
    cases before with
    | nil =>
      simp only [nil_append, cons.injEq] at hcalls
      exact hhead key hcalls.1
    | cons b before =>
      simp only [cons_append, cons.injEq] at hcalls
      obtain ⟨rfl, hcalls⟩ := hcalls
      simp only [runDb, h, length_cons] at hlen ⊢
      exact htail before after key hcalls (by omega)

theorem noErasedExists_of_assert {db : TxDb} {c : DbCall T} (h : db.step c = none)
    (calls : List (DbCall T)) : db.NoErasedExists (c :: calls) := by
  intro before after key hcalls hlen
  cases before with
  | nil =>
    simp only [nil_append, cons.injEq] at hcalls
    rw [hcalls.1] at h
    cases h
  | cons b before =>
    simp only [cons_append, cons.injEq] at hcalls
    rw [← hcalls.1] at hlen
    simp [runDb, h] at hlen

/-- The answers of a run are those of the map exactly if no `Exists` asks for an erased key that is
committed. -/
theorem run_eq_spec_iff (db : TxDb) (calls : List (DbCall T)) :
    runDb TxMap.step db.toTxMap calls =
        ((runDb step db calls).1.toTxMap, (runDb step db calls).2) ↔
      db.NoErasedExists calls := by
  induction calls generalizing db with
  | nil => simp [runDb, NoErasedExists]
  | cons c calls ih =>
    obtain ⟨hn, hn'⟩ | ⟨db', a, b, hs, hs', hab⟩ := db.step_toTxMap c
    · simp only [runDb, hn, hn', true_iff]
      exact noErasedExists_of_assert hn calls
    rw [noErasedExists_cons hs, ← hab, ← ih db']
    simp only [runDb, hs, hs', Prod.mk.injEq, List.cons.injEq]
    constructor
    · rintro ⟨hstate, rfl, hanswers⟩
      exact ⟨rfl, Prod.ext hstate hanswers⟩
    · rintro ⟨rfl, hrest⟩
      exact ⟨congrArg Prod.fst hrest, rfl, congrArg Prod.snd hrest⟩

/-- The key `[1]` is committed, erased in a transaction, and `Exists` still finds it. -/
theorem exists_finds_erased_key :
    let db : TxDb := ⟨⟨(∅ : Table fun _ => Bytes).insert [1] [2], none⟩, false⟩
    let calls : List (DbCall Unit) := [.txnBegin, .erase [1] true, .existsKey [1]]
    (runDb step db calls).2 = [.status true, .status true, .status true] ∧
      (runDb TxMap.step db.toTxMap calls).2 = [.status true, .status true, .status false] := by
  decide +kernel

end TxDb

end HoboNickels

import Mathlib

/-!
# A key-value store with an optional write batch

A store has a committed table and, while a transaction is open, a batch of puts and deletes. Reads
look in the batch first and fall back on the table; a commit applies the batch in order, an abort
drops it. Values depend on their key, so one store can hold records of several kinds.

A read sees exactly the table the batch would produce (`lookup_view`), writes change the view at one
key, and the committed table is left alone until `txnCommit`.
-/

namespace WriteBatch

open Finmap Finset

variable {K : Type} {V : K → Type}

abbrev Table (V : K → Type) := Finmap V

inductive Op (V : K → Type) where
  | put (k : K) (v : V k)
  | delete (k : K)

structure Store (V : K → Type) where
  committed : Table V
  activeBatch : Option (List (Op V))

namespace Store

def txnBegin (s : Store V) : Store V := { s with activeBatch := some [] }

def txnAbort (s : Store V) : Store V := { s with activeBatch := none }

@[simp] theorem committed_txnAbort (s : Store V) : s.txnAbort.committed = s.committed := rfl

end Store

variable [DecidableEq K]

def Op.applyTo (t : Table V) : Op V → Table V
  | .put k v => t.insert k v
  | .delete k => t.erase k

/-- Scanning past one operation: `none` means not mentioned, `some none` deleted, `some (some v)`
written. -/
def Op.scan (k : K) (found : Option (Option (V k))) : Op V → Option (Option (V k))
  | .put k' v => if h : k' = k then some (some (h ▸ v)) else found
  | .delete k' => if k' = k then some none else found

def scanBatch (batch : List (Op V)) (k : K) : Option (Option (V k)) :=
  batch.foldl (Op.scan k) none

def applyBatch (t : Table V) (batch : List (Op V)) : Table V :=
  batch.foldl Op.applyTo t

namespace Store

variable (s : Store V)

def read (k : K) : Option (V k) :=
  match s.activeBatch with
  | none => s.committed.lookup k
  | some b =>
    match scanBatch b k with
    | some r => r
    | none => s.committed.lookup k

def doOp (op : Op V) : Store V :=
  match s.activeBatch with
  | none => { s with committed := op.applyTo s.committed }
  | some b => { s with activeBatch := some (b ++ [op]) }

def put (k : K) (v : V k) : Store V := s.doOp (.put k v)

def delete (k : K) : Store V := s.doOp (.delete k)

def txnCommit : Store V :=
  { committed := applyBatch s.committed (s.activeBatch.getD []), activeBatch := none }

def view : Table V := applyBatch s.committed (s.activeBatch.getD [])

end Store

/-! ## Reads see the view -/

theorem lookup_applyTo (t : Table V) (op : Op V) (k : K) :
    (op.applyTo t).lookup k = ((Op.scan k none op).getD (t.lookup k)) := by
  cases op with
  | put k' v =>
    by_cases h : k' = k
    · subst h; simp [Op.applyTo, Op.scan]
    · simp [Op.applyTo, Op.scan, h, lookup_insert_of_ne _ (Ne.symm h)]
  | delete k' =>
    by_cases h : k' = k
    · subst h; simp [Op.applyTo, Op.scan]
    · simp [Op.applyTo, Op.scan, h, lookup_erase_ne (Ne.symm h)]

variable (s : Store V) (k : K)

theorem scan_getD (found : Option (Option (V k))) (op : Op V) (d : Option (V k)) :
    (Op.scan k found op).getD d = (Op.scan k none op).getD (found.getD d) := by
  cases op with
  | put k' v => by_cases h : k' = k <;> simp [Op.scan, h]
  | delete k' => by_cases h : k' = k <;> simp [Op.scan, h]

theorem lookup_applyBatch (t : Table V) (b : List (Op V)) (k : K) :
    (applyBatch t b).lookup k = (scanBatch b k).getD (t.lookup k) := by
  -- Generalise the answer found so far: it is what the table already shows.
  have key : ∀ (b : List (Op V)) (t t0 : Table V) (found : Option (Option (V k))),
      t.lookup k = found.getD (t0.lookup k) →
      (applyBatch t b).lookup k = (b.foldl (Op.scan k) found).getD (t0.lookup k) := by
    intro b
    induction b with
    | nil => intro t t0 found h; simpa [applyBatch] using h
    | cons op b ih =>
      intro t t0 found h
      refine ih (op.applyTo t) t0 (Op.scan k found op) ?_
      rw [lookup_applyTo, h]
      exact (scan_getD k found op _).symm
  exact key b t t none rfl

theorem lookup_view : s.view.lookup k = s.read k := by
  unfold Store.view Store.read
  rw [lookup_applyBatch]
  cases s.activeBatch with
  | none => simp [scanBatch]
  | some b => cases h : scanBatch b k <;> simp [h]

theorem view_doOp (op : Op V) : (s.doOp op).view = op.applyTo s.view := by
  unfold Store.doOp Store.view
  cases h : s.activeBatch with
  | none => simp [applyBatch]
  | some b => simp [applyBatch, List.foldl_append]

@[simp] theorem view_put (v : V k) : (s.put k v).view = s.view.insert k v := view_doOp s (.put k v)

@[simp] theorem view_delete : (s.delete k).view = s.view.erase k := view_doOp s (.delete k)

@[simp] theorem read_put_self (v : V k) : (s.put k v).read k = some v := by
  rw [← lookup_view, view_put, lookup_insert]

theorem read_put_of_ne {k k' : K} (v : V k) (h : k' ≠ k) : (s.put k v).read k' = s.read k' := by
  rw [← lookup_view, ← lookup_view, view_put, lookup_insert_of_ne _ h]

@[simp] theorem read_delete_self : (s.delete k).read k = none := by
  rw [← lookup_view, view_delete, lookup_erase]

theorem read_delete_of_ne {k k' : K} (h : k' ≠ k) : (s.delete k).read k' = s.read k' := by
  rw [← lookup_view, ← lookup_view, view_delete, lookup_erase_ne h]

@[simp] theorem read_txnBegin : s.txnBegin.read k = s.committed.lookup k := by
  simp [Store.txnBegin, Store.read, scanBatch]

@[simp] theorem committed_txnCommit : s.txnCommit.committed = s.view := rfl

theorem doOp_open {s : Store V} (h : s.activeBatch.isSome) (op : Op V) :
    (s.doOp op).committed = s.committed ∧ (s.doOp op).activeBatch.isSome := by
  obtain ⟨b, hb⟩ := Option.isSome_iff_exists.mp h
  simp [Store.doOp, hb]

theorem lookup_txnCommit : s.txnCommit.committed.lookup k = s.read k := by
  rw [committed_txnCommit, lookup_view]

/-! ## Sums over the records of a table -/

section Sum

variable (g : (k : K) → V k → ℤ)

def tableSum (t : Table V) : ℤ := ∑ k ∈ t.keys, (t.lookup k).elim 0 (g k)

def recordSum (t : Table V) (k : K) : ℤ := (t.lookup k).elim 0 (g k)

variable {t : Table V}

theorem recordSum_of_notMem {k : K} (h : k ∉ t.keys) : recordSum g t k = 0 := by
  have : t.lookup k = none := by
    rw [lookup_eq_none]; exact h
  simp [recordSum, this]

theorem tableSum_eq_of_subset {S : Finset K} (h : t.keys ⊆ S) :
    tableSum g t = ∑ k ∈ S, recordSum g t k := by
  refine sum_subset h fun k _ hk => ?_
  exact recordSum_of_notMem g hk

theorem tableSum_insert (t : Table V) (k : K) (v : V k) :
    tableSum g (t.insert k v) = tableSum g t - recordSum g t k + g k v := by
  have hsub : (t.insert k v).keys ⊆ insert k t.keys := by
    intro a ha
    simpa [mem_keys] using ha
  have hdiff : ∑ a ∈ t.keys.erase k, recordSum g (t.insert k v) a
      = ∑ a ∈ t.keys.erase k, recordSum g t a := by
    refine sum_congr rfl fun a ha => ?_
    have hne : a ≠ k := ne_of_mem_erase ha
    simp only [recordSum, lookup_insert_of_ne _ hne]
  have hself : recordSum g (t.insert k v) k = g k v := by simp [recordSum]
  have hsplit : ∀ u : Table V, ∑ a ∈ insert k t.keys, recordSum g u a
      = recordSum g u k + ∑ a ∈ t.keys.erase k, recordSum g u a := by
    intro u
    have : insert k t.keys = insert k (t.keys.erase k) := by
      ext a; by_cases ha : a = k <;> simp [ha]
    rw [this, sum_insert (notMem_erase k _)]
  rw [tableSum_eq_of_subset g hsub,
    tableSum_eq_of_subset g (subset_insert k t.keys), hsplit, hsplit]
  omega

/-- Tables have the same sum if one embeds into the other and the other records count nothing. -/
theorem tableSum_embed {K' : Type} {V' : K' → Type} [DecidableEq K'] (f : K' ↪ K)
    {g : (k : K) → V k → ℤ} {g' : (k : K') → V' k → ℤ} {t' : Table V'}
    (hrecord : ∀ k', recordSum g t (f k') = recordSum g' t' k')
    (hother : ∀ k, (∀ k', f k' ≠ k) → recordSum g t k = 0) : tableSum g t = tableSum g' t' := by
  have hsub : t'.keys.map f ⊆ t.keys ∪ t'.keys.map f := subset_union_right
  have hzero : ∀ k ∈ t.keys ∪ t'.keys.map f, k ∉ t'.keys.map f → recordSum g t k = 0 := by
    intro k _ hk
    by_cases hf : ∃ k', f k' = k
    · obtain ⟨k', rfl⟩ := hf
      rw [hrecord]
      apply recordSum_of_notMem
      intro hk'
      exact hk (mem_map_of_mem f hk')
    · apply hother
      intro k' hk'
      exact hf ⟨k', hk'⟩
  calc tableSum g t = ∑ k ∈ t.keys ∪ t'.keys.map f, recordSum g t k :=
        tableSum_eq_of_subset g subset_union_left
    _ = ∑ k ∈ t'.keys.map f, recordSum g t k := (sum_subset hsub hzero).symm
    _ = ∑ k' ∈ t'.keys, recordSum g t (f k') := sum_map _ _ _
    _ = tableSum g' t' := sum_congr rfl fun k' _ => hrecord k'

end Sum

end WriteBatch

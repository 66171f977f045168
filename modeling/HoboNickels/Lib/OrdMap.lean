import Mathlib

/-!
# Ordered maps

A map with the order of its iteration: the entries in the order of their keys, each key once. It
stands for a `std::map` where a program walks over the map or looks at its first entry; a lookup
does not see the order.
-/

structure OrdMap (K V : Type) [LinearOrder K] where
  entries : List (K × V)
  sorted : entries.Pairwise (fun a b => a.1 < b.1)

namespace OrdMap

open List

variable {K V W : Type} [LinearOrder K]

def empty : OrdMap K V := ⟨[], List.Pairwise.nil⟩

def isEmpty (m : OrdMap K V) : Bool := m.entries.isEmpty

variable (m : OrdMap K V) (k : K)

def find? : Option V := m.entries.lookup k

def contains : Bool := (m.find? k).isSome

variable (m : OrdMap K V) (k : K) (v : V) (k' : K)

theorem lookup_cons_eq (e : K × V) (l : List (K × V)) :
    (e :: l).lookup k = if k = e.1 then some e.2 else l.lookup k := by
  by_cases h : k = e.1
  · subst h
    simp [lookup]
  · have hbeq : (k == e.1) = false := by simpa using h
    simp [lookup, hbeq, h]

theorem find?_cons (e : K × V) (l : List (K × V)) (h : (e :: l).Pairwise (fun a b => a.1 < b.1)) :
    find? ⟨e :: l, h⟩ k = if k = e.1 then some e.2 else find? ⟨l, h.of_cons⟩ k :=
  lookup_cons_eq k e l

def insertEntry (k : K) (v : V) : List (K × V) → List (K × V)
  | [] => [(k, v)]
  | e :: rest =>
    if k < e.1 then (k, v) :: e :: rest
    else if k = e.1 then (k, v) :: rest
    else e :: insertEntry k v rest

theorem mem_insertEntry {k : K} {v : V} {l : List (K × V)} {e : K × V}
    (h : e ∈ insertEntry k v l) : e = (k, v) ∨ e ∈ l := by
  fun_induction insertEntry k v l with
  | case1 | case2 => simpa using h
  | case3 x rest _ _ => exact (mem_cons.mp h).imp_right (mem_cons_of_mem _)
  | case4 x rest _ _ ih =>
    rcases mem_cons.mp h with rfl | hin
    · exact .inr mem_cons_self
    · exact (ih hin).imp_right (mem_cons_of_mem _)

theorem sorted_insertEntry {l : List (K × V)} (h : l.Pairwise (fun a b => a.1 < b.1)) :
    (insertEntry k v l).Pairwise (fun a b => a.1 < b.1) := by
  fun_induction insertEntry k v l with
  | case1 => simp
  | case2 x rest hlt =>
    refine pairwise_cons.mpr ⟨?_, h⟩
    intro y hy
    rcases mem_cons.mp hy with rfl | hy
    · exact hlt
    · exact lt_trans hlt ((pairwise_cons.mp h).1 y hy)
  | case3 x rest _ heq =>
    obtain ⟨hx, hrest⟩ := pairwise_cons.mp h
    exact pairwise_cons.mpr ⟨fun y hy => heq ▸ hx y hy, hrest⟩
  | case4 x rest hnlt hne ih =>
    obtain ⟨hx, hrest⟩ := pairwise_cons.mp h
    refine pairwise_cons.mpr ⟨?_, ih hrest⟩
    intro y hy
    rcases mem_insertEntry hy with rfl | hy
    · exact lt_of_le_of_ne (not_lt.mp hnlt) (Ne.symm hne)
    · exact hx y hy

theorem lookup_insertEntry (l : List (K × V)) (k' : K) :
    (insertEntry k v l).lookup k' = if k' = k then some v else l.lookup k' := by
  fun_induction insertEntry k v l with
  | case1 | case2 => simp [lookup_cons_eq]
  | case3 x rest _ heq => by_cases h : k' = k <;> simp [lookup_cons_eq, ← heq, h]
  | case4 x rest _ hne ih =>
    rw [lookup_cons_eq, lookup_cons_eq, ih]
    by_cases hx : k' = x.1
    · have hk : x.1 ≠ k := fun h => hne h.symm
      simp [hx, hk]
    · simp [hx]

def insert (v : V) : OrdMap K V :=
  ⟨insertEntry k v m.entries, sorted_insertEntry k v m.sorted⟩

def erase : OrdMap K V :=
  ⟨m.entries.filter (fun e => e.1 != k), m.sorted.filter _⟩

def filter (m : OrdMap K V) (p : K × V → Bool) : OrdMap K V :=
  ⟨m.entries.filter p, m.sorted.filter _⟩

/-- Insertion that leaves an entry alone which is already there. -/
def insertNew (v : V) : OrdMap K V :=
  if m.contains k then m else m.insert k v

@[simp] theorem find?_empty : (empty : OrdMap K V).find? k = none := rfl

theorem find?_insert : (m.insert k v).find? k' = if k' = k then some v else m.find? k' :=
  lookup_insertEntry k v m.entries k'

theorem find?_erase : (m.erase k).find? k' = if k' = k then none else m.find? k' := by
  have hlookup : ∀ l : List (K × V), (l.filter (fun e => e.1 != k)).lookup k' =
      if k' = k then none else l.lookup k' := by
    intro l
    induction l with
    | nil => simp
    | cons x rest ih =>
      by_cases hx : x.1 = k
      · rw [filter_cons_of_neg (by simp [hx]), ih, lookup_cons_eq, hx]
        by_cases hk : k' = k <;> simp [hk]
      rw [filter_cons_of_pos (by simpa using hx), lookup_cons_eq, lookup_cons_eq, ih]
      by_cases hk : k' = x.1
      · simp [hk, hx]
      · simp [hk]
  exact hlookup m.entries

theorem mem_entries_iff {k : K} {v : V} : (k, v) ∈ m.entries ↔ m.find? k = some v := by
  have hmem : ∀ l : List (K × V), l.Pairwise (fun a b => a.1 < b.1) →
      ((k, v) ∈ l ↔ l.lookup k = some v) := by
    intro l hl
    induction l with
    | nil => simp
    | cons x rest ih =>
      obtain ⟨hx, hrest⟩ := pairwise_cons.mp hl
      obtain ⟨a, b⟩ := x
      rw [mem_cons, lookup_cons_eq]
      by_cases hk : k = a
      · have hnot : (k, v) ∉ rest := fun hin => absurd (hx _ hin) (by simp [hk])
        simp [hk, hk ▸ hnot, eq_comm]
      · simp [hk, ih hrest]
  exact hmem m.entries m.sorted

theorem find?_filter_eq_some (p : K × V → Bool) {k : K} {v : V} :
    (m.filter p).find? k = some v ↔ m.find? k = some v ∧ p (k, v) = true := by
  rw [← mem_entries_iff, ← mem_entries_iff]
  exact mem_filter

theorem find?_insertNew :
    (m.insertNew k v).find? k' = if k' = k then some ((m.find? k).getD v) else m.find? k' := by
  unfold insertNew contains
  split
  next hin =>
    obtain ⟨u, hu⟩ := Option.isSome_iff_exists.mp hin
    by_cases hk : k' = k
    · simp [hk, hu]
    · simp [hk]
  next hout =>
    rw [Option.not_isSome_iff_eq_none] at hout
    simp [find?_insert, hout]

theorem entries_insert : (m.insert k v).entries =
      m.entries.filter (fun e => e.1 < k) ++ (k, v) :: m.entries.filter (fun e => k < e.1) := by
  have habove : ∀ l : List (K × V), (∀ y ∈ l, k < y.1) →
      l.filter (fun e => e.1 < k) = [] ∧ l.filter (fun e => k < e.1) = l := by
    intro l hl
    rw [filter_eq_nil_iff, filter_eq_self]
    exact ⟨fun y hy => by simpa using (hl y hy).le, fun y hy => by simpa using hl y hy⟩
  have hinsert : ∀ l : List (K × V), l.Pairwise (fun a b => a.1 < b.1) → insertEntry k v l =
        l.filter (fun e => e.1 < k) ++ (k, v) :: l.filter (fun e => k < e.1) := by
    intro l hl
    fun_induction insertEntry k v l with
    | case1 => rfl
    | case2 x rest hlt =>
      obtain ⟨hsmall, hgreat⟩ := habove (x :: rest) (forall_mem_cons.mpr
        ⟨hlt, fun y hy => hlt.trans ((pairwise_cons.mp hl).1 y hy)⟩)
      rw [hsmall, hgreat, nil_append]
    | case3 x rest _ heq =>
      obtain ⟨hsmall, hgreat⟩ := habove rest (heq ▸ (pairwise_cons.mp hl).1)
      rw [filter_cons_of_neg (by simp [heq]), filter_cons_of_neg (by simp [heq]), hsmall, hgreat,
        nil_append]
    | case4 x rest hnlt hne ih =>
      have hlt : x.1 < k := lt_of_le_of_ne (not_lt.mp hnlt) (Ne.symm hne)
      rw [filter_cons_of_pos (by simpa using hlt),
        filter_cons_of_neg (by simpa using hlt.le), ih (pairwise_cons.mp hl).2, cons_append]
  exact hinsert m.entries m.sorted

theorem ext_find? {m m' : OrdMap K V} (h : ∀ k, m.find? k = m'.find? k) : m = m' := by
  have hperm : m.entries.Perm m'.entries := by
    rw [perm_ext_iff_of_nodup]
    · rintro ⟨k, v⟩
      rw [mem_entries_iff, mem_entries_iff, h k]
    · exact m.sorted.imp (fun hlt heq => (heq ▸ hlt).false)
    · exact m'.sorted.imp (fun hlt heq => (heq ▸ hlt).false)
  have heq : m.entries = m'.entries :=
    hperm.eq_of_pairwise (fun a b _ _ hab hba => absurd hab (lt_asymm hba)) m.sorted m'.sorted
  cases m
  cases m'
  cases heq
  rfl

theorem insert_eq_self_iff : m.insert k v = m ↔ m.find? k = some v := by
  constructor
  · intro h
    rw [← h, find?_insert, if_pos rfl]
  intro h
  apply ext_find?
  intro k'
  rw [find?_insert]
  split
  next hk => rw [hk, h]
  · rfl

theorem isEmpty_iff (m : OrdMap K V) : m.isEmpty = true ↔ ∀ k, m.find? k = none := by
  constructor
  · intro h k
    simp [find?, List.isEmpty_iff.mp h]
  intro h
  rw [isEmpty, List.isEmpty_iff, List.eq_nil_iff_forall_not_mem]
  rintro ⟨k, v⟩ hin
  rw [mem_entries_iff, h k] at hin
  cases hin

theorem find?_foldl_insert (f : K × V → W) (start : OrdMap K W) (k : K) :
    (m.entries.foldl (fun r e => r.insert e.1 (f e)) start).find? k =
      match m.find? k with
      | some v => some (f (k, v))
      | none => start.find? k := by
  have hloop : ∀ (l : List (K × V)) (start : OrdMap K W), l.Pairwise (fun a b => a.1 < b.1) →
      (l.foldl (fun r e => r.insert e.1 (f e)) start).find? k =
        match l.lookup k with
        | some v => some (f (k, v))
        | none => start.find? k := by
    intro l
    induction l with
    | nil => intro start _; rfl
    | cons x rest ih =>
      intro start hl
      obtain ⟨hx, hrest⟩ := pairwise_cons.mp hl
      obtain ⟨a, b⟩ := x
      rw [foldl_cons, ih _ hrest, lookup_cons_eq]
      by_cases hk : k = a
      · subst hk
        have hnone : rest.lookup k = none := by
          rw [lookup_eq_none_iff]
          intro e he
          simpa using (hx e he).ne
        simp [hnone, find?_insert]
      · simp [hk, find?_insert]
  exact hloop m.entries start m.sorted

end OrdMap

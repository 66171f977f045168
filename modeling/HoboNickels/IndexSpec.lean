import HoboNickels.ChainState

/-!
# What the transaction index is for

The abstract transaction index: a finite table with one record for every transaction of the main
chain, and in it one slot per output that is null or names the spender. A transaction is *connected*
by marking the slots of its inputs, which must be distinct unspent outputs, and adding its record
under a new id.

Connecting can be undone (`undo_connect`, `undoAll_connectAll`), and changes `unspentTotal`, the
value of all null slots, by the outputs created minus the outputs spent.
-/

namespace HoboNickels

open WriteBatch List CTxIndex Finmap CDiskTxPos

abbrev TxTable := Finmap (fun _ : Uint256 => CTxIndex)

structure PlacedTx where
  hash : Uint256
  inputs : List COutPoint
  pos : CDiskTxPos
  nOutputs : Nat
  deriving DecidableEq, Repr

namespace TxTable

def slot (I : TxTable) (o : COutPoint) : Option CDiskTxPos :=
  (I.lookup o.hash).bind (fun t => t.vSpent[o.n]?)

def mark (p : CDiskTxPos) (I : TxTable) (o : COutPoint) : TxTable :=
  match I.lookup o.hash with
  | none => I
  | some t => I.insert o.hash (t.setSpent o.n p)

def markAll (p : CDiskTxPos) (I : TxTable) (os : List COutPoint) : TxTable := os.foldl (mark p) I

variable (I : TxTable) (x : PlacedTx)

/-- The transaction may be connected: its id is new, it has a place, and its inputs are
distinct unspent outputs. -/
def Connectable : Prop :=
  I.lookup x.hash = none ∧ x.pos.isNull = false ∧ x.inputs.Nodup ∧
    ∀ o ∈ x.inputs, I.slot o = some CDiskTxPos.null

instance (I : TxTable) (x : PlacedTx) : Decidable (I.Connectable x) :=
  inferInstanceAs (Decidable (_ ∧ _ ∧ _ ∧ _))

def apply : TxTable :=
  (markAll x.pos I x.inputs).insert x.hash (CTxIndex.new x.pos x.nOutputs)

def connect : Option TxTable :=
  if I.Connectable x then some (I.apply x) else none

def connectAll (I : TxTable) (xs : List PlacedTx) : Option TxTable := xs.foldlM connect I

def undo : TxTable :=
  (markAll CDiskTxPos.null I x.inputs).erase x.hash

def undoAll (I : TxTable) (xs : List PlacedTx) : TxTable := xs.reverse.foldl undo I

def replay (blocks : List (List PlacedTx)) : Option TxTable := connectAll ∅ blocks.flatten

/-! ## Marking slots -/

variable {I J : TxTable} {o : COutPoint} {p q : CDiskTxPos} {x : PlacedTx}

theorem slot_eq_some :
    I.slot o = some p ↔ ∃ t, I.lookup o.hash = some t ∧ t.vSpent[o.n]? = some p := by
  exact Option.bind_eq_some_iff

theorem lookup_mark (p : CDiskTxPos) (I : TxTable) (o : COutPoint) (h : Uint256) :
    (I.mark p o).lookup h
      = if h = o.hash then (I.lookup h).map (fun t => t.setSpent o.n p) else I.lookup h := by
  unfold mark
  by_cases hh : h = o.hash
  · subst hh
    cases ht : I.lookup o.hash with
    | none => simp [ht]
    | some t => simp
  · rw [if_neg hh]
    cases I.lookup o.hash with
    | none => rfl
    | some t => exact lookup_insert_of_ne _ hh

variable {h : Uint256}

theorem lookup_mark_of_ne (hne : h ≠ o.hash) : (I.mark p o).lookup h = I.lookup h := by
  rw [lookup_mark, if_neg hne]

theorem slot_mark (o' : COutPoint) :
    (I.mark p o).slot o' = if o' = o then (I.slot o).map fun _ => p else I.slot o' := by
  unfold slot
  rw [lookup_mark]
  by_cases hh : o'.hash = o.hash
  · have hiff : o' = o ↔ o.n = o'.n := ⟨fun h => h ▸ rfl, fun hn => COutPoint.ext hh hn.symm⟩
    rw [if_pos hh, hh]
    cases I.lookup o.hash with
    | none => simp
    | some t =>
      by_cases hn : o.n = o'.n
      · simp [setSpent, hiff.mpr hn, getElem?_set', Function.const_def]
      · simp [setSpent, hiff, hn]
  · rw [if_neg hh, if_neg fun h : o' = o => hh (h ▸ rfl)]

def Canonical (I : TxTable) : Prop :=
  ∀ o p, I.slot o = some p → p.isNull = true → p = CDiskTxPos.null

theorem canonical_mark (hI : I.Canonical) (hp : p.isNull = false) : (I.mark p o).Canonical := by
  intro o' q hq hnull
  rw [slot_mark] at hq
  split at hq
  · obtain ⟨_, -, rfl⟩ := Option.map_eq_some_iff.mp hq
    rw [hp] at hnull
    cases hnull
  · exact hI o' q hq hnull

theorem mark_comm {o' : COutPoint} (hne : o' ≠ o) :
    (I.mark p o).mark q o' = (I.mark q o').mark p o := by
  apply ext_lookup
  intro h
  simp only [lookup_mark]
  by_cases h1 : h = o.hash
  · by_cases h2 : h = o'.hash
    · have hn : o.n ≠ o'.n := fun hn => hne (COutPoint.ext (h2.symm.trans h1) hn.symm)
      rw [if_pos h1, if_pos h2, if_pos h1, if_pos h2]
      cases I.lookup h with
      | none => rfl
      | some t =>
        have hset : (t.vSpent.set o.n p).set o'.n q = (t.vSpent.set o'.n q).set o.n p :=
          set_comm p q hn
        simp [setSpent, hset]
    · rw [if_neg h2, if_neg h2]
  · rw [if_neg h1, if_neg h1]

theorem mark_null_mark (h : I.slot o = some null) : (I.mark p o).mark null o = I := by
  obtain ⟨t, ht, hq⟩ := slot_eq_some.mp h
  apply ext_lookup
  intro x
  simp only [lookup_mark]
  by_cases hx : x = o.hash
  · subst hx
    obtain ⟨_, hget⟩ := List.getElem?_eq_some_iff.mp hq
    have hset : (t.vSpent.set o.n p).set o.n null = t.vSpent := by
      rw [List.set_set, ← hget, List.set_getElem_self]
    simp [ht, setSpent, hset]
  · simp [hx]

variable (os : List COutPoint) (xs : List PlacedTx)

theorem mark_markAll_comm (I : TxTable) (ho : o ∉ os) :
    (markAll p I os).mark q o = markAll p (I.mark q o) os := by
  induction os generalizing I with
  | nil => rfl
  | cons o' os ih =>
    rw [mem_cons, not_or] at ho
    change (markAll p (I.mark p o') os).mark q o = markAll p ((I.mark q o).mark p o') os
    rw [ih _ ho.2, mark_comm (Ne.symm ho.1).symm]

theorem slot_markAll (I : TxTable) :
    (markAll p I os).slot o = if o ∈ os then (I.slot o).map fun _ => p else I.slot o := by
  induction os generalizing I with
  | nil => rfl
  | cons o' os ih =>
    change (markAll p (I.mark p o') os).slot o = _
    rw [ih, slot_mark]
    by_cases hoo : o = o'
    · simp [hoo, Function.comp_def]
    · simp [hoo]

theorem markAll_null_markAll (I : TxTable) (hnd : os.Nodup)
    (hnull : (∀ o ∈ os, I.slot o = some null)) : markAll null (markAll p I os) os = I := by
  induction os generalizing I with
  | nil => rfl
  | cons o os ih =>
    obtain ⟨ho, hnd⟩ := nodup_cons.mp hnd
    change markAll null ((markAll p (I.mark p o) os).mark null o) os = I
    rw [mark_markAll_comm os _ ho, mark_null_mark (hnull o mem_cons_self)]
    exact ih I hnd fun o' ho' => hnull o' (mem_cons_of_mem o ho')

theorem pos_lookup_markAll (I : TxTable) :
    ((markAll p I os).lookup h).map pos = (I.lookup h).map pos := by
  induction os generalizing I with
  | nil => rfl
  | cons o os ih =>
    change ((markAll p (I.mark p o) os).lookup h).map pos = _
    rw [ih, lookup_mark]
    split
    · cases I.lookup h <;> rfl
    · rfl

theorem markAll_insert {t : CTxIndex} (I : TxTable) (hos : (∀ o ∈ os, o.hash ≠ h)) :
    markAll p (I.insert h t) os = (markAll p I os).insert h t := by
  induction os generalizing I with
  | nil => rfl
  | cons o os ih =>
    have ho : o.hash ≠ h := hos o mem_cons_self
    have hmark : mark p (I.insert h t) o = (I.mark p o).insert h t := by
      apply ext_lookup
      intro x
      by_cases hx : x = h
      · subst hx
        rw [lookup_mark_of_ne (Ne.symm ho), lookup_insert, lookup_insert]
      · rw [lookup_insert_of_ne _ hx, lookup_mark, lookup_mark, lookup_insert_of_ne _ hx]
    change markAll p (mark p (I.insert h t) o) os = _
    rw [hmark]
    exact ih _ fun o' ho' => hos o' (mem_cons_of_mem o ho')

theorem slot_apply (I : TxTable) (x : PlacedTx) (o : COutPoint) :
    (I.apply x).slot o = if o.hash = x.hash then (new x.pos x.nOutputs).vSpent[o.n]?
      else if o ∈ x.inputs then (I.slot o).map fun _ => x.pos else I.slot o := by
  split
  next ho =>
    rw [slot, apply, ho, lookup_insert]
    rfl
  next ho => rw [← slot_markAll, slot, slot, apply, lookup_insert_of_ne _ ho]

/-! ## Connecting and undoing -/

theorem connect_eq_some : I.connect x = some J ↔ I.Connectable x ∧ J = I.apply x := by
  rw [connect, Option.ite_none_right_eq_some, Option.some.injEq, eq_comm (b := J)]

theorem connectAll_cons {xs : List PlacedTx} :
    I.connectAll (x :: xs) = some J ↔ ∃ I1, I.connect x = some I1 ∧ I1.connectAll xs = some J := by
  unfold connectAll
  exact Option.bind_eq_some_iff

theorem connectAll_append {xs ys : List PlacedTx} : I.connectAll (xs ++ ys) = some J ↔
      ∃ I1, I.connectAll xs = some I1 ∧ I1.connectAll ys = some J := by
  unfold connectAll
  rw [foldlM_append]
  exact Option.bind_eq_some_iff

theorem Connectable.input_ne (h : I.Connectable x) : ∀ o ∈ x.inputs, o.hash ≠ x.hash := by
  obtain ⟨hnew, -, -, hnull⟩ := h
  intro o ho heq
  obtain ⟨t, ht, -⟩ := slot_eq_some.mp (hnull o ho)
  rw [heq, hnew] at ht
  cases ht

theorem undo_connect (h : I.connect x = some J) : J.undo x = I := by
  obtain ⟨hc, rfl⟩ := connect_eq_some.mp h
  have hne := hc.input_ne
  obtain ⟨hnew, -, hnd, hnull⟩ := hc
  unfold undo apply
  rw [markAll_insert _ _ hne, markAll_null_markAll _ _ hnd hnull]
  apply ext_lookup
  intro y
  by_cases hy : y = x.hash
  · subst hy
    rw [lookup_erase, hnew]
  · rw [lookup_erase_ne hy, lookup_insert_of_ne _ hy]

/-- **Disconnecting gives back the table as it was before connecting.** -/
theorem undoAll_connectAll (h : I.connectAll xs = some J) : J.undoAll xs = I := by
  induction xs generalizing I J with
  | nil =>
    cases h
    rfl
  | cons x xs ih =>
    obtain ⟨_, h1, h2⟩ := connectAll_cons.mp h
    have hback : J.undoAll (x :: xs) = (J.undoAll xs).undo x := by
      simp [undoAll, foldl_append]
    rw [hback, ih h2]
    exact undo_connect h1

theorem pos_lookup_connect (hJ : I.connect x = some J) (k : Uint256) :
    (J.lookup k).map pos = if k = x.hash then some x.pos else (I.lookup k).map pos := by
  obtain ⟨-, rfl⟩ := connect_eq_some.mp hJ
  unfold apply
  by_cases hk : k = x.hash
  · rw [if_pos hk, hk, lookup_insert]
    rfl
  · rw [if_neg hk, lookup_insert_of_ne _ hk, pos_lookup_markAll]

theorem isSome_lookup_connect (hJ : I.connect x = some J)
    (h : Uint256) : (J.lookup h).isSome ↔ (I.lookup h).isSome ∨ h = x.hash := by
  rw [← Option.isSome_map (f := pos), pos_lookup_connect hJ]
  split
  next heq => simp [heq]
  next hne => simp [hne]

theorem isSome_lookup_connectAll (hJ : I.connectAll xs = some J) :
    ((J.lookup h).isSome ↔ (I.lookup h).isSome ∨ h ∈ xs.map PlacedTx.hash) := by
  induction xs generalizing I J with
  | nil =>
    cases hJ
    simp
  | cons x xs ih =>
    obtain ⟨_, h1, h2⟩ := connectAll_cons.mp hJ
    rw [ih h2, isSome_lookup_connect h1, map_cons, mem_cons, or_assoc]

theorem slot_connect (hJ : I.connect x = some J) (hslot : J.slot o = some p) :
    (∃ q, I.slot o = some q) ∨ x.hash = o.hash ∧ o.n < x.nOutputs := by
  obtain ⟨⟨-, -, -, hnull⟩, rfl⟩ := connect_eq_some.mp hJ
  rw [slot_apply] at hslot
  split_ifs at hslot with ho hin
  · have hlt := (List.getElem?_eq_some_iff.mp hslot).1
    exact .inr ⟨ho.symm, by simpa [new] using hlt⟩
  · exact .inl ⟨_, hnull o hin⟩
  · exact .inl ⟨p, hslot⟩

theorem slot_connectAll (hJ : I.connectAll xs = some J)
    (hslot : J.slot o = some p) :
    (∃ q, I.slot o = some q) ∨ ∃ x ∈ xs, x.hash = o.hash ∧ o.n < x.nOutputs := by
  induction xs generalizing I J with
  | nil =>
    cases hJ
    exact .inl ⟨p, hslot⟩
  | cons x xs ih =>
    obtain ⟨_, h1, h2⟩ := connectAll_cons.mp hJ
    rcases ih h2 hslot with ⟨q, hq⟩ | ⟨y, hy, hout⟩
    · rcases slot_connect h1 hq with hold | hout
      · exact .inl hold
      · exact .inr ⟨x, mem_cons_self, hout⟩
    · exact .inr ⟨y, mem_cons_of_mem x hy, hout⟩

/-! ## Spent outputs -/

def Taken (I : TxTable) (o : COutPoint) : Prop := ∃ p, I.slot o = some p ∧ p.isNull = false

theorem taken_connect (h : I.connect x = some J)
    (o : COutPoint) : J.Taken o ↔ I.Taken o ∨ o ∈ x.inputs := by
  obtain ⟨hc, rfl⟩ := connect_eq_some.mp h
  have hne := hc.input_ne
  obtain ⟨hnew, hpos, -, hnull⟩ := hc
  unfold Taken
  rw [slot_apply]
  split_ifs with ho hin
  · -- the record is new: nothing in it is spent, and nothing could be spent from it before
    constructor
    · rintro ⟨p, hp, hpn⟩
      rw [eq_of_mem_replicate (mem_of_getElem? hp)] at hpn
      cases hpn
    rintro (⟨p, hp, -⟩ | hin)
    · obtain ⟨t, ht, -⟩ := slot_eq_some.mp hp
      rw [ho, hnew] at ht
      cases ht
    · exact absurd ho (hne o hin)
  · rw [hnull o hin]
    exact ⟨fun _ => .inr hin, fun _ => ⟨x.pos, rfl, hpos⟩⟩
  · exact ⟨.inl, fun h => h.resolve_right hin⟩

theorem taken_connectAll (hJ : I.connectAll xs = some J) :
    (J.Taken o ↔ I.Taken o ∨ o ∈ xs.flatMap PlacedTx.inputs) := by
  induction xs generalizing I J with
  | nil =>
    cases hJ
    simp
  | cons x xs ih =>
    obtain ⟨_, h1, h2⟩ := connectAll_cons.mp hJ
    rw [ih h2, taken_connect h1, flatMap_cons, mem_append, or_assoc]

theorem not_taken_empty (o : COutPoint) : ¬ Taken ∅ o := by
  rintro ⟨p, hp, -⟩
  obtain ⟨t, ht, -⟩ := slot_eq_some.mp hp
  cases ht

theorem canonical_connect (h : I.connect x = some J) (hI : I.Canonical) : J.Canonical := by
  obtain ⟨hc, rfl⟩ := connect_eq_some.mp h
  intro o p hp hnull
  rw [slot_apply] at hp
  split_ifs at hp
  · exact eq_of_mem_replicate (mem_of_getElem? hp)
  · obtain ⟨_, -, rfl⟩ := Option.map_eq_some_iff.mp hp
    rw [hc.2.1] at hnull
    cases hnull
  · exact hI o p hp hnull

theorem canonical_connectAll (h : I.connectAll xs = some J) (hI : I.Canonical) :
    J.Canonical := by
  induction xs generalizing I J with
  | nil =>
    cases h
    exact hI
  | cons x xs ih =>
    obtain ⟨_, h1, h2⟩ := connectAll_cons.mp h
    exact ih h2 (canonical_connect h1 hI)

theorem canonical_empty : Canonical ∅ := by
  intro o p hp
  obtain ⟨t, ht, -⟩ := slot_eq_some.mp hp
  cases ht

theorem Connectable.not_taken (h : I.Connectable x) : ∀ o ∈ x.inputs, ¬ I.Taken o := by
  rintro o ho ⟨p, hp, hpn⟩
  rw [h.2.2.2 o ho] at hp
  cases hp
  cases hpn

/-- **No output is spent twice** by the transactions that have been connected. -/
theorem nodup_inputs_connectAll : ∀ {I J : TxTable}, I.connectAll xs = some J →
      (xs.flatMap PlacedTx.inputs).Nodup ∧ ∀ o ∈ xs.flatMap PlacedTx.inputs, ¬ I.Taken o := by
  induction xs with
  | nil =>
    simp
  | cons x xs ih =>
    intro I J h
    obtain ⟨_, h1, h2⟩ := connectAll_cons.mp h
    obtain ⟨hc, -⟩ := connect_eq_some.mp h1
    obtain ⟨hnd, hlater⟩ := ih h2
    constructor
    · refine nodup_append.mpr ⟨hc.2.2.1, hnd, ?_⟩
      rintro o hox _ hoxs rfl
      exact hlater o hoxs ((taken_connect h1 o).mpr (.inr hox))
    intro o ho htaken
    rcases mem_append.mp ho with hox | hoxs
    · exact hc.not_taken o hox htaken
    · exact hlater o hoxs ((taken_connect h1 o).mpr (.inl htaken))

end TxTable

/-! ## The value of the unspent outputs -/

section Value

-- the value of an output, by the place of its transaction and its number there
variable (value : CDiskTxPos → Nat → Int)

def CTxIndex.unspentValue (t : CTxIndex) : Int :=
  ∑ n ∈ (Finset.range t.vSpent.length).filter (fun n => t.isUnspent n), value t.pos n

theorem CTxIndex.unspentValue_new (pos : CDiskTxPos) (k : Nat) :
    (new pos k).unspentValue value = ∑ n ∈ Finset.range k, value pos n := by
  have hall : (Finset.range (new pos k).vSpent.length).filter
      (fun n => (new pos k).isUnspent n) = Finset.range k := by
    ext n
    simp only [new, isUnspent, length_replicate, Finset.mem_filter,
      Finset.mem_range, and_iff_left_iff_imp]
    intro hn
    rw [getElem?_replicate, if_pos hn]
    rfl
  unfold unspentValue
  rw [hall]
  rfl

variable {p : CDiskTxPos}

theorem CTxIndex.unspentValue_setSpent {t : CTxIndex} {n : Nat}
    (hnull : t.vSpent[n]? = some null) (hp : p.isNull = false) :
    (t.setSpent n p).unspentValue value = t.unspentValue value - value t.pos n := by
  have hlt : n < t.vSpent.length := (List.getElem?_eq_some_iff.mp hnull).1
  have hset : (Finset.range (t.setSpent n p).vSpent.length).filter
        (fun m => (t.setSpent n p).isUnspent m)
      = ((Finset.range t.vSpent.length).filter (fun m => t.isUnspent m)).erase n := by
    ext m
    rw [Finset.mem_filter, length_setSpent]
    by_cases hm : m = n
    · subst hm
      simp [isUnspent_setSpent_self p hlt, hp]
    · rw [isUnspent_setSpent_of_ne p hm]
      simp [hm]
  have hmem : n ∈ (Finset.range t.vSpent.length).filter (fun m => t.isUnspent m) := by
    refine Finset.mem_filter.mpr ⟨Finset.mem_range.mpr hlt, ?_⟩
    rw [isUnspent, hnull]
    rfl
  unfold unspentValue
  rw [hset, Finset.sum_erase_eq_sub hmem]
  rfl

namespace TxTable

def unspentTotal (I : TxTable) : Int := tableSum (fun _ t => t.unspentValue value) I

def outputValue (I : TxTable) (o : COutPoint) : Int :=
  (I.lookup o.hash).elim 0 (fun t => value t.pos o.n)

variable {value}

theorem outputValue_mark (p : CDiskTxPos) (I : TxTable) (o o' : COutPoint) :
    (I.mark p o).outputValue value o' = I.outputValue value o' := by
  unfold outputValue
  rw [lookup_mark]
  split
  · cases I.lookup o'.hash <;> rfl
  · rfl

theorem unspentTotal_mark {I : TxTable} {o : COutPoint}
    (hnull : I.slot o = some null) (hp : p.isNull = false) :
    (I.mark p o).unspentTotal value = I.unspentTotal value - I.outputValue value o := by
  obtain ⟨t, ht, hslot⟩ := slot_eq_some.mp hnull
  have hmark : I.mark p o = I.insert o.hash (t.setSpent o.n p) := by rw [mark, ht]
  have hrecord : recordSum (fun _ t => t.unspentValue value) I o.hash = t.unspentValue value := by
    simp [recordSum, ht]
  have hvalue : I.outputValue value o = value t.pos o.n := by
    simp [outputValue, ht]
  unfold unspentTotal
  rw [hmark, tableSum_insert, unspentValue_setSpent value hslot hp]
  omega

theorem unspentTotal_markAll (hp : p.isNull = false) (os : List COutPoint) :
    ∀ I : TxTable, os.Nodup → (∀ o ∈ os, I.slot o = some null) →
      (markAll p I os).unspentTotal value
        = I.unspentTotal value - (os.map (I.outputValue value)).sum := by
  induction os with
  | nil =>
    simp [markAll]
  | cons o os ih =>
    intro I hnd hnull
    obtain ⟨ho, hnd⟩ := nodup_cons.mp hnd
    have hrest : ∀ o' ∈ os, (I.mark p o).slot o' = some null := by
      intro o' ho'
      have hne : o' ≠ o := by
        rintro rfl
        exact ho ho'
      rw [slot_mark, if_neg hne]
      exact hnull o' (mem_cons_of_mem o ho')
    have hvalues : os.map ((I.mark p o).outputValue value) = os.map (I.outputValue value) :=
      map_congr_left fun o' _ => outputValue_mark p I o o'
    change (markAll p (I.mark p o) os).unspentTotal value = _
    rw [ih _ hnd hrest, hvalues, unspentTotal_mark (hnull o mem_cons_self) hp, map_cons, sum_cons]
    omega

/-- **Connecting a transaction** changes the unspent total by what it creates minus what it
spends. -/
theorem unspentTotal_connect {I J : TxTable} {x : PlacedTx} (h : I.connect x = some J) :
    J.unspentTotal value = I.unspentTotal value - (x.inputs.map (I.outputValue value)).sum
      + ∑ n ∈ Finset.range x.nOutputs, value x.pos n := by
  obtain ⟨⟨hnew, hpos, hnd, hnull⟩, rfl⟩ := connect_eq_some.mp h
  have habsent : (markAll x.pos I x.inputs).lookup x.hash = none := by
    rw [← Option.map_eq_none_iff (f := pos), pos_lookup_markAll, hnew]
    rfl
  have hrecord : recordSum (fun _ t => t.unspentValue value) (markAll x.pos I x.inputs) x.hash
      = 0 := by
    simp [recordSum, habsent]
  have htotal : (markAll x.pos I x.inputs).unspentTotal value
      = I.unspentTotal value - (x.inputs.map (I.outputValue value)).sum :=
    unspentTotal_markAll hpos x.inputs I hnd hnull
  unfold unspentTotal at htotal ⊢
  unfold apply
  rw [tableSum_insert, unspentValue_new]
  omega

end TxTable

end Value

end HoboNickels

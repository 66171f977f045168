import Mathlib

/-!
# Chains of parent links

Nodes with an optional parent form a forest once every node carries a rank that is one more than its
parent's. `chainFrom` lists a node and its ancestors; the chain of a member is a suffix, and ranks
strictly decrease along it.

`nextIn path` are the *forward* links along a path. Cutting a path back and growing it again is a
sequence of single link updates, which produce exactly the forward links of the new path.
-/

namespace ParentChain

open List

variable {α : Type}

def walk (parent : α → Option α) : ℕ → α → List α
  | 0, a => [a]
  | fuel + 1, a =>
    match parent a with
    | none => [a]
    | some p => a :: walk parent fuel p

/-- Every node of the domain has its parent in the domain, one rank below; a node without a
parent has rank zero. -/
structure Ranked (dom : α → Prop) (parent : α → Option α) (rank : α → ℕ) : Prop where
  dom_parent : ∀ {a p}, dom a → parent a = some p → dom p
  rank_parent : ∀ {a p}, dom a → parent a = some p → rank a = rank p + 1
  rank_root : ∀ {a}, dom a → parent a = none → rank a = 0

def chainFrom (parent : α → Option α) (rank : α → ℕ) (a : α) : List α :=
  walk parent (rank a) a

variable {a : α} {b : α}

section Ranked

variable {dom : α → Prop} {parent : α → Option α} {rank : α → ℕ}

theorem chainFrom_parent (R : Ranked dom parent rank) {p : α} (ha : dom a)
    (hp : parent a = some p) :
    chainFrom parent rank a = a :: chainFrom parent rank p := by
  have hr : rank a = rank p + 1 := R.rank_parent ha hp
  rw [chainFrom, hr]
  simp only [walk, hp]
  rfl

theorem chainFrom_root (R : Ranked dom parent rank) (ha : dom a)
    (hp : parent a = none) : chainFrom parent rank a = [a] := by
  rw [chainFrom, R.rank_root ha hp]
  rfl

theorem Ranked.induct (R : Ranked dom parent rank) {P : α → Prop}
    (root : ∀ a, dom a → parent a = none → P a)
    (step : ∀ a p, dom a → parent a = some p → P p → P a) : ∀ a, dom a → P a := by
  have key : ∀ n a, dom a → rank a = n → P a := by
    intro n
    induction n with
    | zero =>
      intro a ha hr
      cases hp : parent a with
      | none => exact root a ha hp
      | some p =>
        have := R.rank_parent ha hp
        omega
    | succ n ih =>
      intro a ha hr
      cases hp : parent a with
      | none => exact root a ha hp
      | some p =>
        have hrp := R.rank_parent ha hp
        exact step a p ha hp (ih p (R.dom_parent ha hp) (by omega))
  intro a ha
  exact key (rank a) a ha rfl

theorem head_chainFrom (parent : α → Option α) (rank : α → ℕ) (a : α) :
    ∃ l, chainFrom parent rank a = a :: l := by
  unfold chainFrom
  cases rank a with
  | zero => exact ⟨[], rfl⟩
  | succ n =>
    simp only [walk]
    cases parent a with
    | none => exact ⟨[], rfl⟩
    | some p => exact ⟨_, rfl⟩

section

variable (R : Ranked dom parent rank)
include R

theorem dom_of_mem_chainFrom (ha : dom a) (hb : b ∈ chainFrom parent rank a) : dom b := by
  revert hb
  refine R.induct (P := fun a => b ∈ chainFrom parent rank a → dom b) ?_ ?_ a ha
  · intro a ha hp hb
    rw [chainFrom_root R ha hp, mem_singleton] at hb
    exact hb ▸ ha
  intro a p ha hp ih hb
  rw [chainFrom_parent R ha hp, mem_cons] at hb
  rcases hb with rfl | hb
  · exact ha
  · exact ih hb

theorem chainFrom_suffix (ha : dom a) (hb : b ∈ chainFrom parent rank a) :
    chainFrom parent rank b <:+ chainFrom parent rank a := by
  revert hb
  refine R.induct (P := fun a => b ∈ chainFrom parent rank a →
    chainFrom parent rank b <:+ chainFrom parent rank a) ?_ ?_ a ha
  · intro a ha hp hb
    rw [chainFrom_root R ha hp, mem_singleton] at hb
    subst hb
    exact suffix_refl _
  intro a p ha hp ih hb
  have hcons := chainFrom_parent R ha hp
  rw [hcons, mem_cons] at hb
  rcases hb with rfl | hb
  · exact suffix_refl _
  · rw [hcons]
    exact (ih hb).trans (suffix_cons _ _)

theorem length_chainFrom (ha : dom a) : (chainFrom parent rank a).length = rank a + 1 := by
  refine R.induct (P := fun a => (chainFrom parent rank a).length = rank a + 1) ?_ ?_ a ha
  · intro a ha hp
    rw [chainFrom_root R ha hp, R.rank_root ha hp]
    rfl
  · intro a p ha hp ih
    rw [chainFrom_parent R ha hp, R.rank_parent ha hp, length_cons, ih]

theorem rank_le_of_mem_chainFrom (ha : dom a)
    (hb : b ∈ chainFrom parent rank a) : rank b ≤ rank a := by
  have hlen := (chainFrom_suffix R ha hb).length_le
  rw [length_chainFrom R ha, length_chainFrom R (dom_of_mem_chainFrom R ha hb)] at hlen
  omega

theorem mem_chainFrom_of_rank_le {c : α} (ha : dom a)
    (hb : b ∈ chainFrom parent rank a) (hc : c ∈ chainFrom parent rank a)
    (hle : rank c ≤ rank b) : c ∈ chainFrom parent rank b := by
  have hlen : (chainFrom parent rank c).length ≤ (chainFrom parent rank b).length := by
    rw [length_chainFrom R (dom_of_mem_chainFrom R ha hb),
      length_chainFrom R (dom_of_mem_chainFrom R ha hc)]
    omega
  have hsuffix := suffix_of_suffix_length_le (chainFrom_suffix R ha hc)
    (chainFrom_suffix R ha hb) hlen
  obtain ⟨l, hl⟩ := head_chainFrom parent rank c
  rw [hl] at hsuffix
  exact hsuffix.subset mem_cons_self

theorem pairwise_rank (ha : dom a) :
    (chainFrom parent rank a).Pairwise (fun x y => rank y < rank x) := by
  refine R.induct (P := fun a => (chainFrom parent rank a).Pairwise
    (fun x y => rank y < rank x)) ?_ ?_ a ha
  · intro a ha hp
    rw [chainFrom_root R ha hp]
    exact pairwise_singleton _ _
  intro a p ha hp ih
  rw [chainFrom_parent R ha hp, pairwise_cons]
  refine ⟨fun b hb => ?_, ih⟩
  have h1 := rank_le_of_mem_chainFrom R (R.dom_parent ha hp) hb
  have h2 := R.rank_parent ha hp
  omega

theorem isChain_parent (ha : dom a) :
    (chainFrom parent rank a).IsChain (fun x y => parent x = some y) := by
  refine R.induct (P := fun a => (chainFrom parent rank a).IsChain
    (fun x y => parent x = some y)) ?_ ?_ a ha
  · intro a ha hp
    rw [chainFrom_root R ha hp]
    exact List.IsChain.singleton _
  intro a p ha hp ih
  rw [chainFrom_parent R ha hp]
  obtain ⟨l, hl⟩ := head_chainFrom parent rank p
  rw [hl] at ih ⊢
  exact IsChain.cons_cons hp ih

end

end Ranked

/-! ## Forward links along a path -/

def Sub (f g : α → Option α) : Prop := ∀ x y, f x = some y → g x = some y

theorem Sub.refl (f : α → Option α) : Sub f f := fun _ _ h => h

theorem Sub.trans {f g k : α → Option α} (h : Sub f g) (h' : Sub g k) : Sub f k :=
  fun x y hxy => h' x y (h x y hxy)

section Next

variable [DecidableEq α]

/-- The element of a path just before `x`: the successor of `x` on a path listed tip first. -/
def nextIn : List α → α → Option α
  | a :: b :: rest, x => if x = b then some a else nextIn (b :: rest) x
  | _, _ => none

def setNext (next : α → Option α) (x : α) (y : Option α) : α → Option α :=
  fun z => if z = x then y else next z

theorem nextIn_eq_none {path : List α} {x : α} (h : x ∉ path.tail) : nextIn path x = none := by
  induction path with
  | nil => rfl
  | cons a path ih =>
    cases path with
    | nil => rfl
    | cons b rest =>
      simp only [tail_cons, mem_cons, not_or] at h
      rw [nextIn, if_neg h.1]
      exact ih h.2

theorem isSome_nextIn {path : List α} {x : α} : (nextIn path x).isSome ↔ x ∈ path.tail := by
  constructor
  · intro h
    by_contra hx
    rw [nextIn_eq_none hx] at h
    cases h
  intro h
  induction path with
  | nil => cases h
  | cons a path ih =>
    cases path with
    | nil => cases h
    | cons b rest =>
      rw [nextIn]
      by_cases hx : x = b
      · rw [if_pos hx]; rfl
      rw [if_neg hx]
      apply ih
      rw [tail_cons, mem_cons] at h
      exact h.resolve_left hx

theorem setNext_nextIn_cons (a b : α) (rest : List α) :
    setNext (nextIn (b :: rest)) b (some a) = nextIn (a :: b :: rest) := by
  funext z
  simp only [setNext, nextIn]

theorem setNext_nextIn_none {rest : List α} (h : b ∉ rest) :
    setNext (nextIn (a :: b :: rest)) b none = nextIn (b :: rest) := by
  funext z
  simp only [setNext, nextIn]
  by_cases hz : z = b
  · subst hz
    rw [if_pos rfl]
    exact (nextIn_eq_none (by simpa using h)).symm
  · rw [if_neg hz, if_neg hz]

/-- Cutting `cut` off the tip of a path; `up` gives the element each link is set at. -/
theorem foldl_unlink (up : α → α) {keep : List α} (hkeep : keep ≠ []) :
    ∀ cut : List α, (cut ++ keep).Nodup → (cut ++ keep).IsChain (fun x y => up x = y) →
      cut.foldl (fun next x => setNext next (up x) none) (nextIn (cut ++ keep)) = nextIn keep := by
  intro cut
  induction cut with
  | nil => intro _ _; rfl
  | cons x cut ih =>
    intro hnd hch
    obtain ⟨b, rest, hb⟩ : ∃ b rest, cut ++ keep = b :: rest := by
      cases hck : cut ++ keep with
      | nil => exact absurd (append_eq_nil_iff.mp hck).2 hkeep
      | cons b rest => exact ⟨b, rest, rfl⟩
    rw [cons_append] at hnd hch ⊢
    rw [foldl_cons]
    have hup : up x = b := by
      rw [hb] at hch
      exact (isChain_cons_cons.mp hch).1
    have htail : b ∉ rest := by
      have := (nodup_cons.mp hnd).2
      rw [hb] at this
      exact (nodup_cons.mp this).1
    rw [hup, hb, setNext_nextIn_none htail, ← hb]
    exact ih (nodup_cons.mp hnd).2 hch.of_cons

theorem foldl_link (up : α → α) {keep : List α} (hkeep : keep ≠ []) :
    ∀ add : List α, (add.reverse ++ keep).IsChain (fun x y => up x = y) →
      add.foldl (fun next x => setNext next (up x) (some x)) (nextIn keep)
        = nextIn (add.reverse ++ keep) := by
  intro add
  induction add generalizing keep with
  | nil => intro _; rfl
  | cons x add ih =>
    intro hch
    have heq : (x :: add).reverse ++ keep = add.reverse ++ (x :: keep) := by simp
    obtain ⟨b, _, rfl⟩ := exists_cons_of_ne_nil hkeep
    rw [heq] at hch ⊢
    rw [foldl_cons]
    have hup : up x = b :=
      (isChain_cons_cons.mp (hch.suffix (suffix_append _ _))).1
    rw [hup]
    exact ih (by simp) hch

theorem sub_setNext {f g : α → Option α} (h : Sub f g) (x : α) (y : Option α) :
    Sub (setNext f x y) (setNext g x y) := by
  intro z v hz
  rw [setNext] at hz ⊢
  by_cases hzx : z = x
  · rwa [if_pos hzx] at hz ⊢
  · rw [if_neg hzx] at hz ⊢
    exact h z v hz

theorem sub_setNext_of_none {f g : α → Option α} (h : Sub f g) {x : α} (hx : f x = none)
    (y : Option α) : Sub f (setNext g x y) := by
  intro z v hz
  have hne : z ≠ x := by
    rintro rfl
    rw [hx] at hz
    cases hz
  rw [setNext, if_neg hne]
  exact h z v hz

theorem sub_nextIn_append {add keep : List α} (h : (add ++ keep).Nodup) :
    Sub (nextIn keep) (nextIn (add ++ keep)) := by
  induction add with
  | nil => exact Sub.refl _
  | cons a add ih =>
    rw [cons_append] at h ⊢
    have hnd := (nodup_cons.mp h).2
    refine (ih hnd).trans ?_
    cases hrest : add ++ keep with
    | nil =>
      intro x y hx
      cases hx
    | cons b rest =>
      intro x y hx
      have hne : x ≠ b := by
        rintro rfl
        have hmem : x ∈ rest := isSome_nextIn.mp (by rw [hx]; rfl)
        rw [hrest] at hnd
        exact (nodup_cons.mp hnd).1 hmem
      rw [nextIn, if_neg hne]
      exact hx

end Next

end ParentChain

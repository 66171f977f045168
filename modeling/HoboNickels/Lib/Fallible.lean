import Mathlib

/-!
# Fallible computations

A validation routine is a chain of checks in `Except ε`, each of which passes or stops the routine,
and loops over such chains. `bind_eq_ok` peels off one statement of a successful run,
`require_eq_ok` reads a check back as the fact it established, and `foldlM_ok_induct` is the
invariant rule for a loop.
-/

namespace Fallible

open List

variable {ε α β σ : Type}

/-- A check that stops with the error `e` when the condition does not hold. -/
def require (c : Bool) (e : ε) : Except ε Unit :=
  if c then .ok () else .error e

variable {e : ε} {f : α → Except ε β} {l : List α} {P : ε → Prop}

@[simp] theorem require_eq_ok {c : Bool} {u : Unit} : require c e = .ok u ↔ c = true := by
  cases c <;> simp [require]

@[simp] theorem require_true (e : ε) : require true e = .ok () := rfl

@[simp] theorem require_false (e : ε) : require false e = .error e := rfl

theorem bind_eq_ok {x : Except ε α} {b : β} : (x >>= f) = .ok b ↔ ∃ a, x = .ok a ∧ f a = .ok b := by
  cases x with
  | error e => simp [bind, Except.bind]
  | ok a => simp [bind, Except.bind]

theorem map_eq_ok {x : Except ε α} {g : α → β} {b : β} :
    x.map g = .ok b ↔ ∃ a, x = .ok a ∧ g a = b := by
  cases x <;> simp [Except.map]

def demand (o : Option α) (e : ε) : Except ε α :=
  match o with
  | some a => .ok a
  | none => .error e

@[simp] theorem demand_eq_ok {o : Option α} {a : α} : demand o e = .ok a ↔ o = some a := by
  cases o <;> simp [demand]

theorem forM_eq_ok {f : α → Except ε Unit} {u : Unit} :
    l.forM f = .ok u ↔ ∀ a ∈ l, f a = .ok () := by
  induction l with
  | nil => simp [List.forM, pure, Except.pure]
  | cons a l ih =>
    change (f a >>= fun _ => l.forM f) = .ok u ↔ _
    rw [bind_eq_ok]
    constructor
    · rintro ⟨⟨⟩, ha, hl⟩ b hb
      rcases List.mem_cons.mp hb with rfl | hb
      · exact ha
      · exact ih.mp hl b hb
    · intro h
      exact ⟨(), h a List.mem_cons_self, ih.mpr fun b hb => h b (List.mem_cons_of_mem a hb)⟩

theorem mapM_eq_ok {l' : List β} : l.mapM f = .ok l' ↔ Forall₂ (fun a b => f a = .ok b) l l' := by
  induction l generalizing l' with
  | nil => simp [pure, Except.pure, eq_comm]
  | cons a l ih =>
    simp only [mapM_cons, bind_eq_ok, forall₂_cons_left_iff]
    constructor
    · rintro ⟨b, hb, bs, hbs, h⟩
      cases h
      exact ⟨b, bs, hb, ih.mp hbs, rfl⟩
    · rintro ⟨b, bs, hb, hbs, rfl⟩
      exact ⟨b, hb, bs, ih.mpr hbs, rfl⟩

theorem exists_of_mem_mapM {l' : List β}
    (h : l.mapM f = .ok l') {b : β} (hb : b ∈ l') : ∃ a ∈ l, f a = .ok b := by
  have hall := mapM_eq_ok.mp h
  clear h
  induction hall with
  | nil => simp at hb
  | @cons a b' l l' ha _ ih =>
    rcases mem_cons.mp hb with rfl | hb
    · exact ⟨a, by simp, ha⟩
    · obtain ⟨x, hx, hfx⟩ := ih hb
      exact ⟨x, by simp [hx], hfx⟩

variable {step : σ → α → Except ε σ}

/-- **Invariant rule for a fallible loop.** `P done s` relates the elements already processed to the
accumulator. -/
theorem foldlM_ok_induct (P : List α → σ → Prop)
    (body : ∀ done a s s', P done s → step s a = .ok s' → P (done ++ [a]) s') (l done : List α)
    (s s' : σ) (hP : P done s) (h : l.foldlM step s = .ok s') : P (done ++ l) s' := by
  induction l generalizing done s s' with
  | nil =>
    cases h
    simpa using hP
  | cons a l ih =>
    obtain ⟨s1, h1, h2⟩ := bind_eq_ok.mp h
    have := ih (done ++ [a]) s1 s' (body done a s s1 hP h1) h2
    simpa using this

def Errs (P : ε → Prop) (x : Except ε α) : Prop := ∀ e, x = .error e → P e

theorem errs_ok (a : α) : Errs P (.ok a : Except ε α) := by
  intro e h
  cases h

theorem errs_error (h : P e) : Errs P (.error e : Except ε α) := by
  rintro _ ⟨⟩
  exact h

theorem errs_require {c : Bool} (h : P e) : Errs P (require c e) := by
  cases c
  · exact errs_error h
  · exact errs_ok ()

theorem errs_demand {o : Option α} (h : o = none → P e) : Errs P (demand o e) := by
  cases o with
  | none => exact errs_error (h rfl)
  | some a => exact errs_ok a

theorem errs_bind {x : Except ε α} (hx : Errs P x)
    (hf : ∀ a, x = .ok a → Errs P (f a)) : Errs P (x >>= f) := by
  cases x with
  | error e => exact errs_error (hx e rfl)
  | ok a => exact hf a rfl

theorem errs_forM {f : α → Except ε Unit} (h : ∀ a ∈ l, Errs P (f a)) : Errs P (l.forM f) := by
  induction l with
  | nil => exact errs_ok ()
  | cons a l ih =>
    refine errs_bind (h a mem_cons_self) fun _ _ => ?_
    exact ih fun b hb => h b (mem_cons_of_mem a hb)

theorem errs_foldlM (I : σ → Prop)
    (hstep : ∀ s, ∀ a ∈ l, I s → Errs P (step s a) ∧ ∀ s', step s a = .ok s' → I s') :
    ∀ s, I s → Errs P (l.foldlM step s) := by
  induction l with
  | nil => exact fun s _ => errs_ok s
  | cons a l ih =>
    intro s hs
    obtain ⟨herrs, hkeep⟩ := hstep s a mem_cons_self hs
    refine errs_bind herrs fun s' hs' => ?_
    exact ih (fun s b hb => hstep s b (mem_cons_of_mem a hb)) s' (hkeep s' hs')

end Fallible

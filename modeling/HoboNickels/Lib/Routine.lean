import Mathlib

/-!
# Routines that may throw

A routine works on a state and ends by returning a value or by throwing. An exception undoes
nothing: the caller is left with the state at the throw. `Triple P x Q E` says that from a state
with `P` the routine `x` either returns, with `Q`, or throws, with `E`; the rules follow the way a
routine is put together, and `triple_each` is the invariant rule for a loop over a list.
-/

namespace Throwing

variable {σ ε α β : Type}

def Routine (σ ε α : Type) : Type := σ → σ × Except ε α

namespace Routine

def ret (a : α) : Routine σ ε α := fun s => (s, .ok a)

def andThen (x : Routine σ ε α) (f : α → Routine σ ε β) : Routine σ ε β := fun s =>
  match x s with
  | (s', .ok a) => f a s'
  | (s', .error e) => (s', .error e)

instance : Monad (Routine σ ε) where
  pure := ret
  bind := andThen

def ask (f : σ → Except ε α) : Routine σ ε α := fun s => (s, f s)

/-- A step that throws, if it does, before it has changed anything. -/
def atomically (f : σ → Except ε σ) : Routine σ ε Unit := fun s =>
  match f s with
  | .ok s' => (s', .ok ())
  | .error e => (s, .error e)

def each (f : β → Routine σ ε Unit) : List β → Routine σ ε Unit
  | [] => ret ()
  | b :: rest => do f b; each f rest

end Routine

open Routine

/-- From a state with `P`, the routine returns with `Q` or throws with `E`. -/
def Triple (P : σ → Prop) (x : Routine σ ε α) (Q : α → σ → Prop) (E : σ → Prop) : Prop :=
  ∀ s, P s →
    match x s with
    | (s', .ok a) => Q a s'
    | (s', .error _) => E s'

variable {P P' E E' : σ → Prop} {x : Routine σ ε α} {Q Q' : α → σ → Prop}

theorem triple_conseq (hx : Triple P' x Q' E') (hP : ∀ s, P s → P' s)
    (hQ : ∀ a s, Q' a s → Q a s) (hE : ∀ s, E' s → E s) : Triple P x Q E := by
  intro s hs
  have h := hx s (hP s hs)
  rcases hrun : x s with ⟨s', e | a⟩
  · rw [hrun] at h
    exact hE s' h
  · rw [hrun] at h
    exact hQ a s' h

theorem Triple.final {R : σ → Prop} (hx : Triple P x (fun _ => R) R) {s : σ} (hs : P s) :
    R (x s).1 := by
  have h := hx s hs
  rcases hrun : x s with ⟨_, e | a⟩
  · rw [hrun] at h
    exact h
  · rw [hrun] at h
    exact h

theorem Triple.returns (hx : Triple P x Q fun _ => False) {s : σ} (hs : P s) :
    ∃ a s', x s = (s', .ok a) ∧ Q a s' := by
  have h := hx s hs
  rcases hrun : x s with ⟨s', e | a⟩
  · rw [hrun] at h
    exact h.elim
  · rw [hrun] at h
    exact ⟨a, s', rfl, h⟩

theorem triple_ret {a : α} (h : ∀ s, P s → Q a s) : Triple P (pure a : Routine σ ε α) Q E := h

theorem triple_bind {f : α → Routine σ ε β} {R : β → σ → Prop} (hx : Triple P x Q E)
    (hf : ∀ a, Triple (Q a) (f a) R E) : Triple P (x >>= f) R E := by
  intro s hs
  have h := hx s hs
  change match andThen x f s with
    | (s', .ok b) => R b s'
    | (s', .error _) => E s'
  unfold andThen
  rcases hrun : x s with ⟨s', e | a⟩
  · rw [hrun] at h
    exact h
  · rw [hrun] at h
    exact hf a s' h

theorem triple_ask {f : σ → Except ε α} (hok : ∀ s a, P s → f s = .ok a → Q a s)
    (herr : ∀ s e, P s → f s = .error e → E s) : Triple P (ask f) Q E := by
  intro s hs
  unfold ask
  rcases hrun : f s with e | a
  · exact herr s e hs hrun
  · exact hok s a hs hrun

theorem triple_atomically {f : σ → Except ε σ} {Q : σ → Prop}
    (hok : ∀ s s', P s → f s = .ok s' → Q s') (herr : ∀ s e, P s → f s = .error e → E s) :
    Triple P (atomically f) (fun _ => Q) E := by
  intro s hs
  unfold atomically
  rcases hrun : f s with e | s'
  · exact herr s e hs hrun
  · exact hok s s' hs hrun

theorem triple_atomically_ok {f : σ → Except ε σ} {Q : σ → Prop}
    (h : ∀ s, P s → ∃ s', f s = .ok s' ∧ Q s') : Triple P (atomically f) (fun _ => Q) E := by
  refine triple_atomically (fun s s' hs hok => ?_) fun s e hs herr => ?_
  · obtain ⟨_, hok', hQ⟩ := h s hs
    rw [hok] at hok'
    cases hok'
    exact hQ
  · obtain ⟨s', hok, -⟩ := h s hs
    rw [herr] at hok
    cases hok

variable {f : β → Routine σ ε Unit}

/-- **Invariant rule for a loop.** `I done s` relates the elements already processed to the
state. -/
theorem triple_each (I : List β → σ → Prop) {l : List β}
    (body : ∀ done b, b ∈ l → Triple (I done) (f b) (fun _ => I (done ++ [b])) E) :
    Triple (I []) (each f l) (fun _ => I l) E := by
  suffices h : ∀ rest done, rest ⊆ l →
      Triple (I done) (each f rest) (fun _ => I (done ++ rest)) E from
    h l [] (List.Subset.refl l)
  intro rest
  induction rest with
  | nil =>
    intro done _
    refine triple_ret fun s hs => ?_
    rwa [List.append_nil]
  | cons b rest ih =>
    intro done hsub
    refine triple_bind (body done b (hsub List.mem_cons_self)) fun _ => ?_
    have hrest := ih (done ++ [b]) fun c hc => hsub (List.mem_cons_of_mem b hc)
    rwa [List.append_assoc] at hrest

theorem each_eq_self {l : List β} {s : σ}
    (h : ∀ b ∈ l, f b s = (s, .ok ())) : each f l s = (s, .ok ()) := by
  induction l with
  | nil => rfl
  | cons b rest ih =>
    change andThen (f b) (fun _ => each f rest) s = _
    rw [andThen, h b List.mem_cons_self]
    exact ih fun c hc => h c (List.mem_cons_of_mem b hc)

end Throwing

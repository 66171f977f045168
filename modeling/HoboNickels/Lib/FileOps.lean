import Mathlib

/-!
# File operations that can fail

A volume maps paths to contents. The surroundings may make any operation fail or kill the program
before it; a recursive removal that is interrupted has removed some of the files.

`run` executes operations under a list of faults and stops at the first failure: an invariant rule
(`run_induct`), a frame rule (`run_files`), sequencing (`run_append`), and the endings without
failures (`run_no_fail`). A file put in place by a rename carries a mark, which no operation reads.
-/

namespace FileOps

open List Option

variable {P C : Type} [DecidableEq P]

structure Volume (P C : Type) where
  files : P → Option C
  moved : P → Bool

inductive Op (P C : Type) where
  | remove (p : P)
  | removeAll (under : P → Bool)
  | createDirectories (p : P)
  | rename (src dst : P)
  | write (p : P) (c : C)

/-- What the surroundings do to an operation. An interrupted operation has reached the paths in
`reached`. -/
inductive Fault (P : Type) where
  | none
  | fail (reached : P → Bool)
  | kill (reached : P → Bool)

inductive Ending where
  | done
  | threw
  | killed
  deriving DecidableEq, Repr

namespace Volume

def drop (v : Volume P C) (under : P → Bool) : Volume P C where
  files := fun p => if under p then none else v.files p
  moved := fun p => if under p then false else v.moved p

def put (v : Volume P C) (p : P) (c : C) (mark : Bool) : Volume P C where
  files := Function.update v.files p (some c)
  moved := Function.update v.moved p mark

end Volume

namespace Op

def apply : Op P C → Volume P C → Option (Volume P C)
  | remove p, v => if (v.files p).isSome then some (v.drop (fun q => decide (q = p))) else none
  | removeAll under, v => some (v.drop under)
  | createDirectories _, v => some v
  | rename src dst, v =>
    match v.files src with
    | none => none
    | some c => some ((v.drop (fun q => decide (q = src))).put dst c true)
  | write p c, v => some (v.put p c false)

/-- The effect of an operation that did not complete. -/
def interrupt (reached : P → Bool) : Op P C → Volume P C → Volume P C
  | removeAll under, v => v.drop (fun p => under p && reached p)
  | write p c, v => if reached p then v.put p c false else v
  | _, v => v

def touches : Op P C → P → Prop
  | remove p, q => q = p
  | removeAll under, q => under q = true
  | createDirectories _, _ => False
  | rename src dst, q => q = src ∨ q = dst
  | write p _, q => q = p

theorem apply_frame {op : Op P C} {v v' : Volume P C} {q : P} (hq : ¬ op.touches q)
    (h : op.apply v = some v') : v'.files q = v.files q ∧ v'.moved q = v.moved q := by
  revert h
  fun_cases apply op v with
  | case1 p | case3 under | case7 p c =>
    rintro ⟨⟩
    simp only [touches] at hq
    simp [Volume.drop, Volume.put, hq]
  | case4 =>
    rintro ⟨⟩
    exact ⟨rfl, rfl⟩
  | case6 src dst =>
    rintro ⟨⟩
    simp only [touches, not_or] at hq
    simp [Volume.drop, Volume.put, hq.1, hq.2]
  | _ => nofun

theorem interrupt_frame {op : Op P C} (v : Volume P C) (reached : P → Bool) {q : P}
    (hq : ¬ op.touches q) : (op.interrupt reached v).files q = v.files q ∧
      (op.interrupt reached v).moved q = v.moved q := by
  fun_cases interrupt reached op v with
  | case1 =>
    simp only [touches] at hq
    simp [Volume.drop, hq]
  | case2 =>
    simp only [touches] at hq
    simp [Volume.put, hq]
  | _ => exact ⟨rfl, rfl⟩

end Op

/-! ## Sequences -/

def run : List (Op P C) → List (Fault P) → Volume P C → Ending × Volume P C
  | [], _, v => (.done, v)
  | op :: rest, faults, v =>
    match faults.headD .none with
    | .none =>
      match op.apply v with
      | some v' => run rest faults.tail v'
      | none => (.threw, v)
    | .fail reached => (.threw, op.interrupt reached v)
    | .kill reached => (.killed, op.interrupt reached v)

/-- **Invariant rule.** What every operation keeps, complete or interrupted, the whole sequence
keeps. -/
theorem run_induct (I : Volume P C → Prop) (ops : List (Op P C)) (faults : List (Fault P))
    (v : Volume P C) (happly : ∀ op ∈ ops, ∀ v v', I v → op.apply v = some v' → I v')
    (hinterrupt : ∀ op ∈ ops, ∀ v reached, I v → I (op.interrupt reached v)) (hv : I v) :
    I (run ops faults v).2 := by
  fun_induction run ops faults v with
  | case1 | case3 => exact hv
  | case2 op rest faults v _ v' hv' ih =>
    rw [forall_mem_cons] at happly hinterrupt
    exact ih happly.2 hinterrupt.2 (happly.1 v v' hv hv')
  | case4 op rest faults v reached | case5 op rest faults v reached =>
    exact hinterrupt op mem_cons_self v reached hv

variable {ops : List (Op P C)} {faults : List (Fault P)} {v v' : Volume P C}

/-- **Frame rule.** A path that no operation touches keeps its file and its mark. -/
theorem run_files (faults : List (Fault P)) (v : Volume P C) {q : P}
    (hq : ∀ op ∈ ops, ¬ op.touches q) :
    (run ops faults v).2.files q = v.files q ∧ (run ops faults v).2.moved q = v.moved q := by
  apply run_induct (fun v' => v'.files q = v.files q ∧ v'.moved q = v.moved q)
  · intro op hop v1 v2 hv1 h
    obtain ⟨hf, hm⟩ := Op.apply_frame (hq op hop) h
    exact ⟨hf.trans hv1.1, hm.trans hv1.2⟩
  · intro op hop v1 reached hv1
    obtain ⟨hf, hm⟩ := Op.interrupt_frame v1 reached (hq op hop)
    exact ⟨hf.trans hv1.1, hm.trans hv1.2⟩
  · exact ⟨rfl, rfl⟩

theorem run_append (ops1 ops2 : List (Op P C)) (faults : List (Fault P)) (v : Volume P C) :
    run (ops1 ++ ops2) faults v =
      match run ops1 faults v with
      | (.done, v') => run ops2 (faults.drop ops1.length) v'
      | r => r := by
  fun_induction run ops1 faults v with
  | case1 => rfl
  | case2 op rest faults v hfault v' hv' ih =>
    rw [cons_append, run, hfault, hv', length_cons, ← drop_tail]
    exact ih
  | case3 op rest faults v hfault hv' => rw [cons_append, run, hfault, hv']
  | case4 op rest faults v _ hfault | case5 op rest faults v _ hfault =>
    rw [cons_append, run, hfault]

theorem run_done (h : run ops faults v = (.done, v')) : run ops [] v = (.done, v') := by
  fun_induction run ops faults v with
  | case1 => exact h
  | case2 op rest faults v _ v1 hv1 ih =>
    rw [run, headD_nil, hv1]
    exact ih h
  | _ => cases h

/-- **Without failures** a sequence that finds what it needs is done or killed. -/
theorem run_no_fail (hfaults : ∀ f ∈ faults, ∀ reached, f ≠ .fail reached)
    (h : run ops [] v = (.done, v')) :
    run ops faults v = (.done, v') ∨ (run ops faults v).1 = .killed := by
  fun_induction run ops faults v with
  | case1 => exact .inl h
  | case2 op rest faults v _ v1 hv1 ih =>
    rw [run, headD_nil, hv1] at h
    exact ih (fun f hf => hfaults f (mem_of_mem_tail hf)) h
  | case3 op rest faults v _ hv1 =>
    rw [run, headD_nil, hv1] at h
    cases h
  | case4 op rest faults v reached hfault =>
    rcases faults with _ | ⟨f, faults⟩
    · cases hfault
    · exact absurd hfault (hfaults f mem_cons_self reached)
  | case5 => exact .inr rfl

theorem run_no_kill (ops : List (Op P C)) (v : Volume P C)
    (hfaults : ∀ f ∈ faults, ∀ reached, f ≠ .kill reached) : (run ops faults v).1 ≠ .killed := by
  fun_induction run ops faults v with
  | case2 op rest faults v _ v1 _ ih => exact ih fun f hf => hfaults f (mem_of_mem_tail hf)
  | case5 op rest faults v reached hfault =>
    rcases faults with _ | ⟨f, faults⟩
    · cases hfault
    · exact absurd hfault (hfaults f mem_cons_self reached)
  | _ => nofun

/-- A removal at the end of a sequence is its last effect: unless the sequence is done, the file
is as it was. -/
theorem run_remove_last {p : P}
    (hops : ∀ op ∈ ops, ¬ op.touches p) (h : (run (ops ++ [.remove p]) faults v).1 ≠ .done) :
    (run (ops ++ [.remove p]) faults v).2.files p = v.files p := by
  have hframe := (run_files faults v hops).1
  rw [run_append] at h ⊢
  rcases hfirst : run ops faults v with ⟨ending, v'⟩
  rw [hfirst] at h hframe
  cases ending with
  | done =>
    revert h
    dsimp only
    rw [run]
    split
    · split
      · exact fun h => absurd rfl h
      · exact fun _ => hframe
    · exact fun _ => hframe
    · exact fun _ => hframe
  | threw => exact hframe
  | killed => exact hframe

theorem run_moved (hops : ∀ op ∈ ops, ∀ src dst, op ≠ .rename src dst)
    (faults : List (Fault P)) {p : P} (h : v.moved p = false) :
    (run ops faults v).2.moved p = false := by
  apply run_induct (fun v => v.moved p = false)
  · intro op hop v1 v2 hv1
    fun_cases Op.apply op v1 with
    | case1 | case3 =>
      rintro ⟨⟩
      simp [Volume.drop, hv1]
    | case4 =>
      rintro ⟨⟩
      exact hv1
    | case6 src dst => exact absurd rfl (hops _ hop src dst)
    | case7 q =>
      rintro ⟨⟩
      by_cases hq : p = q <;> simp [Volume.put, hq, hv1]
    | _ => nofun
  · intro op hop v1 reached hv1
    fun_cases Op.interrupt reached op v1 with
    | case1 => simp [Volume.drop, hv1]
    | case2 q => by_cases hq : p = q <;> simp [Volume.put, hq, hv1]
    | _ => exact hv1
  · exact h

end FileOps

import HoboNickels.Agreement
import HoboNickels.ProcessBlock
import HoboNickels.TreeFrame

/-!
# Buffered blocks are not stranded

When `DrainBufferedBlocks` returns `false`, no buffered block should have its parent in the index.
The walk over the buffer finds every block that hangs on an entry of its work queue (`Covered`), and
a drain starts from the best block. Nothing is lost as long as whatever can be connected between two
calls hangs on the best block (`drained_not_stranded`). That fails when a batch that ends early
drops its work queue (`fork_stranded`), when `AcceptBlock` fails and leaves the block in the index,
and when `ProcessBlock` moves the best block away from a parent with buffered children.
-/

namespace HoboNickels

open Fallible WriteBatch ParentChain List SyncNode OrphanBlocks

variable {env : Env} {w wPending : World}
variable {n : SyncNode env} {b : CBlock} {q : List Uint256} {calls : Nat → BufferCall}
variable {r : Except Fail Unit}

namespace SyncNode

/-! ## Coverage -/

variable (n)

def Covered (parents : List Uint256) : Prop :=
  ∀ x ∈ n.orphans.mapOrphanBlocks, (n.chain.mapBlockIndex x.hashPrevBlock).isSome = true →
    x.hashPrevBlock ∈ parents

/-- Whatever can be connected hangs on the best block, from which the next drain starts. -/
def Resumable : Prop := n.Covered [n.chain.hashBestChain]

/-- If `AcceptBlock` fails on `b`, it does not add `b` to the index, or no child of `b` is
buffered. -/
def FailsCleanly (w wPending : World) (b : CBlock) : Prop :=
  let hash := env.scryptBlockhash b.toCBlockHeader
  let result := n.toNode.acceptBlock env w wPending b
  result.2 = .ok () ∨ (n.chain.mapBlockIndex hash).isSome = true ∨
    result.1.chain.mapBlockIndex hash = none ∨
    ∀ x ∈ n.orphans.mapOrphanBlocks, x.hashPrevBlock ≠ hash

/-- If `AcceptBlock` moves the best block, the children of the old one are still to be visited, or
none but `b` is buffered. -/
def LeavesTip (w wPending : World) (vWorkQueue : List Uint256) (b : CBlock) : Prop :=
  let result := n.toNode.acceptBlock env w wPending b
  result.1.chain.hashBestChain = n.chain.hashBestChain ∨ n.chain.hashBestChain ∈ vWorkQueue ∨
    ∀ x ∈ n.orphans.mapOrphanBlocks, x ≠ b → x.hashPrevBlock ≠ n.chain.hashBestChain

def CutOk (vWorkQueue : List Uint256) : Prop :=
  ∀ x ∈ n.orphans.mapOrphanBlocks, x.hashPrevBlock ∈ vWorkQueue →
    x.hashPrevBlock = n.chain.hashBestChain

variable {n}

variable {o : OrphanBlocks env}

theorem covered_of_acceptBlock {n1 : Node} {parents parents1 : List Uint256}
    (hcov : n.Covered parents) (hfail : n.FailsCleanly w wPending b)
    (haccept : n.toNode.acceptBlock env w wPending b = (n1, r))
    (hsub : ∀ x ∈ o.mapOrphanBlocks, x ∈ n.orphans.mapOrphanBlocks)
    (hparents : ∀ x ∈ o.mapOrphanBlocks, x.hashPrevBlock ∈ parents → x.hashPrevBlock ∈ parents1)
    (hok : r = .ok () → env.scryptBlockhash b.toCBlockHeader ∈ parents1) :
    Covered ⟨n1, o⟩ parents1 := by
  intro x hx hidx
  by_cases hbefore : (n.chain.mapBlockIndex x.hashPrevBlock).isSome = true
  · exact hparents x hx (hcov x (hsub x hx) hbefore)
  -- the parent is the accepted block
  have hb : x.hashPrevBlock = env.scryptBlockhash b.toCBlockHeader := by
    obtain ⟨p, hp⟩ := Option.isSome_iff_exists.mp hidx
    rcases Node.acceptBlock_grows haccept _ p hp with hold | ⟨_, _, _, hnew, hkey⟩
    · simp [hold] at hbefore
    · rw [hkey, (ChainState.newBlockIndex_ok hnew).1]
  unfold FailsCleanly at hfail
  simp only [haccept] at hfail
  rcases hfail with hr | hknown | hnone | hchild
  · rw [hb]
    exact hok hr
  · rw [hb] at hbefore
    exact absurd hknown hbefore
  · rw [hb, hnone] at hidx
    cases hidx
  · exact absurd hb (hchild x (hsub x hx))

/-! ## The walk -/

variable {q1 : List Uint256}

theorem nextOrphan_eq_some : ∀ {q : List Uint256}, n.nextOrphan q = some (q1, b) →
      b ∈ n.orphans.mapOrphanBlocksByPrev ∧ b.hashPrevBlock ∈ q1 ∧ ∀ x ∈ n.orphans.mapOrphanBlocks,
        x.hashPrevBlock ∈ q → x.hashPrevBlock ∈ q1 := by
  intro q
  induction q with
  | nil => rintro ⟨⟩
  | cons _ q ih =>
    intro h
    rw [nextOrphan] at h
    split at h
    next hfind =>
      cases h
      have hkey := find?_some hfind
      refine ⟨mem_of_find?_eq_some hfind, ?_, fun x _ hx => hx⟩
      rw [beq_iff_eq.mp hkey]
      exact mem_cons_self
    next hfind =>
      obtain ⟨hbuffered, hmem, hrest⟩ := ih h
      refine ⟨hbuffered, hmem, ?_⟩
      intro x hx hq
      rcases mem_cons.mp hq with heq | hq
      · have hnone := find?_eq_none.mp hfind x (n.orphans.byPrev x hx)
        simp [heq] at hnone
      · exact hrest x hx hq

theorem nextOrphan_eq_none : ∀ {q : List Uint256}, n.nextOrphan q = none →
      ∀ x ∈ n.orphans.mapOrphanBlocks, x.hashPrevBlock ∉ q := by
  intro q
  induction q with
  | nil =>
    simp
  | cons hashPrev q ih =>
    intro h x hx hq
    rw [nextOrphan] at h
    split at h
    · cases h
    rename_i hfind
    rcases mem_cons.mp hq with heq | hq
    · have hnone := find?_eq_none.mp hfind x (n.orphans.byPrev x hx)
      simp [heq] at hnone
    · exact ih h x hx hq

/-- Every call of `AcceptBlock` in the walk meets `ok`; and where the batch ends early, the work
queue may be dropped. -/
inductive WalkOk (ok : SyncNode env → BufferCall → List Uint256 → CBlock → Prop)
    (calls : Nat → BufferCall) : Nat → List Uint256 → SyncNode env → Prop
  | full {q : List Uint256} {n : SyncNode env} (hcut : n.CutOk q) : WalkOk ok calls 0 q n
  | done {nLeft : Nat} {q : List Uint256} {n : SyncNode env} (hnext : n.nextOrphan q = none) :
      WalkOk ok calls (nLeft + 1) q n
  | cut {nLeft : Nat} {q q₁ q₂ : List Uint256} {b : CBlock} {n n₁ : SyncNode env}
      {thrown : Option String} (hnext : n.nextOrphan q = some (q₁, b))
      (hcall : ok n (calls nLeft) q₁ b)
      (hconn : n.connectOrphan (calls nLeft) q₁ b = (n₁, q₂, thrown))
      (hends : thrown ≠ none ∨ (calls nLeft).fTimeUp = true) (hcut : n₁.CutOk q₂) :
      WalkOk ok calls (nLeft + 1) q n
  | next {nLeft : Nat} {q q₁ q₂ : List Uint256} {b : CBlock} {n n₁ : SyncNode env}
      (hnext : n.nextOrphan q = some (q₁, b)) (hcall : ok n (calls nLeft) q₁ b)
      (hconn : n.connectOrphan (calls nLeft) q₁ b = (n₁, q₂, none))
      (hgoes : (calls nLeft).fTimeUp = false) (hrest : WalkOk ok calls nLeft q₂ n₁) :
      WalkOk ok calls (nLeft + 1) q n

/-- The rule for the walk. The queue has been worked off if it returns `false`, and may be dropped
otherwise. -/
theorem processBufferedBlocks_induct {ok : SyncNode env → BufferCall → List Uint256 → CBlock → Prop}
    (P : SyncNode env → List Uint256 → Prop) (hskip : ∀ n q q1, P n q →
      (∀ x ∈ n.orphans.mapOrphanBlocks, x.hashPrevBlock ∈ q → x.hashPrevBlock ∈ q1) → P n q1)
    (hstep : ∀ n c q b n1 q1 thrown, P n q → b.hashPrevBlock ∈ q → ok n c q b →
      n.connectOrphan c q b = (n1, q1, thrown) → P n1 q1) :
    ∀ nLeft q n n' outcome, P n q → WalkOk ok calls nLeft q n →
      processBufferedBlocks calls nLeft q n = (n', outcome) →
      (outcome = .returned false ∧ P n' []) ∨
        (outcome ≠ .returned false ∧ ∃ q', P n' q' ∧ n'.CutOk q') := by
  intro nLeft q n n' outcome hP hok h
  induction hok with
  | full hcut =>
    cases h
    exact .inr ⟨by simp, _, hP, hcut⟩
  | done hnext =>
    simp only [processBufferedBlocks, hnext] at h
    cases h
    exact .inl ⟨rfl, hskip _ _ [] hP fun x hx hq => absurd hq (nextOrphan_eq_none hnext x hx)⟩
  | @cut _ _ _ _ _ _ _ thrown hnext hcall hconn hends hcut =>
    obtain ⟨-, hb, hdrop⟩ := nextOrphan_eq_some hnext
    have hP1 := hstep _ _ _ _ _ _ _ (hskip _ _ _ hP hdrop) hb hcall hconn
    simp only [processBufferedBlocks, hnext, hconn] at h
    cases thrown with
    | some message =>
      cases h
      exact .inr ⟨by simp, _, hP1, hcut⟩
    | none =>
      simp only [hends.resolve_left (by simp), if_true] at h
      cases h
      exact .inr ⟨by simp, _, hP1, hcut⟩
  | next hnext hcall hconn hgoes hrest ih =>
    obtain ⟨-, hb, hdrop⟩ := nextOrphan_eq_some hnext
    have hP1 := hstep _ _ _ _ _ _ _ (hskip _ _ _ hP hdrop) hb hcall hconn
    simp only [processBufferedBlocks, hnext, hconn, hgoes] at h
    exact ih hP1 h

theorem Covered.cut {parents : List Uint256} (hcov : n.Covered parents)
    (hparents : ∀ h ∈ parents, h = n.chain.hashBestChain ∨ h ∈ q) (hcut : n.CutOk q) :
    n.Resumable := by
  intro x hx hidx
  refine mem_singleton.mpr ?_
  rcases hparents _ (hcov x hx hidx) with htip | hq
  · exact htip
  · exact hcut x hx hq

theorem mem_of_mem_drop {x : CBlock} {f : Bool}
    (h : x ∈ (o.drop b f).mapOrphanBlocks) : x ∈ o.mapOrphanBlocks ∧ x ≠ b := by
  obtain ⟨hmem, hne⟩ := mem_filter.mp h
  refine ⟨hmem, ?_⟩
  rintro rfl
  simp at hne

theorem Covered.connectOrphan {n1 : SyncNode env} {c : BufferCall}
    {parents parents1 : List Uint256} {thrown : Option String}
    (hcov : n.Covered parents) (hfail : n.FailsCleanly c.w c.wPending b)
    (hb : b.hashPrevBlock ∈ q) (h : n.connectOrphan c q b = (n1, q1, thrown))
    (hq1 : ∀ h ∈ q1, h ∈ parents1)
    (hparents : ∀ x ∈ n.orphans.mapOrphanBlocks, x ≠ b → x.hashPrevBlock ∈ parents →
      x.hashPrevBlock ∈ q ∨ x.hashPrevBlock ∈ parents1) :
    n1.Covered parents1 := by
  have hmoves : ∀ {o : OrphanBlocks env},
      (∀ x ∈ o.mapOrphanBlocks, x ∈ n.orphans.mapOrphanBlocks) → (∀ h ∈ q, h ∈ q1) →
      ∀ x ∈ o.mapOrphanBlocks, x.hashPrevBlock ∈ parents → x.hashPrevBlock ∈ parents1 := by
    intro o hsub hq x hx hp
    by_cases hxb : x = b
    · rw [hxb]
      exact hq1 _ (hq _ hb)
    · rcases hparents x (hsub x hx) hxb hp with hin | hin
      · exact hq1 _ (hq _ hin)
      · exact hin
  have hdrop : ∀ x ∈ (n.orphans.drop b true).mapOrphanBlocks, x ∈ n.orphans.mapOrphanBlocks :=
    fun x hx => (mem_of_mem_drop hx).1
  unfold SyncNode.connectOrphan at h
  split at h
  next haccept =>
    cases h
    refine covered_of_acceptBlock hcov hfail haccept (fun x hx => hx)
      (hmoves (fun x hx => hx) (fun h hh => hh)) ?_
    rintro ⟨⟩
  next haccept =>
    cases h
    refine covered_of_acceptBlock hcov hfail haccept hdrop (hmoves hdrop (fun h hh => hh)) ?_
    rintro ⟨⟩
  next haccept =>
    cases h
    refine covered_of_acceptBlock hcov hfail haccept hdrop
      (hmoves hdrop (fun h hh => mem_append_left _ hh)) ?_
    intro _
    exact hq1 _ (by simp)

/-! ## DrainBufferedBlocks and ProcessBlock -/

def DrainOk (n : SyncNode env) (calls : Nat → BufferCall) : Prop :=
  WalkOk (fun n c _ b => n.FailsCleanly c.w c.wPending b) calls maxOrphanDrainBlocks
    [n.chain.hashBestChain] n

/-- The condition on a call of `ProcessBlock`. It concerns a block that reaches `AcceptBlock`,
and the walk from there. -/
def ProcessOk (n : SyncNode env) (w wPending : World) (calls : Nat → BufferCall) (b : CBlock) :
    Prop :=
  n.checkProcess w b = .ok () → (n.chain.mapBlockIndex b.hashPrevBlock).isSome = true →
    n.FailsCleanly w wPending b ∧ n.LeavesTip w wPending [] b ∧
    ∀ n₁, n.toNode.acceptBlock env w wPending b = (n₁, .ok ()) →
      WalkOk (fun n c q b => n.FailsCleanly c.w c.wPending b ∧ n.LeavesTip c.w c.wPending q b)
        calls maxOrphanDrainBlocks [env.scryptBlockhash b.toCBlockHeader] { n with toNode := n₁ }

theorem Resumable.drainBufferedBlocks {n' : SyncNode env}
    {outcome : Outcome} (hres : n.Resumable) (hok : n.DrainOk calls)
    (h : n.drainBufferedBlocks calls = (n', outcome)) :
    n'.Resumable ∧ (outcome = .returned false → n'.Covered []) := by
  have hdone : ∀ {n : SyncNode env}, n.Covered [] → n.Resumable :=
    fun hcov x hx hidx => absurd (hcov x hx hidx) not_mem_nil
  unfold SyncNode.drainBufferedBlocks at h
  split at h
  next hempty =>
    cases h
    have hcov : n.Covered [] := by
      intro x hx
      have hx' := n.orphans.byPrev x hx
      rw [isEmpty_iff.mp hempty] at hx'
      cases hx'
    exact ⟨hdone hcov, fun _ => hcov⟩
  · rcases processBufferedBlocks_induct (fun n q => n.Covered q)
      (fun n q q1 hcov hq x hx hidx => hq x hx (hcov x hx hidx))
      (fun n c q b n1 q1 thrown hcov hb hfail hconn =>
        hcov.connectOrphan hfail hb hconn (fun _ hh => hh) (fun _ _ _ hp => .inl hp))
      _ _ _ _ _ hres hok h with ⟨-, hcov⟩ | ⟨hne, q', hcov, hcut⟩
    · exact ⟨hdone hcov, fun _ => hcov⟩
    · exact ⟨hcov.cut (fun _ hh => .inr hh) hcut, fun heq => absurd heq hne⟩

theorem LeavesTip.parents {n1 : Node} (hleaves : n.LeavesTip w wPending q b)
    (haccept : n.toNode.acceptBlock env w wPending b = (n1, r)) :
    ∀ x ∈ n.orphans.mapOrphanBlocks, x ≠ b → x.hashPrevBlock ∈ n.chain.hashBestChain :: q →
      x.hashPrevBlock ∈ q ∨ x.hashPrevBlock = n1.chain.hashBestChain := by
  intro x hx hxb hp
  rcases mem_cons.mp hp with htip | hq
  · unfold LeavesTip at hleaves
    simp only [haccept] at hleaves
    rcases hleaves with hsame | hin | hnone
    · exact .inr (htip.trans hsame.symm)
    · rw [htip]
      exact .inl hin
    · exact absurd htip (hnone x hx hxb)
  · exact .inl hq

theorem toNode_connectOrphan {n1 : SyncNode env} {c : BufferCall}
    {thrown : Option String} (h : n.connectOrphan c q b = (n1, q1, thrown)) :
    ∃ r, n.toNode.acceptBlock env c.w c.wPending b = (n1.toNode, r) := by
  unfold connectOrphan at h
  split at h <;> rename_i haccept <;> cases h <;> exact ⟨_, haccept⟩

variable {rand : Nat → Uint256}

theorem mem_of_victim {randomhash : Uint256} (h : o.victim randomhash = some b) :
    b ∈ o.mapOrphanBlocks := by
  rcases Option.or_eq_some_iff.mp h with hfind | ⟨-, hhead⟩
  · exact mem_of_find?_eq_some hfind
  · exact mem_of_head? hhead

theorem limitOrphanBlocks_induct (P : OrphanBlocks env → Prop)
    (hdrop : ∀ o b, P o → b ∈ o.mapOrphanBlocks → P (o.drop b b.isProofOfStake))
    (nMaxOrphans : Nat) (rand : Nat → Uint256) (o : OrphanBlocks env) (ho : P o) :
    P (o.limitOrphanBlocks nMaxOrphans rand) := by
  have hevict : ∀ rounds (o : OrphanBlocks env), P o → P (evict nMaxOrphans rand rounds o) := by
    intro rounds
    induction rounds with
    | zero => exact fun _ ho => ho
    | succ rounds ih =>
      intro o ho
      rw [evict]
      split
      · split
        · exact ho
        next pevict hvictim => exact ih _ (hdrop o pevict ho (mem_of_victim hvictim))
      · exact ho
  exact hevict _ o ho

theorem Resumable.bufferBlock
    (hres : n.Resumable) (hprev : (n.chain.mapBlockIndex b.hashPrevBlock).isNone = true) :
    (n.bufferBlock rand b).1.Resumable := by
  unfold SyncNode.bufferBlock
  simp only
  split
  · exact hres
  intro x hx hidx
  have hadd := limitOrphanBlocks_induct
    (fun o => x ∈ o.mapOrphanBlocks → x ∈ (n.orphans.add b).mapOrphanBlocks)
    (fun _ _ ho _ hx => ho (mem_of_mem_drop hx).1) _ rand _ id hx
  rcases (mem_orderedInsert _).mp hadd with rfl | hold
  · rw [Option.isNone_iff_eq_none.mp hprev] at hidx
    cases hidx
  · exact hres x hold hidx

theorem Resumable.acceptAndConnect (hres : n.Resumable) (hfail : n.FailsCleanly w wPending b)
    (hleaves : n.LeavesTip w wPending [] b) (hnew : b ∉ n.orphans.mapOrphanBlocks)
    (hwalk : ∀ n1, n.toNode.acceptBlock env w wPending b = (n1, .ok ()) →
      WalkOk (fun n c q b => n.FailsCleanly c.w c.wPending b ∧ n.LeavesTip c.w c.wPending q b)
        calls maxOrphanDrainBlocks [env.scryptBlockhash b.toCBlockHeader] { n with toNode := n1 }) :
    (n.acceptAndConnect w wPending calls b).1.Resumable := by
  have hparents : ∀ {n1 : Node} {r : Except Fail Unit} {q1 : List Uint256},
      n.toNode.acceptBlock env w wPending b = (n1, r) → n1.chain.hashBestChain ∈ q1 →
      ∀ x ∈ n.orphans.mapOrphanBlocks, x.hashPrevBlock ∈ [n.chain.hashBestChain] →
        x.hashPrevBlock ∈ q1 := by
    intro n1 r q1 haccept htip x hx hp
    have hxb : x ≠ b := by
      rintro rfl
      exact hnew hx
    rcases hleaves.parents haccept x hx hxb hp with hnil | heq
    · cases hnil
    · rw [heq]
      exact htip
  unfold SyncNode.acceptAndConnect
  split
  case h_1 haccept | h_2 haccept =>
    exact covered_of_acceptBlock hres hfail haccept (fun _ hx => hx)
      (hparents haccept mem_cons_self) (by rintro ⟨⟩)
  rename_i n1 haccept
  have hstart : Covered { n with toNode := n1 }
      [n1.chain.hashBestChain, env.scryptBlockhash b.toCBlockHeader] :=
    covered_of_acceptBlock hres hfail haccept (fun _ hx => hx)
      (hparents haccept mem_cons_self) (fun _ => by simp)
  cases hbuf : processBufferedBlocks calls maxOrphanDrainBlocks
      [env.scryptBlockhash b.toCBlockHeader] { n with toNode := n1 } with
  | mk n2 outcome =>
    have hend : n2.Resumable := by
      -- during the walk, what can be connected hangs on the best block or on the work queue
      rcases processBufferedBlocks_induct (fun n q => n.Covered (n.chain.hashBestChain :: q))
        (fun n q q1 hcov hq x hx hidx =>
          (mem_cons.mp (hcov x hx hidx)).elim (fun htip => by simp [htip])
            fun hin => mem_cons_of_mem _ (hq x hx hin))
        (fun n c q b n1 q1 thrown hcov hb hcall hconn => by
          obtain ⟨r, haccept⟩ := toNode_connectOrphan hconn
          refine hcov.connectOrphan hcall.1 hb hconn (fun h hh => mem_cons_of_mem _ hh) ?_
          intro x hx hxb hp
          rcases hcall.2.parents haccept x hx hxb hp with hq | htip
          · exact .inl hq
          · exact .inr (by simp [htip]))
        _ _ _ _ _ hstart (hwalk n1 haccept) hbuf with ⟨-, hcov⟩ | ⟨-, q', hcov, hcut⟩
      · exact hcov
      · exact hcov.cut (fun h hh => mem_cons.mp hh) hcut
    cases outcome with
    | threw message => exact hend
    | returned ok => exact hend

/-- **ProcessBlock** leaves what can be connected at the best block. -/
theorem Resumable.processBlock (hres : n.Resumable) (hok : n.ProcessOk w wPending calls b) :
    (n.processBlock w wPending rand calls b).1.Resumable := by
  unfold SyncNode.processBlock
  cases hcheck : n.checkProcess w b with
  | error e => exact hres
  | ok u =>
    simp only
    split
    next hprev => exact hres.bufferBlock hprev
    rename_i hprev
    obtain ⟨hfail, hleaves, hwalk⟩ :=
      hok hcheck (by simpa [Option.isSome_iff_ne_none] using hprev)
    refine hres.acceptAndConnect hfail hleaves ?_ hwalk
    -- the block is not buffered: this has been checked
    intro hmem
    obtain ⟨_, -, hcheck⟩ := bind_eq_ok.mp hcheck
    obtain ⟨_, hnone, -⟩ := bind_eq_ok.mp hcheck
    have hfind := require_eq_ok.mp hnone
    rw [find, Option.isNone_iff_eq_none, find?_eq_none] at hfind
    exact hfind b hmem (by simp)

/-! ## Runs -/

/-- A call that meets its condition, or something that touches neither the buffer nor the index nor
the best block. -/
inductive SyncStep : SyncNode env → SyncNode env → Prop
  | process {n : SyncNode env} (w wPending : World) (rand : Nat → Uint256)
      (calls : Nat → BufferCall) (b : CBlock) (hok : n.ProcessOk w wPending calls b) :
      SyncStep n (n.processBlock w wPending rand calls b).1
  | drain {n : SyncNode env} (calls : Nat → BufferCall) (hok : n.DrainOk calls) :
      SyncStep n (n.drainBufferedBlocks calls).1
  | other {n n' : SyncNode env} (horphans : n'.orphans = n.orphans)
      (hindex : n'.chain.mapBlockIndex = n.chain.mapBlockIndex)
      (hbest : n'.chain.hashBestChain = n.chain.hashBestChain) : SyncStep n n'

theorem Resumable.step {n' : SyncNode env} (hres : n.Resumable) (h : SyncStep n n') :
    n'.Resumable := by
  cases h with
  | process w wPending rand calls b hok => exact hres.processBlock hok
  | drain calls hok => exact (hres.drainBufferedBlocks hok rfl).1
  | other horphans hindex hbest =>
    intro x hx hidx
    rw [horphans] at hx
    rw [hindex] at hidx
    rw [hbest]
    exact hres x hx hidx

theorem Resumable.run {n0 : SyncNode env} (h0 : n0.Resumable)
    (hrun : Relation.ReflTransGen SyncStep n0 n) : n.Resumable := by
  induction hrun with
  | refl => exact h0
  | tail _ hstep ih => exact ih.step hstep

end SyncNode

/-- **No connectable block is stranded.** After a run whose calls meet their conditions, a drain
that returns `false` leaves no buffered block with its parent in the index. -/
theorem drained_not_stranded {n₀ n n' : SyncNode env} {calls : Nat → BufferCall}
    (h₀ : n₀.Resumable) (hrun : Relation.ReflTransGen SyncNode.SyncStep n₀ n)
    (hok : n.DrainOk calls) (h : n.drainBufferedBlocks calls = (n', .returned false)) :
    ∀ x ∈ n'.orphans.mapOrphanBlocks, n'.chain.mapBlockIndex x.hashPrevBlock = none := by
  have hcov := ((h₀.run hrun).drainBufferedBlocks hok h).2 rfl
  intro x hx
  by_contra hne
  exact absurd (hcov x hx (Option.isSome_iff_ne_none.mpr hne)) not_mem_nil

/-! ## A fork in the buffer

Block 2 follows the genesis block; two blocks that follow block 2 arrive before it. -/

def forkBlocks : List CBlock :=
  [minedBlock 1 0 0, minedBlock 2 1 1, minedBlock 3 2 2, minedBlock 4 2 2]

def arrivalWorld (blocks : List CBlock) (hash : Uint256) : World :=
  { sampleWorld blocks with
    nAdjustedTime := sampleTime + 600
    writeToDisk := some (1, 1000 * hash) }

/-- Receive a block; the batch that follows connects block 3 and then its time is up. -/
def receive (blocks : List CBlock) (n : SyncNode sampleEnv) (b : CBlock) :
    SyncNode sampleEnv × Except Fail Unit :=
  n.processBlock (arrivalWorld blocks b.nNonce) (arrivalWorld blocks b.nNonce) (fun _ => 0)
    (fun _ => ⟨arrivalWorld blocks 3, arrivalWorld blocks 3, true⟩) b

def forkReceived : SyncNode sampleEnv × Except Fail Unit :=
  let n₀ : SyncNode sampleEnv := ⟨genesisNode, empty⟩
  let n₁ := (receive forkBlocks n₀ (minedBlock 3 2 2)).1
  let n₂ := (receive forkBlocks n₁ (minedBlock 4 2 2)).1
  receive forkBlocks n₂ (minedBlock 2 1 1)

/-- The next drain starts from block 3 and returns `false`. Block 4 stays in the buffer with its
parent in the index, and is refused when it arrives again. -/
theorem fork_stranded :
    let drained := forkReceived.1.drainBufferedBlocks
      (fun _ => ⟨arrivalWorld forkBlocks 4, arrivalWorld forkBlocks 4, false⟩)
    forkReceived.2 = .ok () ∧ forkReceived.1.chain.hashBestChain = 3 ∧
      drained.2 = .returned false ∧ minedBlock 4 2 2 ∈ drained.1.orphans.mapOrphanBlocks ∧
      (drained.1.chain.mapBlockIndex (minedBlock 4 2 2).hashPrevBlock).isSome = true ∧
      (receive forkBlocks drained.1 (minedBlock 4 2 2)).2
        = .error (.reject 0 "ProcessBlock() : already have block (orphan)") := by
  decide +kernel

def lineBlocks : List CBlock :=
  [minedBlock 1 0 0, minedBlock 2 1 1, minedBlock 3 2 2, minedBlock 4 3 3]

def lineStart : SyncNode sampleEnv := ⟨genesisNode, empty⟩

def lineBuffered : SyncNode sampleEnv :=
  (receive lineBlocks (receive lineBlocks lineStart (minedBlock 3 2 2)).1 (minedBlock 4 3 3)).1

def lineReceived : SyncNode sampleEnv := (receive lineBlocks lineBuffered (minedBlock 2 1 1)).1

theorem receive_step {blocks : List CBlock} {n : SyncNode sampleEnv}
    (hprev : (n.chain.mapBlockIndex b.hashPrevBlock).isSome = false) :
    SyncStep n (receive blocks n b).1 := by
  refine SyncStep.process _ _ _ _ _ ?_
  intro _ hsome
  rw [hprev] at hsome
  cases hsome

theorem lineReceived_run : Relation.ReflTransGen SyncStep lineStart lineReceived := by
  have hbuffered : Relation.ReflTransGen SyncStep lineStart lineBuffered :=
    .tail (.single (receive_step (by decide +kernel))) (receive_step (by decide +kernel))
  have hok : lineBuffered.ProcessOk (arrivalWorld lineBlocks 2) (arrivalWorld lineBlocks 2)
      (fun _ => ⟨arrivalWorld lineBlocks 3, arrivalWorld lineBlocks 3, true⟩)
      (minedBlock 2 1 1) := by
    intro _ _
    refine ⟨.inl (by decide +kernel), .inr (.inr (by decide +kernel)), ?_⟩
    intro n1 haccept
    have hn1 : n1 = (lineBuffered.toNode.acceptBlock sampleEnv (arrivalWorld lineBlocks 2)
        (arrivalWorld lineBlocks 2) (minedBlock 2 1 1)).1 := (congrArg Prod.fst haccept).symm
    subst hn1
    have hnext : nextOrphan ⟨(lineBuffered.toNode.acceptBlock sampleEnv
        (arrivalWorld lineBlocks 2) (arrivalWorld lineBlocks 2) (minedBlock 2 1 1)).1,
        lineBuffered.orphans⟩ [2] = some ([2], minedBlock 3 2 2) := by decide +kernel
    refine WalkOk.cut hnext
      ⟨.inl (by decide +kernel), .inr (.inr (by decide +kernel))⟩ rfl (.inr rfl) ?_
    unfold CutOk
    decide +kernel
  exact hbuffered.tail (SyncStep.process _ _ (fun _ => 0) _ _ hok)

def lineCalls : Nat → BufferCall :=
  fun _ => ⟨arrivalWorld lineBlocks 4, arrivalWorld lineBlocks 4, false⟩

theorem lineReceived_drainOk : lineReceived.DrainOk lineCalls := by
  have hnext : lineReceived.nextOrphan [lineReceived.chain.hashBestChain]
      = some ([3], minedBlock 4 3 3) := by decide +kernel
  have hconn : lineReceived.connectOrphan (lineCalls 255) [3] (minedBlock 4 3 3)
      = ((lineReceived.connectOrphan (lineCalls 255) [3] (minedBlock 4 3 3)).1, [3, 4], none) := by
    have hsnd : (lineReceived.connectOrphan (lineCalls 255) [3] (minedBlock 4 3 3)).2
        = ([3, 4], none) := by decide +kernel
    rw [← hsnd]
  refine WalkOk.next hnext (.inl ?_) hconn rfl (.done ?_)
  · decide +kernel
  · decide +kernel

theorem drained_not_stranded_line :
    let drained := lineReceived.drainBufferedBlocks lineCalls
    (lineReceived.chain.hashBestChain = 3 ∧ drained.2 = .returned false ∧
      drained.1.chain.hashBestChain = 4) ∧ lineStart.Resumable ∧
      Relation.ReflTransGen SyncNode.SyncStep lineStart lineReceived ∧
      lineReceived.DrainOk lineCalls ∧
      ∀ x ∈ drained.1.orphans.mapOrphanBlocks,
        drained.1.chain.mapBlockIndex x.hashPrevBlock = none := by
  intro drained
  have hstart : lineStart.Resumable := by
    rintro x ⟨⟩
  have hends : lineReceived.chain.hashBestChain = 3 ∧ drained.2 = .returned false ∧
      drained.1.chain.hashBestChain = 4 := by decide +kernel
  have hfalse : drained = (drained.1, .returned false) := by rw [← hends.2.1]
  exact ⟨hends, hstart, lineReceived_run, lineReceived_drainOk,
    drained_not_stranded hstart lineReceived_run lineReceived_drainOk hfalse⟩

end HoboNickels

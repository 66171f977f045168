import HoboNickels.BestChain

/-!
# What switching chains does

Specifications of the parts of `SetBestChain`: the loops of `Reorganize` work inside the open
database transaction and change no links; a successful `Reorganize` moves the committed best
block and the forward links to the new block together; `SetBestChainInner` does so for one more
block, or leaves both where they were.
-/

namespace HoboNickels

open Fallible WriteBatch ParentChain List BlockMap CTxDB Store CBlockIndex

variable {env : Env} {w : World}

theorem World.readBlock_eq_some {pindex : CBlockIndex} {b : CBlock}
    (h : w.readBlock env pindex = some b) :
    openBlockFile pindex.nFile = true ∧ w.disk.block pindex.nFile pindex.nBlockPos = some b ∧
      env.scryptBlockhash b.toCBlockHeader = pindex.hashBlock := by
  revert h
  fun_cases readBlock w env pindex with
  | case3 hfile b' hdisk _ _ hhash =>
    rintro ⟨⟩
    exact ⟨(Bool.and_eq_true_iff.mp hfile).1, hdisk, hhash⟩
  | _ => nofun

/-! ## The loops of Reorganize -/

section Loops

variable {mempool : Uint256 → Option CTransaction} {pindex : CBlockIndex} {rest : List CBlockIndex}
  {s s' : ChainState} {r : Except Fail (List CTransaction)}

theorem disconnectBlocks_cons (h : s.disconnectBlocks env w (pindex :: rest) = (s', r)) :
    (s' = s ∧ ∃ e, r = .error e) ∨ ∃ b s₁ r1, w.readBlock env pindex = some b ∧
      s.disconnectBlock env b pindex = .ok s₁ ∧ s₁.disconnectBlocks env w rest = (s', r1) ∧
      r = r1.map (· ++ b.resurrect env pindex) := by
  rw [ChainState.disconnectBlocks] at h
  split at h
  · cases h
    exact .inl ⟨rfl, _, rfl⟩
  rename_i b hread
  split at h
  · cases h
    exact .inl ⟨rfl, _, rfl⟩
  rename_i s₁ hdisc
  refine .inr ⟨b, s₁, ?_⟩
  split at h
  all_goals
    rename_i hloop
    cases h
    exact ⟨_, hread, hdisc, hloop, rfl⟩

theorem connectBlocks_cons (h : s.connectBlocks env w mempool (pindex :: rest) = (s', r)) :
    (s' = s ∧ ∃ e, r = .error e) ∨ ∃ b s₁ r1, w.readBlock env pindex = some b ∧
      s.connectBlock env w mempool b pindex = .ok s₁ ∧
      s₁.connectBlocks env w mempool rest = (s', r1) ∧ r = r1.map (b.vtx ++ ·) := by
  rw [ChainState.connectBlocks] at h
  split at h
  · cases h
    exact .inl ⟨rfl, _, rfl⟩
  rename_i b hread
  split at h
  · cases h
    exact .inl ⟨rfl, _, rfl⟩
  · cases h
    exact .inl ⟨rfl, _, rfl⟩
  rename_i s₁ hconn
  refine .inr ⟨b, s₁, ?_⟩
  split at h
  all_goals
    rename_i hloop
    cases h
    exact ⟨_, hread, hconn, hloop, rfl⟩

theorem exists_ok_of_map {f : List CTransaction → List CTransaction} {txs : List CTransaction}
    (h : r.map f = .ok txs) : ∃ txs', r = .ok txs' ∧ f txs' = txs := by
  cases r with
  | error e => cases h
  | ok txs' =>
    cases h
    exact ⟨txs', rfl, rfl⟩

/-- Induction rule for the disconnecting loop; if it has not failed there is nothing left to do. -/
theorem disconnectBlocks_induct (P : ChainState → List CBlockIndex → Prop)
    (step : ∀ s s' pindex rest b, P s (pindex :: rest) → w.readBlock env pindex = some b →
      s.disconnectBlock env b pindex = .ok s' → P s' rest)
    (l : List CBlockIndex) (s s' : ChainState) (r : Except Fail (List CTransaction)) (hP : P s l)
    (h : s.disconnectBlocks env w l = (s', r)) :
    ∃ rest, P s' rest ∧ ((∃ txs, r = .ok txs) → rest = []) := by
  induction l generalizing s s' r with
  | nil =>
    cases h
    exact ⟨[], hP, fun _ => rfl⟩
  | cons pindex rest ih =>
    rcases disconnectBlocks_cons h with ⟨rfl, e, rfl⟩ | ⟨b, s₁, r1, hread, hdisc, hloop, rfl⟩
    · exact ⟨_, hP, nofun⟩
    · obtain ⟨left, hP', hdone⟩ := ih s₁ s' r1 (step _ _ _ _ _ hP hread hdisc) hloop
      refine ⟨left, hP', fun ⟨txs, htxs⟩ => hdone ?_⟩
      exact (exists_ok_of_map htxs).imp fun _ h => h.1

theorem connectBlocks_induct (P : ChainState → List CBlockIndex → Prop)
    (step : ∀ s s' pindex rest b, P s (pindex :: rest) → w.readBlock env pindex = some b →
      s.connectBlock env w mempool b pindex = .ok s' → P s' rest)
    (l : List CBlockIndex) (s s' : ChainState) (r : Except Fail (List CTransaction)) (hP : P s l)
    (h : s.connectBlocks env w mempool l = (s', r)) :
    ∃ rest, P s' rest ∧ ((∃ txs, r = .ok txs) → rest = []) := by
  induction l generalizing s s' r with
  | nil =>
    cases h
    exact ⟨[], hP, fun _ => rfl⟩
  | cons pindex rest ih =>
    rcases connectBlocks_cons h with ⟨rfl, e, rfl⟩ | ⟨b, s₁, r1, hread, hconn, hloop, rfl⟩
    · exact ⟨_, hP, nofun⟩
    · obtain ⟨left, hP', hdone⟩ := ih s₁ s' r1 (step _ _ _ _ _ hP hread hconn) hloop
      refine ⟨left, hP', fun ⟨txs, htxs⟩ => hdone ?_⟩
      exact (exists_ok_of_map htxs).imp fun _ h => h.1

end Loops

variable {r : Except Fail (List CTransaction)}

theorem disconnectBlocks_frame {l : List CBlockIndex} {s s' : ChainState}
    (h : s.disconnectBlocks env w l = (s', r)) :
    SameChain s s' ∧ s.db.InTxn s'.db := by
  obtain ⟨_, hP, -⟩ := disconnectBlocks_induct (fun s₁ _ => SameChain s s₁ ∧ s.db.InTxn s₁.db)
    (fun s₁ s₂ pindex rest b hP _ hdisc =>
      ⟨hP.1.trans (disconnectBlock_frame hdisc).1, hP.2.trans (disconnectBlock_frame hdisc).2.1⟩)
    l s s' r ⟨.refl, InTxn.refl s.db⟩ h
  exact hP

theorem connectBlocks_frame {mempool : Uint256 → Option CTransaction} {l : List CBlockIndex}
    {s s' : ChainState}
    (h : s.connectBlocks env w mempool l = (s', r)) : SameChain s s' ∧ s.db.InTxn s'.db := by
  obtain ⟨_, hP, -⟩ := connectBlocks_induct (fun s₁ _ => SameChain s s₁ ∧ s.db.InTxn s₁.db)
    (fun s₁ s₂ pindex rest b hP _ hconn =>
      ⟨hP.1.trans (connectBlock_frame hconn).1, hP.2.trans (connectBlock_frame hconn).2⟩)
    l s s' r ⟨.refl, InTxn.refl s.db⟩ h
  exact hP

theorem Node.chain_tryAccept (n : Node) (tx : CTransaction) :
    (n.tryAccept env w tx).chain = n.chain := by
  unfold tryAccept
  split <;> rfl

theorem Node.chain_foldl_tryAccept (txs : List CTransaction) (n : Node) :
    (txs.foldl (tryAccept env w) n).chain = n.chain := by
  induction txs generalizing n with
  | nil => rfl
  | cons tx txs ih => rw [foldl_cons, ih, chain_tryAccept]

theorem Node.foldl_removeFromPool (txs : List CTransaction) (n : Node) :
    txs.foldl (removeFromPool env) n =
      ⟨n.chain, txs.foldl (CTxMemPool.remove env) n.mempool⟩ := by
  induction txs generalizing n with
  | nil => rfl
  | cons tx txs ih =>
    rw [foldl_cons, ih]
    rfl

/-! ## The fork -/

theorem findFork_mem (best : List CBlockIndex) (new : List CBlockIndex) (pfork : CBlockIndex)
    (h : findFork best new = some pfork) :
    pfork ∈ best ∧ ∃ p ∈ new, p.hashBlock = pfork.hashBlock := by
  fun_induction findFork best new with
  | case1 | case2 => cases h
  | case3 b rest new plonger more hdrop heq =>
    cases h
    have hp : plonger ∈ new := (dropWhile_sublist _).subset (hdrop ▸ mem_cons_self)
    exact ⟨mem_cons_self, plonger, hp, heq⟩
  | case4 b rest new plonger more hdrop _ ih =>
    obtain ⟨hmem, p, hp, heq⟩ := ih h
    exact ⟨mem_cons_of_mem b hmem, p, (dropWhile_sublist _).subset (hdrop ▸ hp), heq⟩

/-- The search finds a fork that is no lower than any common block. -/
theorem findFork_exists {x : CBlockIndex} (best : List CBlockIndex) (new : List CBlockIndex)
    (hbest : best.Pairwise (fun a b => b.nHeight < a.nHeight))
    (hnew : new.Pairwise (fun a b => b.nHeight < a.nHeight)) (hx : x ∈ best) :
    x ∈ new → ∃ pfork, findFork best new = some pfork ∧ x.nHeight ≤ pfork.nHeight := by
  induction best generalizing new with
  | nil => cases hx
  | cons b rest ih =>
    intro hxnew
    obtain ⟨hlow, hrest⟩ := pairwise_cons.mp hbest
    have hle : x.nHeight ≤ b.nHeight := by
      rcases mem_cons.mp hx with rfl | hx
      · exact le_rfl
      · exact (hlow x hx).le
    -- the common block is not cut off with what is higher than `b`
    have hkept : x ∈ new.dropWhile (fun p => decide (p.nHeight > b.nHeight)) := by
      have hsplit := takeWhile_append_dropWhile
        (p := fun p : CBlockIndex => decide (p.nHeight > b.nHeight)) (l := new)
      rw [← hsplit] at hxnew
      rcases mem_append.mp hxnew with hcut | hkept
      · have := mem_takeWhile_imp hcut
        simp only [decide_eq_true_eq] at this
        omega
      · exact hkept
    have hsorted := hnew.sublist (dropWhile_sublist (fun p => decide (p.nHeight > b.nHeight)))
    rw [findFork]
    split
    next hdrop =>
      rw [hdrop] at hkept
      cases hkept
    rename_i plonger more hdrop
    rw [hdrop] at hkept hsorted
    split
    · exact ⟨b, rfl, hle⟩
    rename_i hne
    refine ih _ hrest hsorted ?_ hkept
    rcases mem_cons.mp hx with rfl | hx
    · have hhead := head?_dropWhile_not (fun p : CBlockIndex => decide (p.nHeight > x.nHeight)) new
      simp only [hdrop, head?_cons, decide_eq_false_iff_not, not_lt] at hhead
      rcases mem_cons.mp hkept with rfl | hmore
      · exact absurd rfl hne
      · have := (pairwise_cons.mp hsorted).1 x hmore
        omega
    · exact hx

variable {h : Uint256}

namespace BlockMap

variable {m : BlockMap}

def up (m : BlockMap) (h : Uint256) : Uint256 := ((m h).bind pprev).getD 0

def hashes (m : BlockMap) (h : Uint256) : List Uint256 := (m.chainOf h).map hashBlock

theorem up_of_pprev {b : CBlockIndex} {p : Uint256} (hb : m.Indexed b) (hp : b.pprev = some p) :
    m.up b.hashBlock = p := by
  rw [up, hb, Option.bind_some, hp]
  rfl

theorem pairwise_nHeight (wf : m.WellFormed) (h : Uint256) :
    (m.chainOf h).Pairwise (fun a b => b.nHeight < a.nHeight) := by
  rcases hb : m h with _ | b
  · simp [chainOf_none hb]
  · rw [chainOf_eq hb]
    exact pairwise_rank wf.ranked (wf.indexed hb)

variable {pfork x : CBlockIndex} {above rest : List CBlockIndex}

section

variable (wf : m.WellFormed)
include wf

theorem eq_of_hashBlock {h' : Uint256} (hx : x ∈ m.chainOf h) (hf : pfork ∈ m.chainOf h')
    (heq : x.hashBlock = pfork.hashBlock) : x = pfork := by
  have hidx := mem_chainOf_indexed wf hx
  rw [heq, mem_chainOf_indexed wf hf] at hidx
  exact (Option.some.inj hidx).symm

theorem chainOf_split (hf : pfork ∈ m.chainOf h) :
    m.chainOf h = aboveFork pfork (m.chainOf h) ++ m.chainOf pfork.hashBlock := by
  obtain ⟨above, habove⟩ := chainOf_suffix wf hf
  have hidx := mem_chainOf_indexed wf hf
  obtain ⟨_, hbelow⟩ := chainOf_head hidx
  have hheights := pairwise_nHeight wf h
  rw [← habove] at hheights
  have hne : ∀ x ∈ above, (x.hashBlock != pfork.hashBlock) = true := by
    intro x hx
    rw [bne_iff_ne]
    intro heq
    obtain rfl := eq_of_hashBlock wf (habove ▸ mem_append_left _ hx) hf heq
    exact lt_irrefl _ ((pairwise_append.mp hheights).2.2 x hx x (mem_chainOf_self hidx))
  rw [← habove, hbelow, aboveFork, takeWhile_append_of_pos hne, takeWhile_cons_of_neg (by simp),
    append_nil]

theorem mem_chainOf_of_findFork {hOld hNew : Uint256}
    (hfork : findFork (m.chainOf hOld) (m.chainOf hNew) = some pfork) :
    pfork ∈ m.chainOf hOld ∧ pfork ∈ m.chainOf hNew := by
  obtain ⟨hold, p, hp, heq⟩ := findFork_mem _ _ _ hfork
  obtain rfl := eq_of_hashBlock wf hp hold heq
  exact ⟨hold, hp⟩

theorem mem_hashes_iff {a : Uint256} : a ∈ m.hashes h ↔ ∃ p, m a = some p ∧ p ∈ m.chainOf h := by
  unfold hashes
  rw [mem_map]
  constructor
  · rintro ⟨p, hp, rfl⟩
    exact ⟨p, mem_chainOf_indexed wf hp, hp⟩
  · rintro ⟨p, hp, hmem⟩
    exact ⟨p, hmem, wf.keyed hp⟩

theorem hashes_trans {a b : Uint256} (hab : a ∈ m.hashes b)
    (hbh : b ∈ m.hashes h) : a ∈ m.hashes h := by
  obtain ⟨p, hp, hpmem⟩ := (mem_hashes_iff wf).mp hab
  obtain ⟨q, hq, hqmem⟩ := (mem_hashes_iff wf).mp hbh
  rw [← wf.keyed hq] at hpmem
  exact (mem_hashes_iff wf).mpr ⟨p, hp, mem_chainOf_trans wf hpmem hqmem⟩

theorem nodup_hashes (h : Uint256) : (m.hashes h).Nodup := by
  refine Nodup.map_on ?_ ((pairwise_nHeight wf h).imp ?_)
  · exact fun x hx y hy heq => eq_of_hashBlock wf hx hy heq
  · rintro x _ hlt rfl
    exact lt_irrefl _ hlt

theorem isChain_chainOf (h : Uint256) : (m.chainOf h).IsChain (fun x y => m.parent x = some y) := by
  cases hb : m h with
  | none =>
    rw [chainOf_none hb]
    exact IsChain.nil
  | some b =>
    rw [chainOf_eq hb]
    exact isChain_parent wf.ranked (wf.indexed hb)

theorem pprev_of_parent {y : CBlockIndex} (h : m.parent x = some y) :
    x.pprev = some y.hashBlock := by
  obtain ⟨p, hp, hy⟩ := Option.bind_eq_some_iff.mp h
  rw [hp, wf.keyed hy]

theorem getLast?_chainOf : ∀ b, m.Indexed b →
    ∃ r, (m.chainOf b.hashBlock).getLast? = some r ∧ r.pprev = none := by
  refine wf.ranked.induct ?_ ?_
  · intro b hb hparent
    cases hp : b.pprev with
    | none => exact ⟨b, by rw [chainOf_root wf hb hp]; rfl, hp⟩
    | some p =>
      obtain ⟨pb, hpb, -⟩ := wf.pprev_some hb hp
      rw [parent, hp, Option.bind_some, hpb] at hparent
      cases hparent
  · intro b pb hb hparent ih
    obtain ⟨r, hlast, hr⟩ := ih
    refine ⟨r, ?_, hr⟩
    rw [chainOf_pprev wf hb (pprev_of_parent wf hparent), getLast?_cons, hlast]
    rfl

theorem isChain_hashes (h : Uint256) : (m.hashes h).IsChain (fun x y => m.up x = y) := by
  unfold hashes
  rw [isChain_map]
  refine (isChain_chainOf wf h).imp_of_mem_imp ?_
  intro x y hx _ hxy
  exact up_of_pprev (mem_chainOf_indexed wf hx) (pprev_of_parent wf hxy)

end

theorem isChain_above (wf : m.WellFormed) {p : CBlockIndex}
    (hsplit : m.chainOf h = above ++ p :: rest) :
    (p :: above.reverse).IsChain (fun x y => y.pprev = some x.hashBlock) := by
  have hchain := isChain_chainOf wf h
  rw [hsplit, ← singleton_append, ← append_assoc] at hchain
  have hup : (above ++ [p]).IsChain (fun x y => x.pprev = some y.hashBlock) :=
    hchain.left_of_append.imp fun x y hxy => pprev_of_parent wf hxy
  have hrev := isChain_reverse.mpr hup
  rwa [reverse_append, reverse_singleton] at hrev

theorem getLast_above {b p : CBlockIndex} (hb : m.Indexed b)
    (hsplit : m.chainOf b.hashBlock = above ++ p :: rest) :
    (p :: above.reverse).getLast? = some b := by
  obtain ⟨_, hhead⟩ := chainOf_head hb
  have htop : (above ++ p :: rest).head? = some b := by
    rw [← hsplit, hhead, head?_cons]
  have hrev : p :: above.reverse = (above ++ [p]).reverse := by simp
  rw [hrev, getLast?_reverse]
  rw [head?_append] at htop ⊢
  exact htop

theorem nHeight_lt_of_mem_aboveFork (wf : m.WellFormed)
    (hf : pfork ∈ m.chainOf h) (hx : x ∈ aboveFork pfork (m.chainOf h)) :
    pfork.nHeight < x.nHeight := by
  have hheights := pairwise_nHeight wf h
  rw [chainOf_split wf hf] at hheights
  have hself := mem_chainOf_self (mem_chainOf_indexed wf hf)
  exact (pairwise_append.mp hheights).2.2 x hx pfork hself

theorem aboveFork_parent (wf : m.WellFormed) (hf : pfork ∈ m.chainOf h) :
    ∀ x ∈ aboveFork pfork (m.chainOf h), m.Indexed x ∧ ∃ p, x.pprev = some p := by
  intro x hx
  have hidx : m.Indexed x := mem_chainOf_indexed wf ((takeWhile_sublist _).subset hx)
  refine ⟨hidx, Option.ne_none_iff_exists'.mp fun hroot => ?_⟩
  have hlt := nHeight_lt_of_mem_aboveFork wf hf hx
  rw [wf.pprev_none hidx hroot] at hlt
  cases hlt

theorem not_mem_of_mem_aboveFork (wf : m.WellFormed) {hOld hNew : Uint256}
    (hfork : findFork (m.chainOf hOld) (m.chainOf hNew) = some pfork)
    (hx : x ∈ aboveFork pfork (m.chainOf hNew)) :
    x ∉ m.chainOf hOld := by
  intro hold
  have hnew : x ∈ m.chainOf hNew := (takeWhile_sublist _).subset hx
  obtain ⟨p, hp, _⟩ := findFork_exists _ _ (pairwise_nHeight wf hOld) (pairwise_nHeight wf hNew)
    hold hnew
  obtain rfl := Option.some.inj (hfork.symm.trans hp)
  have hlt := nHeight_lt_of_mem_aboveFork wf (mem_chainOf_of_findFork wf hfork).2 hx
  omega

/-- With one root, two blocks always have a fork: their common ancestors are its ancestors. -/
theorem findFork_chainOf (wf : m.WellFormed) {best new : CBlockIndex}
    (hroot : ∀ p q, m.Indexed p → m.Indexed q → p.pprev = none → q.pprev = none → p = q)
    (hbest : m.Indexed best) (hnew : m.Indexed new) :
    ∃ pfork, findFork (m.chainOf best.hashBlock) (m.chainOf new.hashBlock) = some pfork ∧
      m.Indexed pfork ∧ ∀ x, x ∈ m.chainOf pfork.hashBlock ↔
        x ∈ m.chainOf best.hashBlock ∧ x ∈ m.chainOf new.hashBlock := by
  obtain ⟨r, hr, hpr⟩ := getLast?_chainOf wf best hbest
  obtain ⟨r', hr', hpr'⟩ := getLast?_chainOf wf new hnew
  have hmem := mem_of_getLast? hr
  have hmem' := mem_of_getLast? hr'
  obtain rfl := hroot r r' (mem_chainOf_indexed wf hmem) (mem_chainOf_indexed wf hmem') hpr hpr'
  have hsearch : ∀ x, x ∈ m.chainOf best.hashBlock → x ∈ m.chainOf new.hashBlock → _ := fun x =>
    findFork_exists _ _ (pairwise_nHeight wf _) (pairwise_nHeight wf _)
  obtain ⟨pfork, hfork, -⟩ := hsearch r hmem hmem'
  obtain ⟨hold, hp⟩ := mem_chainOf_of_findFork wf hfork
  refine ⟨pfork, hfork, mem_chainOf_indexed wf hold, fun x => ⟨fun hx => ⟨mem_chainOf_trans wf hx
    hold, mem_chainOf_trans wf hx hp⟩, fun hx => ?_⟩⟩
  obtain ⟨_, hpf, hle⟩ := hsearch x hx.1 hx.2
  obtain rfl := Option.some.inj (hfork.symm.trans hpf)
  exact mem_chainOf_of_nHeight_le wf hx.1 hold hle

end BlockMap

/-! ## Links -/

variable {m : BlockMap} {pfork pindexNew tip best : CBlockIndex} {b : CBlock}
  {s s₁ s₂ s₃ s' : ChainState} {n n' : Node} {hash : Uint256} {outcome : Outcome}

theorem foldl_setNext {link : (Uint256 → Option Uint256) → CBlockIndex → Uint256 → Option Uint256}
    {v : Uint256 → Option Uint256}
    (hlink : ∀ next x p, x.pprev = some p → link next x = setNext next p (v x.hashBlock))
    {branch : List CBlockIndex} (hb : ∀ x ∈ branch, m.Indexed x ∧ ∃ p, x.pprev = some p)
    (next : Uint256 → Option Uint256) :
    branch.foldl link next
      = (branch.map hashBlock).foldl (fun next x => setNext next (m.up x) (v x)) next := by
  induction branch generalizing next with
  | nil => rfl
  | cons x branch ih =>
    obtain ⟨hidx, p, hp⟩ := hb x mem_cons_self
    rw [map_cons, foldl_cons, foldl_cons, up_of_pprev hidx hp, hlink next x p hp]
    exact ih (fun y hy => hb y (mem_cons_of_mem x hy)) _

theorem BlockMap.hashes_split (wf : m.WellFormed) (hf : pfork ∈ m.chainOf h) :
    m.hashes h = (aboveFork pfork (m.chainOf h)).map hashBlock
      ++ m.hashes pfork.hashBlock := by
  unfold hashes
  rw [← map_append, ← chainOf_split wf hf]

theorem BlockMap.hashes_ne_nil {b : CBlockIndex} (hb : m.Indexed b) : m.hashes b.hashBlock ≠ [] :=
  ne_nil_of_mem (mem_map_of_mem (mem_chainOf_self hb))

theorem unlinkAll_nextIn (wf : m.WellFormed) {hOld : Uint256} (hold : pfork ∈ m.chainOf hOld) :
    unlinkAll (nextIn (m.hashes hOld)) (aboveFork pfork (m.chainOf hOld))
      = nextIn (m.hashes pfork.hashBlock) := by
  have hpath := hashes_split wf hold
  rw [unlinkAll, foldl_setNext (v := fun _ => none) (fun _ _ _ hp => by rw [hp])
    (aboveFork_parent wf hold), hpath]
  exact foldl_unlink m.up (hashes_ne_nil (mem_chainOf_indexed wf hold)) _
    (hpath ▸ nodup_hashes wf hOld) (hpath ▸ isChain_hashes wf hOld)

/-- **Relinking** turns the forward links of the old chain into those of the new chain. -/
theorem relink (wf : m.WellFormed) {hOld hNew : Uint256}
    (hold : pfork ∈ m.chainOf hOld) (hnew : pfork ∈ m.chainOf hNew) :
    linkAll (unlinkAll (nextIn (m.hashes hOld)) (aboveFork pfork (m.chainOf hOld)))
        (aboveFork pfork (m.chainOf hNew)).reverse
      = nextIn (m.hashes hNew) := by
  have hparent := aboveFork_parent wf hnew
  have hkeep := hashes_ne_nil (mem_chainOf_indexed wf hnew)
  have hpath : ((aboveFork pfork (m.chainOf hNew)).reverse.map hashBlock).reverse
      ++ m.hashes pfork.hashBlock = m.hashes hNew := by
    rw [map_reverse, reverse_reverse, ← hashes_split wf hnew]
  rw [unlinkAll_nextIn wf hold, linkAll, foldl_setNext (v := some) (fun _ _ _ hp => by rw [hp])
    (fun x hx => hparent x (mem_reverse.mp hx)),
    foldl_link m.up hkeep _ (hpath ▸ isChain_hashes wf hNew), hpath]

theorem BlockMap.chainOf_getLast (wf : m.WellFormed) {last : CBlockIndex}
    (rest : List CBlockIndex) (tip : CBlockIndex) (hidx : ∀ p ∈ rest, m.Indexed p)
    (hchain : (tip :: rest).IsChain (fun p q => q.pprev = some p.hashBlock))
    (hlast : (tip :: rest).getLast? = some last) :
    m.chainOf tip.hashBlock <:+ m.chainOf last.hashBlock := by
  induction rest generalizing tip with
  | nil =>
    obtain rfl : tip = last := by simpa using hlast
    exact suffix_refl _
  | cons p rest ih =>
    obtain ⟨hpprev, hrest⟩ := isChain_cons_cons.mp hchain
    have hsuffix := ih p (fun x hx => hidx x (mem_cons_of_mem p hx)) hrest (by simpa using hlast)
    rw [chainOf_pprev wf (hidx p mem_cons_self) hpprev] at hsuffix
    exact (suffix_cons p _).trans hsuffix

/-! ## The database around a switch -/

theorem CTxDB.committedBest_commit (db : CTxDB) (h : Uint256) :
    committedBest (txnCommit (db.writeHashBestChain h)) = some h :=
  (lookup_txnCommit _ _).trans (read_put_self db .hashBestChain h)

theorem CTxDB.committedTx_commit (db : CTxDB) (h k : Uint256) :
    committedTx (txnCommit (db.writeHashBestChain h)) k = db.readTxIndex k :=
  (lookup_txnCommit _ _).trans (readTxIndex_writeHashBestChain db h k)

theorem CTxDB.readTxIndex_txnBegin (db : CTxDB) (k : Uint256) :
    readTxIndex (txnBegin db) k = db.committedTx k :=
  read_txnBegin db (.tx k)

structure Unmoved (s s' : ChainState) : Prop where
  memory : SameMemory s s'
  pnext : s'.pnext = s.pnext
  committedBest : s'.db.committedBest = s.db.committedBest
  committedTx : s'.db.committedTx = s.db.committedTx
  noBatch : s'.db.activeBatch = none

theorem Unmoved.trans (h₁ : Unmoved s₁ s₂) (h₂ : Unmoved s₂ s₃) : Unmoved s₁ s₃ :=
  ⟨h₁.memory.trans h₂.memory, h₂.pnext.trans h₁.pnext, h₂.committedBest.trans h₁.committedBest,
    h₂.committedTx.trans h₁.committedTx, h₂.noBatch⟩

structure Untouched (s s' : ChainState) : Prop extends Unmoved s s' where
  committed : ∀ k, k ≠ .bnBestInvalidTrust → s'.db.committed.lookup k = s.db.committed.lookup k

theorem Untouched.of_memory (hmem : SameMemory s s')
    (hpnext : s'.pnext = s.pnext) (hbatch : s'.db.activeBatch = none)
    (h : ∀ k, k ≠ .bnBestInvalidTrust → s'.db.committed.lookup k = s.db.committed.lookup k) :
    Untouched s s' :=
  ⟨⟨hmem, hpnext, h .hashBestChain (by simp), funext fun k => h (.tx k) (by simp), hbatch⟩, h⟩

theorem Untouched.trans (h₁ : Untouched s₁ s₂) (h₂ : Untouched s₂ s₃) : Untouched s₁ s₃ :=
  ⟨h₁.toUnmoved.trans h₂.toUnmoved, fun k hk => (h₂.committed k hk).trans (h₁.committed k hk)⟩

section

variable (hopen : s.db.activeBatch.isSome = true) (hsame : SameChain s s') (htxn : s.db.InTxn s'.db)
include hopen hsame htxn

theorem untouched_of_inTxn : Untouched s { s' with db := txnAbort s'.db } := by
  obtain ⟨hcommitted, -⟩ := htxn hopen
  have hmem := hsame.memory
  refine .of_memory { hmem with } hsame.pnext rfl ?_
  intro k _
  rw [committed_txnAbort, hcommitted]

theorem untouched_of_written (h : Uint256) :
    Untouched s { s' with db := txnAbort (s'.db.writeHashBestChain h) } := by
  have hwrite : SameChain s { s' with db := s'.db.writeHashBestChain h } := { hsame with }
  exact untouched_of_inTxn hopen hwrite (htxn.trans (inTxn_doOp s'.db _))

end

theorem Node.untouched_invalidChainFound (hdb : n.chain.db.activeBatch = none)
    (pindex : CBlockIndex) : Untouched n.chain (n.invalidChainFound pindex).chain := by
  unfold invalidChainFound
  split
  · have hput : n.chain.db.writeBestInvalidTrust pindex.nChainTrust
        = ⟨n.chain.db.committed.insert .bnBestInvalidTrust pindex.nChainTrust, none⟩ := by
      unfold writeBestInvalidTrust put doOp
      rw [hdb]
      rfl
    refine .of_memory ⟨rfl, rfl, rfl, rfl, rfl, rfl⟩ rfl ?_ ?_
    · rw [hput]
    intro k hk
    rw [hput]
    exact Finmap.lookup_insert_of_ne _ hk
  · exact .of_memory (SameMemory.refl _) rfl hdb fun _ _ => rfl

theorem Node.mempool_invalidChainFound (n : Node) (pindex : CBlockIndex) :
    (n.invalidChainFound pindex).mempool = n.mempool := by
  unfold invalidChainFound
  split <;> rfl

theorem Node.setBestGenesis_committed (hcommit : w.txnCommitOk .genesis = true) :
    n.setBestGenesis w hash pindexNew = (newBest ⟨{ n.chain with
        pindexGenesisBlock := some pindexNew.hashBlock
        db := txnCommit (n.chain.db.writeHashBestChain hash) }, n.mempool⟩ hash pindexNew,
      .returned true) := by
  unfold setBestGenesis
  simp only [hcommit, if_true]
  rfl

theorem Node.setBestGenesis_aborted (hcommit : ¬ w.txnCommitOk .genesis = true) :
    n.setBestGenesis w hash pindexNew = (n.withDb
      (Store.txnAbort (n.chain.db.writeHashBestChain hash)), .returned false) := by
  unfold setBestGenesis
  simp only [hcommit]
  rfl

/-! ## Reorganize -/

theorem Node.chain_finishReorganize (n : Node) (vDisconnect vConnect : List CBlockIndex)
    (vResurrect vDelete : List CTransaction) :
    (n.finishReorganize env w vDisconnect vConnect vResurrect vDelete).chain
      = { n.chain with pnext := linkAll (unlinkAll n.chain.pnext vDisconnect) vConnect } := by
  unfold finishReorganize
  rw [foldl_removeFromPool, chain_foldl_tryAccept]

/-- On success the blocks were disconnected and connected inside the transaction, the new best block
was committed, and then links and memory pool were updated; on failure nothing has moved once the
batch is dropped. -/
theorem Node.switchBranch_cases {vDisconnect vConnect : List CBlockIndex} {r : Except Fail Unit}
    (hopen : n.chain.db.activeBatch.isSome = true)
    (h : n.switchBranch env w pindexNew vDisconnect vConnect = (n', r)) :
    (r = .ok () ∧ ∃ s₁ s₂ vResurrect vDelete,
        n.chain.disconnectBlocks env w vDisconnect = (s₁, .ok vResurrect) ∧
        s₁.connectBlocks env w n.mempool.mapTx vConnect = (s₂, .ok vDelete) ∧
        n' = Node.finishReorganize
          ⟨{ s₂ with db := txnCommit (s₂.db.writeHashBestChain pindexNew.hashBlock) },
            n.mempool⟩ env w vDisconnect vConnect vResurrect vDelete) ∨
      ((∃ e, r = .error e) ∧ Untouched n.chain n'.txnAbort.chain ∧ n'.mempool = n.mempool) := by
  revert h
  fun_cases switchBranch with
  | case1 s₁ e hdisc =>
    rintro ⟨⟩
    obtain ⟨hsame, htxn⟩ := disconnectBlocks_frame hdisc
    exact .inr ⟨⟨e, rfl⟩, untouched_of_inTxn hopen hsame htxn, rfl⟩
  | case2 s₁ vResurrect hdisc s₂ e hconn =>
    rintro ⟨⟩
    obtain ⟨hsame, htxn⟩ := disconnectBlocks_frame hdisc
    obtain ⟨hsame', htxn'⟩ := connectBlocks_frame hconn
    exact .inr ⟨⟨e, rfl⟩, untouched_of_inTxn hopen (hsame.trans hsame') (htxn.trans htxn'), rfl⟩
  | case3 s₁ vResurrect hdisc s₂ vDelete hconn =>
    rintro ⟨⟩
    exact .inl ⟨rfl, s₁, s₂, vResurrect, vDelete, hdisc, hconn, rfl⟩
  | case4 s₁ vResurrect hdisc s₂ vDelete hconn =>
    rintro ⟨⟩
    obtain ⟨hsame, htxn⟩ := disconnectBlocks_frame hdisc
    obtain ⟨hsame', htxn'⟩ := connectBlocks_frame hconn
    exact .inr ⟨⟨_, rfl⟩, untouched_of_written hopen (hsame.trans hsame') (htxn.trans htxn') _, rfl⟩

theorem Node.reorganize_error {e : Fail}
    (h : n.txnBegin.reorganize env w pindexNew = (n', .error e)) :
    n'.txnAbort.chain.db.committedTx = n.chain.db.committedTx ∧ n'.mempool = n.mempool := by
  unfold reorganize at h
  simp only at h
  split at h
  · cases h
    exact ⟨rfl, rfl⟩
  · rcases switchBranch_cases rfl h with ⟨hok, -⟩ | ⟨-, hun, hmem⟩
    · cases hok
    · exact ⟨hun.committedTx, hmem⟩

structure TipAt (s : ChainState) (tip : CBlockIndex) : Prop where
  indexed : s.mapBlockIndex.Indexed tip
  committed : s.db.committedBest = some tip.hashBlock

def Linked (s : ChainState) (tip : CBlockIndex) : Prop :=
  s.pnext = nextIn (s.mapBlockIndex.hashes tip.hashBlock)

theorem TipAt.unmoved (h : TipAt s tip) (hun : Unmoved s s') : TipAt s' tip := by
  constructor
  · rw [hun.memory.mapBlockIndex]
    exact h.indexed
  · rw [hun.committedBest]
    exact h.committed

theorem Linked.unmoved (h : Linked s tip) (hun : Unmoved s s') : Linked s' tip := by
  unfold Linked
  rw [hun.pnext, hun.memory.mapBlockIndex]
  exact h

structure Reorganized (env : Env) (w : World) (n n' : Node) (best pindexNew : CBlockIndex) :
    Prop where
  tipAt : TipAt n'.chain pindexNew
  memory : SameMemory n.chain n'.chain
  noBatch : n'.chain.db.activeBatch = none
  linked : Linked n.chain best → Linked n'.chain pindexNew
  loops :
    let chainOld := n.chain.mapBlockIndex.chainOf best.hashBlock
    let chainNew := n.chain.mapBlockIndex.chainOf pindexNew.hashBlock
    ∃ pfork s₁ s₂ vResurrect vDelete, pfork ∈ chainOld ∧ pfork ∈ chainNew ∧
      (∀ x ∈ aboveFork pfork chainNew, x ∉ chainOld) ∧
      n.chain.disconnectBlocks env w (aboveFork pfork chainOld) = (s₁, .ok vResurrect) ∧
      s₁.connectBlocks env w n.mempool.mapTx (aboveFork pfork chainNew).reverse
        = (s₂, .ok vDelete) ∧
      n' = Node.finishReorganize
        ⟨{ s₂ with db := txnCommit (s₂.db.writeHashBestChain pindexNew.hashBlock) }, n.mempool⟩
        env w (aboveFork pfork chainOld) (aboveFork pfork chainNew).reverse vResurrect vDelete

/-- **Reorganize**, called with the transaction open, moves to the new block or leaves everything
where it was. -/
theorem Node.reorganize_cases {r : Except Fail Unit} (wf : n.chain.mapBlockIndex.WellFormed)
    (hopen : n.chain.db.activeBatch.isSome = true)
    (hbest : n.chain.pindexBest = some best.hashBlock)
    (hnew : n.chain.mapBlockIndex.Indexed pindexNew) (h : n.reorganize env w pindexNew = (n', r)) :
    (r = .ok () ∧ Reorganized env w n n' best pindexNew) ∨
      ((∃ e, r = .error e) ∧ Untouched n.chain n'.txnAbort.chain ∧ n'.mempool = n.mempool) := by
  have hchain : n.chain.bestChain = n.chain.mapBlockIndex.chainOf best.hashBlock := by
    rw [ChainState.bestChain, hbest]
  unfold reorganize at h
  simp only at h
  rw [hchain] at h
  split at h
  · cases h
    exact .inr ⟨⟨_, rfl⟩, untouched_of_inTxn hopen .refl (InTxn.refl _), rfl⟩
  rename_i pfork hfork
  obtain ⟨hold, hnewmem⟩ := mem_chainOf_of_findFork wf hfork
  rcases Node.switchBranch_cases hopen h with ⟨hr, s₁, s₂, vR, vD, hdisc, hconn, hn'⟩ | hfail
  · have hsame := (disconnectBlocks_frame hdisc).1.trans (connectBlocks_frame hconn).1
    have hmem := hsame.memory
    have hchain' := congrArg Node.chain hn'
    rw [Node.chain_finishReorganize] at hchain'
    refine .inl ⟨hr, ⟨?_, ?_⟩, ?_, ?_, ?_, pfork, s₁, s₂, vR, vD, hold, hnewmem,
      fun x hx => not_mem_of_mem_aboveFork wf hfork hx, hdisc, hconn, hn'⟩
      <;> rw [hchain']
    · rw [hmem.mapBlockIndex]
      exact hnew
    · exact committedBest_commit _ _
    · exact { hmem with }
    · rfl
    intro hlinked
    rw [hsame.pnext, hmem.mapBlockIndex, hlinked]
    exact relink wf hold hnewmem
  · exact .inr hfail

/-! ## SetBestChainInner -/

theorem linkAll_singleton (wf : m.WellFormed) (hnew : m.Indexed pindexNew)
    (hprev : pindexNew.pprev = some tip.hashBlock) (htip : m.Indexed tip) :
    linkAll (nextIn (m.hashes tip.hashBlock)) [pindexNew]
      = nextIn (m.hashes pindexNew.hashBlock) := by
  obtain ⟨_, hbelow⟩ := chainOf_head htip
  have hchain : m.chainOf pindexNew.hashBlock = pindexNew :: m.chainOf tip.hashBlock :=
    chainOf_pprev wf hnew hprev
  unfold hashes
  rw [hchain, hbelow]
  simp only [linkAll, foldl_cons, foldl_nil, hprev, map_cons]
  exact setNext_nextIn_cons _ _ _

/-- `SetBestChainInner`: the block has been connected and committed, linked, and its transactions
removed from the pool, or nothing has moved. -/
theorem Node.setBestChainInner_outcome (hopen : n.chain.db.activeBatch.isSome = true)
    (h : n.setBestChainInner env w b pindexNew = (n', outcome)) :
    (outcome = .returned true ∧
        n'.mempool = b.vtx.foldl (CTxMemPool.remove env) n.mempool ∧
        ∃ s₁, n.chain.connectBlock env w n.mempool.mapTx b pindexNew = .ok s₁ ∧
          n'.chain = { s₁ with
            db := txnCommit
              (s₁.db.writeHashBestChain (env.scryptBlockhash b.toCBlockHeader))
            pnext := linkAll s₁.pnext [pindexNew] }) ∨
      (outcome ≠ .returned true ∧ Untouched n.chain n'.chain ∧ n'.mempool = n.mempool) := by
  unfold setBestChainInner at h
  cases hconn : n.chain.connectBlock env w n.mempool.mapTx b pindexNew with
  | error e =>
    rw [hconn] at h
    have habort : Untouched n.chain n.txnAbort.chain :=
      untouched_of_inTxn hopen .refl (InTxn.refl _)
    cases e with
    | reject nDoS message =>
      cases h
      exact .inr ⟨by simp, habort.trans (Node.untouched_invalidChainFound rfl pindexNew),
        Node.mempool_invalidChainFound _ _⟩
    | throw message =>
      cases h
      exact .inr ⟨by simp, habort, rfl⟩
  | ok s₁ =>
    rw [hconn] at h
    simp only at h
    obtain ⟨hsame, htxn⟩ := connectBlock_frame hconn
    split at h
    · cases h
      rw [Node.foldl_removeFromPool]
      exact .inl ⟨rfl, rfl, s₁, rfl, rfl⟩
    cases h
    exact .inr ⟨by simp, untouched_of_written hopen hsame htxn _, rfl⟩

structure Attached (env : Env) (w : World) (n n' : Node) (b : CBlock)
    (tip pindexNew : CBlockIndex) : Prop where
  tipAt : TipAt n'.chain pindexNew
  memory : SameMemory n.chain n'.chain
  noBatch : n'.chain.db.activeBatch = none
  linked : Linked n.chain tip → Linked n'.chain pindexNew
  connected : ∃ s₁, n.chain.connectBlock env w n.mempool.mapTx b pindexNew = .ok s₁ ∧
    ∀ k, k ≠ .hashBestChain → n'.chain.db.committed.lookup k = s₁.db.read k

/-- **SetBestChainInner** for a child of the tip: it either moves to the child, or leaves
everything where it was. -/
theorem Node.setBestChainInner_cases (wf : n.chain.mapBlockIndex.WellFormed)
    (hopen : n.chain.db.activeBatch.isSome = true) (htip : n.chain.mapBlockIndex.Indexed tip)
    (hnew : n.chain.mapBlockIndex.Indexed pindexNew) (hprev : pindexNew.pprev = some tip.hashBlock)
    (hhash : env.scryptBlockhash b.toCBlockHeader = pindexNew.hashBlock)
    (h : n.setBestChainInner env w b pindexNew = (n', outcome)) :
    (outcome = .returned true ∧ Attached env w n n' b tip pindexNew) ∨
      (outcome ≠ .returned true ∧ Untouched n.chain n'.chain ∧ n'.mempool = n.mempool) := by
  rcases setBestChainInner_outcome hopen h with ⟨hout, -, s₁, hconn, hchain⟩ | hfail
  · obtain ⟨hsame, -⟩ := connectBlock_frame hconn
    have hmem := hsame.memory
    refine .inl ⟨hout, ⟨?_, ?_⟩, ?_, ?_, ?_, s₁, hconn, ?_⟩ <;> rw [hchain]
    · rw [hmem.mapBlockIndex]
      exact hnew
    · rw [← hhash]
      exact committedBest_commit _ _
    · exact { hmem with }
    · rfl
    · intro hlinked
      rw [hsame.pnext, hmem.mapBlockIndex, hlinked]
      exact linkAll_singleton wf hnew hprev htip
    · intro k hk
      exact (lookup_txnCommit _ k).trans (read_put_of_ne s₁.db _ hk)
  · exact .inr hfail

/-! ## The postponed blocks -/

/-- The blocks can all be attached, one after the other: each is read, begun, connected on top of
those before it, and committed. -/
def Node.AttachAll (env : Env) (w : World) : List CBlockIndex → Node → Prop
  | [], _ => True
  | pindex :: rest, n => ∃ b s,
      w.readBlock env pindex = some b ∧ w.txnBeginOk (.inner pindex.hashBlock) = true ∧
      n.txnBegin.chain.connectBlock env w n.mempool.mapTx b pindex = .ok s ∧
      w.txnCommitOk (.inner pindex.hashBlock) = true ∧
      AttachAll env w rest (n.txnBegin.setBestChainInner env w b pindex).1

theorem Node.setBestChainInner_eq_true (env : Env) (w : World) (n : Node) (b : CBlock)
    (pindex : CBlockIndex) :
    (n.setBestChainInner env w b pindex).2 = .returned true ↔
      (∃ s, n.chain.connectBlock env w n.mempool.mapTx b pindex = .ok s) ∧
        w.txnCommitOk (.inner pindex.hashBlock) = true := by
  unfold setBestChainInner
  cases n.chain.connectBlock env w n.mempool.mapTx b pindex with
  | error e => cases e <;> simp
  | ok s =>
    by_cases hcommit : w.txnCommitOk (.inner pindex.hashBlock) = true
    · simp [hcommit]
    · simp [hcommit]

theorem Node.attachAll_cons {pindex : CBlockIndex} {rest : List CBlockIndex}
    (hread : w.readBlock env pindex = some b) : AttachAll env w (pindex :: rest) n ↔
      w.txnBeginOk (.inner pindex.hashBlock) = true ∧
        (n.txnBegin.setBestChainInner env w b pindex).2 = .returned true ∧
        AttachAll env w rest (n.txnBegin.setBestChainInner env w b pindex).1 := by
  rw [setBestChainInner_eq_true, AttachAll]
  constructor
  · rintro ⟨_, s, hb, hbegin, hconn, hcommit, hrest⟩
    obtain rfl := Option.some.inj (hread.symm.trans hb)
    exact ⟨hbegin, ⟨⟨s, hconn⟩, hcommit⟩, hrest⟩
  · rintro ⟨hbegin, ⟨⟨s, hconn⟩, hcommit⟩, hrest⟩
    exact ⟨b, s, hread, hbegin, hconn, hcommit, hrest⟩

/-- The rule for the loop over the postponed blocks. None are left exactly when all can be attached.
-/
theorem Node.connectFurther_induct (P : Node → List CBlockIndex → Prop)
    (hstep : ∀ n n1 pindex rest b, P n (pindex :: rest) → w.readBlock env pindex = some b →
      n.txnBegin.setBestChainInner env w b pindex = (n1, .returned true) → P n1 rest)
    (hfail : ∀ n n1 pindex rest b outcome, P n (pindex :: rest) →
      w.readBlock env pindex = some b →
      n.txnBegin.setBestChainInner env w b pindex = (n1, outcome) → outcome ≠ .returned true →
      P n1 (pindex :: rest)) :
    ∀ l n n' r, P n l → connectFurther env w l n = (n', r) →
      ∃ rest, P n' rest ∧ (rest = [] ↔ AttachAll env w l n) ∧ (rest = [] → r = none) := by
  intro l n n' r hP h
  fun_induction connectFurther env w l n with
  | case1 n =>
    cases h
    exact ⟨[], hP, by simp [AttachAll], fun _ => rfl⟩
  | case2 pindex rest n hread =>
    cases h
    exact ⟨pindex :: rest, hP, by simp [AttachAll, hread], nofun⟩
  | case3 pindex rest n b hread hbegin n1 hin ih =>
    obtain ⟨left, hleft, hall, hnone⟩ := ih (hstep n n1 pindex rest b hP hread hin) h
    exact ⟨left, hleft, by simp [hall, attachAll_cons hread, hbegin, hin], hnone⟩
  | case4 pindex rest n b hread _ _ hin | case5 pindex rest n b hread _ _ _ hin =>
    cases h
    refine ⟨pindex :: rest, hfail _ _ _ _ _ _ hP hread hin (by simp), ?_, nofun⟩
    simp [attachAll_cons hread, hin]
  | case6 pindex rest n b hread hbegin =>
    cases h
    exact ⟨pindex :: rest, hP, by simp [attachAll_cons hread, hbegin], nofun⟩

theorem Node.postponed_append (nBestTrust : Nat) (chain : List CBlockIndex) (hne : chain ≠ []) :
    ∃ p rest, chain = postponed nBestTrust chain ++ p :: rest := by
  induction chain with
  | nil => exact absurd rfl hne
  | cons x chain ih =>
    cases chain with
    | nil => exact ⟨x, [], rfl⟩
    | cons y chain =>
      rw [postponed]
      split
      · obtain ⟨p, rest, h⟩ := ih (by simp)
        refine ⟨p, rest, ?_⟩
        rw [cons_append, ← h]
      · exact ⟨x, y :: chain, rfl⟩

/-- The block that `SetBestChain` reorganises to, and the blocks it postpones, oldest first. -/
def Node.intermediate (n : Node) (best pindexNew : CBlockIndex) : CBlockIndex :=
  let chainNew := n.chain.mapBlockIndex.chainOf pindexNew.hashBlock
  (chainNew.drop (postponed best.nChainTrust chainNew).length).headD pindexNew

def Node.secondary (n : Node) (best pindexNew : CBlockIndex) : List CBlockIndex :=
  (postponed best.nChainTrust (n.chain.mapBlockIndex.chainOf pindexNew.hashBlock)).reverse

theorem Node.chainOf_intermediate (best : CBlockIndex)
    (hnew : n.chain.mapBlockIndex.Indexed pindexNew) :
    ∃ rest, n.chain.mapBlockIndex.chainOf pindexNew.hashBlock =
      (n.secondary best pindexNew).reverse ++ n.intermediate best pindexNew :: rest := by
  obtain ⟨p, rest, hsplit⟩ :=
    postponed_append best.nChainTrust _ (ne_nil_of_mem (mem_chainOf_self hnew))
  refine ⟨rest, ?_⟩
  simp only [secondary, intermediate]
  generalize postponed best.nChainTrust _ = later at hsplit ⊢
  simp [hsplit]

theorem Node.secondary_chain (best : CBlockIndex)
    (wf : n.chain.mapBlockIndex.WellFormed) (hnew : n.chain.mapBlockIndex.Indexed pindexNew) :
    n.chain.mapBlockIndex.Indexed (n.intermediate best pindexNew) ∧
      (∀ p ∈ n.secondary best pindexNew, n.chain.mapBlockIndex.Indexed p) ∧
      (n.intermediate best pindexNew :: n.secondary best pindexNew).IsChain
        (fun p q => q.pprev = some p.hashBlock) ∧
      (n.intermediate best pindexNew :: n.secondary best pindexNew).getLast? = some pindexNew := by
  obtain ⟨_, hsplit⟩ := n.chainOf_intermediate best hnew
  have hindexed : ∀ q ∈ n.chain.mapBlockIndex.chainOf pindexNew.hashBlock,
      n.chain.mapBlockIndex.Indexed q := fun q hq => mem_chainOf_indexed wf hq
  have hlast := getLast_above hnew hsplit
  have habove := isChain_above wf hsplit
  rw [reverse_reverse] at hlast habove
  rw [hsplit] at hindexed
  exact ⟨hindexed _ (by simp), fun q hq => hindexed q (by simp [hq]), habove, hlast⟩

/-! ## The routes of SetBestChain -/

theorem Unmoved.refl (h : s.db.activeBatch = none) : Unmoved s s :=
  ⟨SameMemory.refl s, rfl, rfl, rfl, h⟩

theorem Untouched.refl (h : s.db.activeBatch = none) : Untouched s s :=
  ⟨Unmoved.refl h, fun _ _ => rfl⟩

theorem Untouched.of_txnBegin (h : Untouched n.txnBegin.chain s') : Untouched n.chain s' :=
  .of_memory ⟨h.memory.1, h.memory.2, h.memory.3, h.memory.4, h.memory.5, h.memory.6⟩ h.pnext
    h.noBatch h.committed

theorem Node.setBestByReorganize_cases (hbest : n.chain.bestChain.head? = some best)
    (h : n.setBestByReorganize env w hash pindexNew = (n', outcome)) :
    (outcome ≠ .returned true ∧ ∃ n1 e,
        n.reorganize env w (n.intermediate best pindexNew) = (n1, .error e) ∧
        (n' = n1.txnAbort ∨ n' = n1.txnAbort.invalidChainFound pindexNew)) ∨
      ∃ n1 n2 r, n.reorganize env w (n.intermediate best pindexNew) = (n1, .ok ()) ∧
        connectFurther env w (n.secondary best pindexNew) n1 = (n2, r) ∧
        (∀ message, r = some message → n' = n2 ∧ outcome = .threw message) ∧
        (r = none → n' = n2.newBest hash pindexNew ∧ outcome = .returned true) := by
  obtain ⟨_, hchain⟩ := head?_eq_some_iff.mp hbest
  unfold setBestByReorganize at h
  rw [hchain] at h
  simp only at h
  split at h
  next n1 message hreorg =>
    cases h
    exact .inl ⟨by simp, n1, _, hreorg, .inl rfl⟩
  next n1 _ _ hreorg =>
    cases h
    exact .inl ⟨by simp, n1, _, hreorg, .inr rfl⟩
  rename_i n1 hreorg
  refine .inr ?_
  split at h
  next n2 message hfurther =>
    cases h
    refine ⟨n1, _, _, hreorg, hfurther, ?_, ?_⟩
    · rintro _ ⟨⟩
      exact ⟨rfl, rfl⟩
    · rintro ⟨⟩
  next n2 hfurther =>
    cases h
    refine ⟨n1, _, _, hreorg, hfurther, ?_, ?_⟩
    · rintro _ ⟨⟩
    · rintro -
      exact ⟨rfl, rfl⟩

/-- `pindex` is the entry of the block `b`: it has its hash, and its parent if that is known. -/
structure BlockFor (env : Env) (m : BlockMap) (b : CBlock) (pindex : CBlockIndex) : Prop where
  indexed : m.Indexed pindex
  hash : env.scryptBlockhash b.toCBlockHeader = pindex.hashBlock
  pprev : pindex.pprev = (m b.hashPrevBlock).map (fun _ => b.hashPrevBlock)

/-- **SetBestChain** at the tip `best`: nothing moves and the call fails, or the tip is extended, or
the node reorganises to the intermediate block and attaches what it can of the postponed ones. -/
theorem Node.setBestChain_cases (wf : n.chain.mapBlockIndex.WellFormed)
    (hbatch : n.chain.db.activeBatch = none) (hidx : n.chain.mapBlockIndex.Indexed best)
    (hbest : n.chain.pindexBest = some best.hashBlock)
    (hhash : n.chain.hashBestChain = best.hashBlock) (hgenesis : n.chain.pindexGenesisBlock ≠ none)
    (hfor : BlockFor env n.chain.mapBlockIndex b pindexNew)
    (h : n.setBestChain env w b pindexNew = (n', outcome)) :
    (outcome ≠ .returned true ∧ Untouched n.chain n'.chain ∧ n'.mempool = n.mempool) ∨
      (outcome = .returned true ∧ pindexNew.pprev = some best.hashBlock ∧
        ∃ n1, n.txnBegin.setBestChainInner env w b pindexNew = (n1, .returned true) ∧
          n' = n1.newBest pindexNew.hashBlock pindexNew) ∨
      ∃ n1 n2 r, w.txnBeginOk .setBestChain = true ∧ b.hashPrevBlock ≠ n.chain.hashBestChain ∧
        n.txnBegin.reorganize env w (n.intermediate best pindexNew) = (n1, .ok ()) ∧
        connectFurther env w (n.secondary best pindexNew) n1 = (n2, r) ∧
        (∀ message, r = some message → n' = n2 ∧ outcome = .threw message) ∧
        (r = none → n' = n2.newBest pindexNew.hashBlock pindexNew ∧ outcome = .returned true) := by
  unfold setBestChain at h
  simp only [hfor.hash] at h
  split at h
  · cases h
    exact .inl ⟨by simp, Untouched.refl hbatch, rfl⟩
  rename_i hbegin
  rw [if_neg (fun hgen => hgenesis hgen.1)] at h
  split at h
  next hprev =>
    -- the block extends the best block
    have hpprev : pindexNew.pprev = some best.hashBlock := by
      rw [hfor.pprev, hprev, hhash, hidx]
      rfl
    cases hin : n.txnBegin.setBestChainInner env w b pindexNew with
    | mk n1 inner =>
      rw [hin] at h
      rcases setBestChainInner_cases (n := n.txnBegin) wf rfl hidx hfor.indexed hpprev
          hfor.hash hin with ⟨rfl, -⟩ | ⟨hne, hun, hpool⟩
      · cases h
        exact .inr (.inl ⟨rfl, hpprev, n1, rfl, rfl⟩)
      have hout : (n1, inner) = (n', outcome) := by
        rcases inner with ⟨_ | _⟩ | message
        · exact h
        · exact absurd rfl hne
        · exact h
      cases hout
      exact .inl ⟨hne, hun.of_txnBegin, hpool⟩
  next hprev =>
    obtain ⟨_, hbelow⟩ := chainOf_head hidx
    have hhead : n.txnBegin.chain.bestChain.head? = some best := by
      change n.chain.bestChain.head? = some best
      rw [ChainState.bestChain, hbest]
      simp only
      rw [hbelow, head?_cons]
    rcases setBestByReorganize_cases hhead h with
      ⟨hne, n1, e, hreorg, hn'⟩ | hmoved
    · have hinter := (secondary_chain best wf hfor.indexed).1
      rcases reorganize_cases (n := n.txnBegin) wf rfl hbest hinter hreorg with
        ⟨hok, -⟩ | ⟨-, hun, hpool⟩
      · cases hok
      refine .inl ⟨hne, ?_⟩
      rcases hn' with rfl | rfl
      · exact ⟨hun.of_txnBegin, hpool⟩
      · refine ⟨(hun.trans (untouched_invalidChainFound rfl pindexNew)).of_txnBegin, ?_⟩
        rw [mempool_invalidChainFound]
        exact hpool
    · obtain ⟨n1, n2, r, hmoved⟩ := hmoved
      exact .inr (.inr ⟨n1, n2, r, by simpa using hbegin, hprev, hmoved⟩)

end HoboNickels

import HoboNickels.Agreement
import HoboNickels.TreeFrame

/-!
# The synchronized checkpoint

`AcceptBlock` consults the checkpoint through `CheckSync`; `ProcessSyncCheckpoint` and
`AcceptPendingSyncCheckpoint` move it, if need be after switching the best chain to it. In strict
mode it should only move forward along the main chain, and no block should be added that does not
descend from it (`syncCheckpoint_moves_forward`).

`CheckSync` does not walk back when checkpoint and parent are both in the main chain. But an
exception while a postponed block is connected leaves the links on one branch and the best block on
another, and then `IsInMainChain` holds of both (`forked_checkpoint_off_main_chain`).
-/

namespace HoboNickels

open Fallible WriteBatch ParentChain BlockMap ChainState Node

variable {env : Env} {w wPending : World}

variable {m : BlockMap} {s : ChainState} {hash hashProofOfStake : Uint256} {b : CBlock} {n : Node}

theorem BlockMap.mem_of_traceBack {h : Uint256} {nHeight : Nat} {p : CBlockIndex}
    (hp : m.traceBack h nHeight = some p) : p ∈ m.chainOf h := by
  exact (List.dropWhile_suffix _).subset (List.mem_of_mem_head? hp)

theorem ChainState.validateSyncCheckpoint_eq_true {s1 : ChainState}
    (wf : s.mapBlockIndex.WellFormed) (h : s.validateSyncCheckpoint hash = (s1, true)) :
    s1 = s ∧ ∃ pSync pRecv, s.mapBlockIndex s.hashSyncCheckpoint = some pSync ∧
      s.mapBlockIndex hash = some pRecv ∧ pSync.nHeight < pRecv.nHeight ∧
      s.hashSyncCheckpoint ∈ s.mapBlockIndex.hashes hash := by
  unfold validateSyncCheckpoint at h
  split at h
  next pSync pRecv hSync hRecv =>
    by_cases hold : pRecv.nHeight ≤ pSync.nHeight
    · -- an older checkpoint is refused whatever the trace back finds
      simp only [hold, decide_true, if_true] at h
      split at h
      · cases h
      · split at h <;> cases h
    · simp only [hold, decide_false, Bool.false_eq_true, if_false] at h
      split at h
      · cases h
      rename_i p hp
      split at h
      next heq =>
        cases h
        have hmem := mem_of_traceBack hp
        have hidx := mem_chainOf_indexed wf hmem
        rw [heq, wf.keyed hSync] at hidx
        rw [wf.keyed hRecv] at hmem
        exact ⟨rfl, pSync, pRecv, hSync, hRecv, by omega, (mem_hashes_iff wf).mpr ⟨p, hidx, hmem⟩⟩
      · cases h
  · cases h

/-! ## Moving forward -/

def BlockMap.Above (m : BlockMap) (a h : Uint256) : Prop :=
  ∃ p q, m a = some p ∧ m h = some q ∧ p.nHeight < q.nHeight ∧ a ∈ m.hashes h

section

variable {m' : BlockMap} (wf : m.WellFormed) (wf' : m'.WellFormed)
    (hle : ∀ {h b}, m h = some b → m' h = some b)
include wf wf' hle

theorem BlockMap.hashes_mono {h : Uint256} {b : CBlockIndex}
    (hb : m h = some b) : m'.hashes h = m.hashes h := by
  rw [hashes, hashes, chainOf_mono wf wf' hle hb]

theorem BlockMap.Above.mono {a h : Uint256} (habove : m.Above a h) : m'.Above a h := by
  obtain ⟨p, q, hp, hq, hlt, hmem⟩ := habove
  refine ⟨p, q, hle hp, hle hq, hlt, ?_⟩
  rw [hashes_mono wf wf' hle hq]
  exact hmem

end

theorem BlockMap.Above.trans (wf : m.WellFormed) {a b h : Uint256}
    (hab : m.Above a b) (hbh : m.Above b h) : m.Above a h := by
  obtain ⟨p, q, hp, hq, _, hmem⟩ := hab
  obtain ⟨_, r, hq', hr, _, hmem'⟩ := hbh
  rw [hq] at hq'
  cases hq'
  exact ⟨p, r, hp, hr, by omega, hashes_trans wf hmem hmem'⟩

/-- No block has left the index, the checkpoint has stayed or moved up, and every new block descends
from the checkpoint of `s`. -/
structure Advances (s s' : ChainState) : Prop where
  kept : ∀ {h p}, s.mapBlockIndex h = some p → s'.mapBlockIndex h = some p
  checkpoint : s'.hashSyncCheckpoint = s.hashSyncCheckpoint ∨
    s'.mapBlockIndex.Above s.hashSyncCheckpoint s'.hashSyncCheckpoint
  added : ∀ {h}, (s'.mapBlockIndex h).isSome = true → (s.mapBlockIndex h).isSome = true ∨
    s.hashSyncCheckpoint ∈ s'.mapBlockIndex.hashes h

theorem Advances.of_sameIndex {s' : ChainState} (hmap : s'.mapBlockIndex = s.mapBlockIndex)
    (hsync : s'.hashSyncCheckpoint = s.hashSyncCheckpoint) : Advances s s' := by
  refine ⟨?_, .inl hsync, ?_⟩
  · rw [hmap]
    exact fun hp => hp
  · rw [hmap]
    exact fun hh => .inl hh

theorem Advances.trans {s1 s2 s3 : ChainState} (wf2 : s2.mapBlockIndex.WellFormed)
    (wf3 : s3.mapBlockIndex.WellFormed) (h1 : Advances s1 s2) (h2 : Advances s2 s3) :
    Advances s1 s3 := by
  refine ⟨fun hp => h2.kept (h1.kept hp), ?_, ?_⟩
  · rcases h1.checkpoint with heq1 | habove1
    · rw [← heq1]
      exact h2.checkpoint
    · have hlift := habove1.mono wf2 wf3 h2.kept
      rcases h2.checkpoint with heq2 | habove2
      · rw [heq2]
        exact .inr hlift
      · exact .inr (hlift.trans wf3 habove2)
  · intro h hh
    rcases h2.added hh with hold | hnew
    · obtain ⟨p, hp⟩ := Option.isSome_iff_exists.mp hold
      rw [hashes_mono wf2 wf3 h2.kept hp]
      exact h1.added hold
    -- the checkpoint of `s1` is the one of `s2` or below it
    rcases h1.checkpoint with heq1 | habove1
    · rw [← heq1]
      exact .inr hnew
    · obtain ⟨-, -, -, -, -, hmem⟩ := habove1.mono wf2 wf3 h2.kept
      exact .inr (hashes_trans wf3 hmem hnew)

structure OnCheckpoint (env : Env) (n : Node) : Prop extends InSync env n where
  checkpoint : n.chain.hashSyncCheckpoint ∈ n.chain.bestChain.map CBlockIndex.hashBlock

theorem OnCheckpoint.tip (h : OnCheckpoint env n) : ∃ best, AtTip n.chain best ∧
      n.chain.hashSyncCheckpoint ∈ n.chain.mapBlockIndex.hashes best.hashBlock := by
  have hmem := h.checkpoint
  rcases h.best with hunset | ⟨best, htip⟩
  · rw [hunset.bestChain_eq] at hmem
    cases hmem
  · rw [htip.bestChain_eq] at hmem
    exact ⟨best, htip, hmem⟩

theorem OnCheckpoint.of_tip {best : CBlockIndex} (hsync : InSync env n) (htip : AtTip n.chain best)
    (hmem : n.chain.hashSyncCheckpoint ∈ n.chain.mapBlockIndex.hashes best.hashBlock) :
    OnCheckpoint env n := by
  refine ⟨hsync, ?_⟩
  rw [htip.bestChain_eq]
  exact hmem

theorem OnCheckpoint.indexed (h : OnCheckpoint env n) :
    (n.chain.mapBlockIndex n.chain.hashSyncCheckpoint).isSome = true ∧
      n.chain.isInMainChain n.chain.hashSyncCheckpoint = true := by
  obtain ⟨_, htip, hmem⟩ := h.tip
  obtain ⟨p, hp, -⟩ := (mem_hashes_iff h.index).mp hmem
  refine ⟨?_, (htip.isInMainChain_iff (h.linked htip) _).mpr hmem⟩
  rw [hp]
  rfl

theorem OnCheckpoint.of_isInMainChain (hsync : InSync env n)
    (hmain : n.chain.isInMainChain n.chain.hashSyncCheckpoint = true) : OnCheckpoint env n := by
  rcases hsync.best with hunset | ⟨best, htip⟩
  · unfold isInMainChain at hmain
    rw [hsync.links, hunset.bestChain_eq, hunset.pindexBest] at hmain
    cases hmain
  · exact .of_tip hsync htip ((htip.isInMainChain_iff (hsync.linked htip) _).mp hmain)

def ChainState.HorizonOk (s : ChainState) : Prop :=
  ∀ p, s.mapBlockIndex s.hashSyncCheckpoint = some p → s.nSyncCheckpointHeight ≤ p.nHeight

theorem ChainState.HorizonOk.congr {s' : ChainState} (h : s.HorizonOk)
    (hmap : s'.mapBlockIndex = s.mapBlockIndex)
    (hsync : s'.hashSyncCheckpoint = s.hashSyncCheckpoint)
    (hheight : s'.nSyncCheckpointHeight = s.nSyncCheckpointHeight) : s'.HorizonOk := by
  intro p hp
  rw [hmap, hsync] at hp
  rw [hheight]
  exact h p hp

structure Forward (env : Env) (n n' : Node) : Prop where
  on : OnCheckpoint env n'
  advances : Advances n.chain n'.chain
  horizon : n.chain.HorizonOk → n'.chain.HorizonOk

theorem Forward.trans {n₁ n₂ n₃ : Node} (h₁ : Forward env n₁ n₂) (h₂ : Forward env n₂ n₃) :
    Forward env n₁ n₃ :=
  ⟨h₂.on, h₁.advances.trans h₁.on.index h₂.on.index h₂.advances,
    fun hhor => h₂.horizon (h₁.horizon hhor)⟩

theorem ChainState.unmoved_writeSyncCheckpoint (s : ChainState) (w : World) (hash : Uint256) :
    Unmoved s (s.writeSyncCheckpoint w hash).1 := by
  have hput : ∀ k : DbKey, k ≠ .hashSyncCheckpoint →
      (Store.txnCommit (CTxDB.writeSyncCheckpoint (Store.txnBegin s.db) hash)).committed.lookup k
        = s.db.committed.lookup k := by
    intro k hk
    refine (lookup_txnCommit _ k).trans ?_
    exact (read_put_of_ne _ _ hk).trans (read_txnBegin s.db k)
  unfold writeSyncCheckpoint
  split
  · refine ⟨⟨rfl, rfl, rfl, rfl, rfl, rfl⟩, rfl, hput .hashBestChain (by simp), ?_, rfl⟩
    funext k
    exact hput (.tx k) (by simp)
  · exact ⟨⟨rfl, rfl, rfl, rfl, rfl, rfl⟩, rfl, rfl, rfl, rfl⟩

/-- The block file holds the block of the entry, and the blocks that the call postpones can be
attached. -/
def Node.SwitchOk (env : Env) (n : Node) (w : World) (hashCheckpoint : Uint256) : Prop :=
  ∀ pindex block, n.chain.mapBlockIndex hashCheckpoint = some pindex →
    w.readBlock env pindex = some block →
    BlockFor env n.chain.mapBlockIndex block pindex ∧ n.PostponedOk env w pindex

section

variable (hon : OnCheckpoint env n)
include hon

theorem Forward.of_unmoved {n' : Node} (hun : Unmoved n.chain n'.chain)
    (hsync : n'.chain.hashSyncCheckpoint = n.chain.hashSyncCheckpoint)
    (hheight : n'.chain.nSyncCheckpointHeight = n.chain.nSyncCheckpointHeight) :
    Forward env n n' := by
  obtain ⟨_, htip, hmem⟩ := hon.tip
  have hmap := hun.memory.mapBlockIndex
  refine ⟨.of_tip (hon.toInSync.unmoved hun) (htip.unmoved hun) ?_, .of_sameIndex hmap hsync,
    fun hhor => hhor.congr hmap hsync hheight⟩
  rw [hsync, hmap]
  exact hmem

theorem Forward.refl : Forward env n n :=
  .of_unmoved hon (Unmoved.refl hon.noBatch) rfl rfl

variable {pindexNew : CBlockIndex} {outcome : Outcome}

theorem Forward.setBestChain {n' : Node}
    (hfor : BlockFor env n.chain.mapBlockIndex b pindexNew) (hok : n.PostponedOk env w pindexNew)
    (hmem : n.chain.hashSyncCheckpoint ∈ n.chain.mapBlockIndex.hashes pindexNew.hashBlock)
    (h : n.setBestChain env w b pindexNew = (n', outcome)) :
    Forward env n n' ∧ (outcome = .returned true → AtTip n'.chain pindexNew) := by
  obtain ⟨_, htip, -⟩ := hon.tip
  have htree := setBestChain_sameTree env w n b pindexNew
  rw [h] at htree
  rcases htip.setBestChain_moves hon.toInSync hfor hok h with ⟨hne, hun⟩ | ⟨-, hsync, htip', -⟩
  · exact ⟨.of_unmoved hon hun htree.hashSyncCheckpoint htree.nSyncCheckpointHeight,
      fun hout => absurd hout hne⟩
  refine ⟨⟨.of_tip hsync htip' ?_, .of_sameIndex htree.mapBlockIndex htree.hashSyncCheckpoint,
    fun hhor => hhor.congr htree.mapBlockIndex htree.hashSyncCheckpoint
      htree.nSyncCheckpointHeight⟩, fun _ => htip'⟩
  rw [htree.mapBlockIndex, htree.hashSyncCheckpoint]
  exact hmem

theorem Forward.indexBlock {nFile nBlockPos : Nat}
    (hnew : n.chain.newBlockIndex env b nFile nBlockPos hashProofOfStake = .ok pindexNew)
    (hmem : n.chain.hashSyncCheckpoint ∈ n.chain.mapBlockIndex.hashes b.hashPrevBlock) (w : World) :
    let n1 := n.entered w pindexNew
    Forward env n n1 ∧ BlockFor env n1.chain.mapBlockIndex b pindexNew ∧
      n1.chain.hashSyncCheckpoint ∈ n1.chain.mapBlockIndex.hashes pindexNew.hashBlock := by
  intro n1
  obtain ⟨best, htip, hbest⟩ := hon.tip
  obtain ⟨hhash, hnone, hpprev, -⟩ := newBlockIndex_ok hnew
  obtain ⟨hmap, -⟩ := indexBlock_frame hon.noBatch w pindexNew
  obtain ⟨hcp, hcpHeight⟩ := n.chain.indexBlock_checkpoint w pindexNew
  -- the parent is in the index, and it is not the new block
  obtain ⟨_, hanc, -⟩ := List.mem_map.mp hmem
  obtain ⟨_, hparent⟩ := exists_of_mem_chainOf hanc
  have hkeep : ∀ {h p}, n.chain.mapBlockIndex h = some p → n1.chain.mapBlockIndex h = some p :=
    indexBlock_keeps hon.noBatch hnone w
  have hsync : InSync env n1 := hon.toInSync.indexBlock hnew
    (.inl ⟨by rw [hparent]; rfl, by rw [htip.pindexBest]; rfl⟩) w
  have hself : n1.chain.mapBlockIndex pindexNew.hashBlock = some pindexNew :=
    (congrFun hmap _).trans (Function.update_self _ _ _)
  have hfor : BlockFor env n1.chain.mapBlockIndex b pindexNew := by
    refine ⟨hself, hhash, ?_⟩
    rw [hpprev, hparent, hkeep hparent]
  have hup : pindexNew.pprev = some b.hashPrevBlock := by
    rw [hpprev, hparent]
    rfl
  have hdesc : n.chain.hashSyncCheckpoint ∈ n1.chain.mapBlockIndex.hashes pindexNew.hashBlock := by
    rw [hashes, chainOf_pprev hsync.index hself hup]
    refine List.mem_cons_of_mem _ ?_
    rw [chainOf_mono hon.index hsync.index hkeep hparent]
    exact hmem
  have htip1 : AtTip n1.chain best := htip.indexBlock hon.noBatch hnone w
  refine ⟨⟨.of_tip hsync htip1 ?_, ⟨hkeep, .inl hcp, ?_⟩, ?_⟩, hfor, hcp ▸ hdesc⟩
  · rw [hcp, hashes_mono hon.index hsync.index hkeep htip.indexed]
    exact hbest
  · intro h hh
    by_cases heq : h = pindexNew.hashBlock
    · rw [heq]
      exact .inr hdesc
    refine .inl ?_
    have hold : n1.chain.mapBlockIndex h = n.chain.mapBlockIndex h :=
      (congrFun hmap h).trans (Function.update_of_ne heq _ _)
    rw [← hold]
    exact hh
  · intro hhor p hp
    obtain ⟨q, hq, -⟩ := (mem_hashes_iff hon.index).mp hbest
    rw [hcp, hkeep hq] at hp
    cases hp
    rw [hcpHeight]
    exact hhor p hq

theorem Forward.takeCheckpoint (hmain : hash ∈ n.chain.bestChain.map CBlockIndex.hashBlock)
    (habove : n.chain.mapBlockIndex.Above n.chain.hashSyncCheckpoint hash) (w : World) :
    Forward env n (n.takeCheckpoint w hash).1 := by
  have hun := n.chain.unmoved_writeSyncCheckpoint w hash
  unfold Node.takeCheckpoint
  rcases hwrite : n.chain.writeSyncCheckpoint w hash with ⟨s1, ok⟩
  rw [hwrite] at hun
  have hmap := hun.memory.mapBlockIndex
  have hstate : s1.hashSyncCheckpoint = (if ok then hash else n.chain.hashSyncCheckpoint) ∧
      s1.nSyncCheckpointHeight = (if ok then ((n.chain.mapBlockIndex hash).map
        (fun p => (p.nHeight : Int))).getD 0 else n.chain.nSyncCheckpointHeight) := by
    unfold writeSyncCheckpoint at hwrite
    split at hwrite <;> cases hwrite <;> exact ⟨rfl, rfl⟩
  obtain ⟨hstate, hheight⟩ := hstate
  cases ok with
  | false => exact .of_unmoved hon hun hstate hheight
  | true =>
    rw [if_pos rfl] at hstate hheight
    obtain ⟨_, htip, -⟩ := hon.tip
    rw [htip.bestChain_eq] at hmain
    have hmem := hun.memory
    have hun' : Unmoved n.chain { s1 with hashPendingCheckpoint := 0 } :=
      ⟨{ hmem with }, hun.2, hun.3, hun.4, hun.5⟩
    refine ⟨.of_tip (hon.toInSync.unmoved hun') (htip.unmoved hun') ?_, ⟨?_, .inr ?_, ?_⟩, ?_⟩
    · rw [hstate, hmap]
      exact hmain
    · intro h p hp
      exact (congrFun hmap h).trans hp
    · rw [hstate, hmap]
      exact habove
    · intro h hh
      rw [hmap] at hh
      exact .inl hh
    intro _ p hp
    rw [hmap, hstate] at hp
    rw [hheight, hp]
    exact le_refl _

/-- **CheckSync.** A new block passes only if its parent descends from the checkpoint. -/
theorem OnCheckpoint.descends_of_checkSync {pindexPrev : CBlockIndex}
    (hnew : n.chain.mapBlockIndex hash = none) (hprev : n.chain.mapBlockIndex.Indexed pindexPrev)
    (h : n.chain.checkSync hash pindexPrev = some true) :
    n.chain.hashSyncCheckpoint ∈ n.chain.mapBlockIndex.hashes pindexPrev.hashBlock := by
  obtain ⟨_, htip, hmem⟩ := hon.tip
  obtain ⟨pSync, hSync, hSyncMem⟩ := (mem_hashes_iff hon.index).mp hmem
  unfold checkSync at h
  rw [hSync] at h
  simp only [Option.some.injEq, Bool.and_eq_true, Bool.not_eq_true', Bool.and_eq_false_iff,
    decide_eq_false_iff_not, Bool.not_eq_false', hnew, Option.isNone_none] at h
  obtain ⟨⟨habove, hsame⟩, hbelow⟩ := h
  have hne : hash ≠ n.chain.hashSyncCheckpoint := by
    rintro rfl
    rw [hnew] at hSync
    cases hSync
  have hheight : pSync.nHeight < pindexPrev.nHeight + 1 := by
    rcases hbelow with hbelow | hbelow
    · rcases hsame with hsame | hsame
      · have : pindexPrev.nHeight + 1 ≠ pSync.nHeight := by simpa using hsame
        omega
      · simp [hne] at hsame
    · cases hbelow
  rcases habove with (hlow | ⟨-, hmainPrev⟩) | hdesc
  · exact absurd hheight hlow
  · -- both on the best chain
    have hprevMem := (htip.isInMainChain_iff (hon.linked htip) _).mp hmainPrev
    obtain ⟨p, hp, hpmem⟩ := (mem_hashes_iff hon.index).mp hprevMem
    rw [show n.chain.mapBlockIndex pindexPrev.hashBlock = some pindexPrev from hprev] at hp
    cases hp
    exact (mem_hashes_iff hon.index).mpr ⟨pSync, hSync,
      mem_chainOf_of_nHeight_le hon.index hSyncMem hpmem (by omega)⟩
  · split at hdesc
    · cases hdesc
    next p hp =>
      simp only [Bool.and_eq_true, beq_iff_eq] at hdesc
      have hpmem := mem_of_traceBack hp
      rw [hashes, List.mem_map]
      exact ⟨p, hpmem, hdesc.2⟩

/-! ## The three calls -/

theorem Forward.switch {n2 : Node} {pindex : CBlockIndex} {block : CBlock}
    (hok : n.SwitchOk env w hash) (hidx : n.chain.mapBlockIndex hash = some pindex)
    (habove : n.chain.mapBlockIndex.Above n.chain.hashSyncCheckpoint hash)
    (hread : w.readBlock env pindex = some block)
    (hset : n.setBestChain env w block pindex = (n2, outcome)) :
    Forward env n n2 ∧ (outcome = .returned true → Forward env n (n2.takeCheckpoint w hash).1) := by
  obtain ⟨hfor, hpost⟩ := hok pindex block hidx hread
  obtain ⟨-, -, -, -, -, hmem⟩ := id habove
  have hkey : pindex.hashBlock = hash := hon.index.keyed hidx
  obtain ⟨hforward, htip⟩ := Forward.setBestChain hon hfor hpost (hkey.symm ▸ hmem) hset
  refine ⟨hforward, ?_⟩
  intro hout
  have htree := setBestChain_sameTree env w n block pindex
  rw [hset] at htree
  have htip2 := htip hout
  refine hforward.trans (Forward.takeCheckpoint hforward.on ?_ ?_ w)
  · obtain ⟨_, hbelow⟩ := mem_hashes_self htip2.indexed
    rw [htip2.bestChain_eq]
    change hash ∈ n2.chain.mapBlockIndex.hashes pindex.hashBlock
    rw [hbelow, hkey]
    exact List.mem_cons_self
  · rw [htree.mapBlockIndex, htree.hashSyncCheckpoint]
    exact habove

theorem Forward.processSyncCheckpoint (fSigned : Bool) (hok : n.SwitchOk env w hash) :
    Forward env n (n.processSyncCheckpoint env w fSigned hash).1 := by
  have hbatch := hon.noBatch
  unfold Node.processSyncCheckpoint
  split
  · exact .refl hon
  split
  · exact .of_unmoved hon ⟨⟨rfl, rfl, rfl, rfl, rfl, rfl⟩, rfl, rfl, rfl, hbatch⟩ rfl rfl
  rename_i pindex hidx
  split
  next s1 hvalid =>
    rw [validateSyncCheckpoint_frame hvalid]
    exact .of_unmoved hon ⟨⟨rfl, rfl, rfl, rfl, rfl, rfl⟩, rfl, rfl, rfl, hbatch⟩ rfl rfl
  rename_i s1 hvalid
  obtain ⟨rfl, habove⟩ := validateSyncCheckpoint_eq_true hon.index hvalid
  simp only
  split
  next hmain =>
    obtain ⟨_, htip, -⟩ := hon.tip
    refine .takeCheckpoint hon ?_ habove w
    rw [htip.bestChain_eq, ← hon.index.keyed hidx]
    exact (htip.isInMainChain_iff (hon.linked htip) _).mp hmain
  split
  · exact .refl hon
  rename_i block hread
  split
  next n2 message hset => exact (Forward.switch hon hok hidx habove hread hset).1
  next n2 hset =>
    have hswitch := (Forward.switch hon hok hidx habove hread hset).1
    exact hswitch.trans (.of_unmoved hswitch.on
      ⟨⟨rfl, rfl, rfl, rfl, rfl, rfl⟩, rfl, rfl, rfl, hswitch.on.noBatch⟩ rfl rfl)
  next n2 hset => exact (Forward.switch hon hok hidx habove hread hset).2 rfl

theorem Forward.acceptPendingSyncCheckpoint
    (hok : n.SwitchOk env w n.chain.hashPendingCheckpoint) :
    Forward env n (n.acceptPendingSyncCheckpoint env w).1 := by
  obtain heq | ⟨_, heq⟩ := acceptPendingSyncCheckpoint_cases n env w
  · rw [heq]
    exact .refl hon
  · have hforward := Forward.processSyncCheckpoint hon true hok
    rw [heq]
    exact hforward.trans (.of_unmoved hforward.on
      ⟨⟨rfl, rfl, rfl, rfl, rfl, rfl⟩, rfl, rfl, rfl, hforward.on.noBatch⟩ rfl rfl)

end

theorem ChainState.checkAccept_ok (hstrict : env.checkpointsMode = .strict)
    (h : s.checkAccept env w b = .ok hashProofOfStake) :
    s.mapBlockIndex (env.scryptBlockhash b.toCBlockHeader) = none ∧
      ∃ pindexPrev, s.mapBlockIndex b.hashPrevBlock = some pindexPrev ∧
        checkHardened env (pindexPrev.nHeight + 1) (env.scryptBlockhash b.toCBlockHeader) = true ∧
        s.checkSync (env.scryptBlockhash b.toCBlockHeader) pindexPrev = some true := by
  simp only [checkAccept, bind_eq_ok, require_eq_ok, demand_eq_ok, hstrict] at h
  obtain ⟨_, hnone, pindexPrev, hprev, _, -, _, -, _, hhard, _, -, fCp, hsync, _, hsat, -⟩ := h
  refine ⟨by simpa using hnone, pindexPrev, hprev, hhard, ?_⟩
  obtain rfl : fCp = true := by simpa using hsat
  exact hsync

/-- A call of `AcceptBlock` whose two calls of `SetBestChain` can attach what they postpone. -/
structure Node.AcceptOk (env : Env) (n : Node) (w wPending : World) (b : CBlock) : Prop where
  added : ∀ {nFile nBlockPos hashProofOfStake pindexNew},
    n.chain.newBlockIndex env b nFile nBlockPos hashProofOfStake = .ok pindexNew →
    PostponedOk env (n.entered w pindexNew) w pindexNew
  pending : ∀ {hashProofOfStake n₁}, n.chain.checkAccept env w b = .ok hashProofOfStake →
    n.storeBlock env w b hashProofOfStake = (n₁, .ok ()) →
    n₁.SwitchOk env wPending n₁.chain.hashPendingCheckpoint

section

variable (hstrict : env.checkpointsMode = .strict) (hon : OnCheckpoint env n)
include hstrict hon

theorem OnCheckpoint.descends_of_checkAccept
    (hcheck : n.chain.checkAccept env w b = .ok hashProofOfStake) :
    n.chain.hashSyncCheckpoint ∈ n.chain.mapBlockIndex.hashes b.hashPrevBlock := by
  obtain ⟨hnew, _, hprev, -, hsync⟩ := checkAccept_ok hstrict hcheck
  have hmem := hon.descends_of_checkSync hnew (hon.index.indexed hprev) hsync
  rw [hon.index.keyed hprev] at hmem
  exact hmem

theorem Forward.storeBlock (hok : n.AcceptOk env w wPending b)
    (hcheck : n.chain.checkAccept env w b = .ok hashProofOfStake) :
    Forward env n (n.storeBlock env w b hashProofOfStake).1 := by
  have hmem := hon.descends_of_checkAccept hstrict hcheck
  refine storeBlock_induct (fun r => Forward env n r.1) (fun _ => .refl hon) fun _ _ _ _ => ?_
  refine addToBlockIndex_induct (fun r => Forward env n r.1) (fun _ _ => .refl hon)
    (fun _ _ hnew => (Forward.indexBlock hon hnew hmem w).1) fun _ hnew => ?_
  obtain ⟨hindex, hfor, hdesc⟩ := Forward.indexBlock hon hnew hmem w
  exact hindex.trans (Forward.setBestChain hindex.on hfor (hok.added hnew) hdesc rfl).1

theorem Forward.acceptBlock (hok : n.AcceptOk env w wPending b) :
    Forward env n (n.acceptBlock env w wPending b).1 := by
  have hstore : ∀ {hashProofOfStake n1 r}, n.chain.checkAccept env w b = .ok hashProofOfStake →
      n.storeBlock env w b hashProofOfStake = (n1, r) → Forward env n n1 := by
    intro hashProofOfStake n1 r hcheck hn1
    have hforward := Forward.storeBlock hstrict hon hok hcheck
    rwa [hn1] at hforward
  refine acceptBlock_induct (fun r => Forward env n r.1) (fun _ => .refl hon)
    (fun _ _ _ => hstore) fun _ n1 _ hcheck hn1 => ?_
  have hforward := hstore hcheck hn1
  exact hforward.trans (Forward.acceptPendingSyncCheckpoint hforward.on (hok.pending hcheck hn1))

end

/-! ## Runs -/

inductive SyncCall where
  | acceptBlock (w wPending : World) (b : CBlock)
  | processSyncCheckpoint (w : World) (fSigned : Bool) (hashCheckpoint : Uint256)
  | acceptPendingSyncCheckpoint (w : World)

namespace SyncCall

def run (env : Env) (n : Node) : SyncCall → Node
  | acceptBlock w wPending b => (n.acceptBlock env w wPending b).1
  | processSyncCheckpoint w fSigned hashCheckpoint =>
    (n.processSyncCheckpoint env w fSigned hashCheckpoint).1
  | acceptPendingSyncCheckpoint w => (n.acceptPendingSyncCheckpoint env w).1

def Ok (env : Env) (n : Node) : SyncCall → Prop
  | acceptBlock w wPending b => n.AcceptOk env w wPending b
  | processSyncCheckpoint w _ hashCheckpoint => n.SwitchOk env w hashCheckpoint
  | acceptPendingSyncCheckpoint w => n.SwitchOk env w n.chain.hashPendingCheckpoint

theorem forward (hstrict : env.checkpointsMode = .strict) (hon : OnCheckpoint env n)
    (call : SyncCall) (hok : call.Ok env n) : Forward env n (call.run env n) := by
  rcases call with ⟨w, _, b⟩ | ⟨w, _, _⟩ | w
  · exact Forward.acceptBlock hstrict hon hok
  · exact Forward.processSyncCheckpoint hon _ hok
  · exact Forward.acceptPendingSyncCheckpoint hon hok

end SyncCall

abbrev SyncRun (env : Env) : Node → Node → Prop :=
  Relation.ReflTransGen (fun n n' => ∃ call : SyncCall, call.Ok env n ∧ n' = call.run env n)

theorem SyncRun.forward {n' : Node} (hstrict : env.checkpointsMode = .strict)
    (hon : OnCheckpoint env n) (hrun : SyncRun env n n') : Forward env n n' := by
  induction hrun with
  | refl => exact .refl hon
  | tail _ hstep ih =>
    obtain ⟨call, hok, rfl⟩ := hstep
    exact ih.trans (call.forward hstrict ih.on hok)

/-- **The checkpoint only moves forward.** In strict mode, as long as postponed blocks can be
attached, the checkpoint is at every moment an indexed block of the main chain, only moves up to
descendants, and only its descendants are added to the index. -/
theorem syncCheckpoint_moves_forward {n₀ n n' : Node} (hstrict : env.checkpointsMode = .strict)
    (h₀ : InSync env n₀) (hmain : n₀.chain.isInMainChain n₀.chain.hashSyncCheckpoint = true)
    (hrun : SyncRun env n₀ n) (hlater : SyncRun env n n') :
    (n.chain.mapBlockIndex n.chain.hashSyncCheckpoint).isSome = true ∧
      n.chain.isInMainChain n.chain.hashSyncCheckpoint = true ∧
      n.chain.hashSyncCheckpoint ∈ n.chain.bestChain.map CBlockIndex.hashBlock ∧
      Advances n.chain n'.chain := by
  have hon := (SyncRun.forward hstrict (.of_isInMainChain h₀ hmain) hrun).on
  exact ⟨hon.indexed.1, hon.indexed.2, hon.checkpoint, (hlater.forward hstrict hon).advances⟩

def grownNode : Node :=
  SyncCall.run sampleEnv genesisNode (.acceptBlock (minedWorld 2) (minedWorld 2) (minedBlock 2 1 1))

def grownCheckpoint : Node :=
  SyncCall.run sampleEnv grownNode (.processSyncCheckpoint (minedWorld 2) true 2)

theorem inSync_genesisNode : InSync sampleEnv genesisNode :=
  (inSync_emptyNode sampleEnv).run genesisNode_run

theorem postponedOk_of_extends {nFile nBlockPos : Nat} (hon : OnCheckpoint env n)
    (hprev : b.hashPrevBlock = n.chain.hashBestChain)
    (hnew : n.chain.newBlockIndex env b nFile nBlockPos hashProofOfStake = .ok pindexNew) :
    PostponedOk env (n.entered w pindexNew) w pindexNew := by
  obtain ⟨_, htip, hmem⟩ := hon.tip
  rw [← htip.hashBestChain, ← hprev] at hmem
  obtain ⟨hindex, hfor, -⟩ := Forward.indexBlock hon hnew hmem w
  refine postponedOk_of_child hindex.on.toInSync hfor (hprev.trans ?_)
  exact (indexBlock_frame hon.noBatch w pindexNew).2.2.2.2.1.symm

theorem acceptOk_grownNode :
    genesisNode.AcceptOk sampleEnv (minedWorld 2) (minedWorld 2) (minedBlock 2 1 1) := by
  have hon : OnCheckpoint sampleEnv genesisNode :=
    .of_isInMainChain inSync_genesisNode (by decide +kernel)
  constructor
  · intro nFile nBlockPos hashProofOfStake pindexNew hnew
    exact postponedOk_of_extends hon (by decide +kernel) hnew
  intro hashProofOfStake n1 hcheck hstore pindex block hidx
  -- nothing is pending, and no block has the hash 0
  have hzero : (genesisNode.chain.checkAccept sampleEnv (minedWorld 2)
      (minedBlock 2 1 1)).toOption = some 0 := by decide +kernel
  rw [hcheck] at hzero
  obtain rfl : hashProofOfStake = 0 := Option.some.inj hzero
  have hpending : let s := (genesisNode.storeBlock sampleEnv (minedWorld 2)
      (minedBlock 2 1 1) 0).1.chain
    (s.mapBlockIndex s.hashPendingCheckpoint).isNone = true := by decide +kernel
  simp only [hstore, hidx] at hpending
  cases hpending

theorem grownNode_run : SyncRun sampleEnv genesisNode grownNode :=
  .single ⟨.acceptBlock (minedWorld 2) (minedWorld 2) (minedBlock 2 1 1),
    acceptOk_grownNode, rfl⟩

theorem switchOk_grownNode : grownNode.SwitchOk sampleEnv (minedWorld 2) 2 := by
  intro pindex block hidx hread
  have hsync := (grownNode_run.forward rfl
    (.of_isInMainChain inSync_genesisNode (by decide +kernel))).on.toInSync
  have hfacts : ((grownNode.chain.mapBlockIndex 2).bind fun p =>
      (World.readBlock (minedWorld 2) sampleEnv p).map fun b => (b.hashPrevBlock, p.pprev))
        = some (1, some 1) := by decide +kernel
  rw [hidx, Option.bind_some, hread] at hfacts
  obtain ⟨hprev, hpprev⟩ := Prod.mk.inj (Option.some.inj hfacts)
  constructor
  · refine ⟨hsync.index.indexed hidx, (World.readBlock_eq_some hread).2.2, ?_⟩
    have hparent : (grownNode.chain.mapBlockIndex 1).map (fun _ => 1) = some 1 := by decide +kernel
    rw [hpprev, hprev, hparent]
  intro best n1 _ hhead _
  have hnone : ((grownNode.chain.bestChain.head?).bind fun b =>
      (grownNode.chain.mapBlockIndex 2).map fun p => (grownNode.secondary b p).isEmpty)
        = some true := by decide +kernel
  rw [hhead, hidx] at hnone
  rw [List.isEmpty_iff.mp (Option.some.inj hnone)]
  trivial

theorem grownCheckpoint_run : SyncRun sampleEnv grownNode grownCheckpoint :=
  .single ⟨.processSyncCheckpoint (minedWorld 2) true 2, switchOk_grownNode,
    rfl⟩

theorem syncCheckpoint_moves_forward_grown :
    sampleEnv.checkpointsMode = .strict ∧ InSync sampleEnv genesisNode ∧
      genesisNode.chain.isInMainChain genesisNode.chain.hashSyncCheckpoint = true ∧
      SyncRun sampleEnv genesisNode grownNode ∧ SyncRun sampleEnv grownNode grownCheckpoint ∧
      grownNode.chain.hashSyncCheckpoint = 1 ∧ grownCheckpoint.chain.hashSyncCheckpoint = 2 ∧
      Advances grownNode.chain grownCheckpoint.chain := by
  have hmain : genesisNode.chain.isInMainChain genesisNode.chain.hashSyncCheckpoint = true := by
    decide +kernel
  exact ⟨rfl, inSync_genesisNode, hmain, grownNode_run, grownCheckpoint_run, by decide +kernel,
    by decide +kernel, (syncCheckpoint_moves_forward rfl inSync_genesisNode hmain grownNode_run
      grownCheckpoint_run).2.2.2⟩

/-! ## Two main chains -/

/-- Block 5 as the block file returns it: the header is intact, the amount of the coinbase is not
in the range of amounts. -/
def damagedBlock : CBlock :=
  { minedBlock 5 4 3 with
    vtx := (minedBlock 5 4 3).vtx.map fun tx =>
      { tx with vout := [⟨maxMoney + 1, [0x51]⟩] } }

def forkWorld (hash : Uint256) : World :=
  { sampleWorld [minedBlock 1 0 0, minedBlock 2 1 1, minedBlock 3 1 1, minedBlock 4 3 2,
      damagedBlock] with
    nAdjustedTime := sampleTime + 600
    writeToDisk := some (1, 1000 * hash) }

/-- The reorganisation to block 4 is not committed the first time; the second time it is, and then
block 5 is read from the block file. -/
def forkCalls : List SyncCall :=
  let w₄ := { forkWorld 4 with txnCommitOk := fun site => site != .reorganize }
  [.acceptBlock (forkWorld 2) (forkWorld 2) (minedBlock 2 1 1),
    .acceptBlock (forkWorld 3) (forkWorld 3) (minedBlock 3 1 1),
    .acceptBlock w₄ w₄ (minedBlock 4 3 2),
    .acceptBlock (forkWorld 5) (forkWorld 5) (minedBlock 5 4 3)]

def forkedNode : Node := forkCalls.foldl (SyncCall.run sampleEnv) genesisNode

def forkedCheckpoint : Node :=
  SyncCall.run sampleEnv forkedNode (.processSyncCheckpoint (forkWorld 3) true 3)

def forkedBlock : Node :=
  SyncCall.run sampleEnv forkedCheckpoint
    (.acceptBlock (forkWorld 7) (forkWorld 7) (minedBlock 7 2 2))

/-- Both branches pass for the main chain: block 3 becomes the checkpoint while it is not an
ancestor of the best block, and block 7 is added while it does not descend from block 3. -/
theorem forked_checkpoint_off_main_chain :
    sampleEnv.checkpointsMode = .strict ∧ InSync sampleEnv genesisNode ∧
      genesisNode.chain.isInMainChain genesisNode.chain.hashSyncCheckpoint = true ∧
      forkedCheckpoint.chain.hashSyncCheckpoint = 3 ∧
      forkedCheckpoint.chain.bestChain.map CBlockIndex.hashBlock = [2, 1] ∧
      (forkedCheckpoint.chain.mapBlockIndex 7).isSome = false ∧
      (forkedBlock.chain.mapBlockIndex 7).isSome = true ∧
      forkedBlock.chain.mapBlockIndex.hashes 7 = [7, 2, 1] ∧
      ¬ Advances forkedCheckpoint.chain forkedBlock.chain := by
  have hsync : forkedCheckpoint.chain.hashSyncCheckpoint = 3 := by decide +kernel
  have hbefore : (forkedCheckpoint.chain.mapBlockIndex 7).isSome = false := by decide +kernel
  have hafter : (forkedBlock.chain.mapBlockIndex 7).isSome = true := by decide +kernel
  have hashes : forkedBlock.chain.mapBlockIndex.hashes 7 = [7, 2, 1] := by decide +kernel
  refine ⟨rfl, inSync_genesisNode, by decide +kernel, hsync, by decide +kernel, hbefore, hafter,
    hashes, ?_⟩
  intro hadv
  rcases hadv.added hafter with hold | hmem
  · cases hold
  · revert hmem
    decide

end HoboNickels

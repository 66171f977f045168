import HoboNickels.Orphans

/-!
# The buffer of orphan blocks

`mapOrphanBlocks` has the buffered blocks by hash, `mapOrphanBlocksByPrev` by parent, and
`setStakeSeenOrphan` the stakes of the proof-of-stake ones. The two maps hold the same blocks after
any run (`SameBlocks`). The set does not follow them everywhere: a block with the stake of a
buffered one is let in when a child of it is buffered or a pending checkpoint wants it, and the
first of the two to leave takes the stake along (`shared_stake_forgotten`).
`orphanBlocks_consistent` says that nothing else goes wrong.
-/

namespace HoboNickels

open Fallible List SyncNode OrphanBlocks OrphanBlocks

variable {env : Env} {w wPending : World} {r : Except Fail Unit}

namespace Node

/-- Nothing is taken out of the index, and `b` is there if `ok`. -/
def Keeps (env : Env) (n n' : Node) (b : CBlock) (ok : Prop) : Prop :=
  (∀ k, (n.chain.mapBlockIndex k).isSome = true → (n'.chain.mapBlockIndex k).isSome = true) ∧
    (ok → (n'.chain.mapBlockIndex (env.scryptBlockhash b.toCBlockHeader)).isSome = true)

theorem addToBlockIndex_indexed (n : Node) (b : CBlock) (nFile nBlockPos : Nat)
    (hashProofOfStake : Uint256) :
    Keeps env n (n.addToBlockIndex env w b nFile nBlockPos hashProofOfStake).1 b
      ((n.addToBlockIndex env w b nFile nBlockPos hashProofOfStake).2 = .returned true) := by
  have hindex : ∀ {n' : Node} {pindexNew : CBlockIndex} {ok : Prop},
      n.chain.newBlockIndex env b nFile nBlockPos hashProofOfStake = .ok pindexNew →
      n'.chain.mapBlockIndex = (n.chain.indexBlock w pindexNew).1.mapBlockIndex →
      Keeps env n n' b ok := by
    intro n' pindexNew ok hnew hmap
    rw [ChainState.mapBlockIndex_indexBlock] at hmap
    rw [Keeps, hmap]
    constructor
    · intro k hk
      by_cases hkh : k = pindexNew.hashBlock
      · simp [hkh]
      · rwa [Function.update_of_ne hkh]
    · simp [(ChainState.newBlockIndex_ok hnew).1]
  refine addToBlockIndex_induct (fun r => Keeps env n r.1 b (r.2 = .returned true))
    (fun _ hne => ⟨fun _ hk => hk, fun heq => absurd heq hne⟩)
    (fun _ _ hnew => hindex hnew rfl) fun pindexNew hnew => hindex hnew ?_
  exact (setBestChain_sameTree env w _ b pindexNew).mapBlockIndex

/-- **AcceptBlock** takes nothing out of the index, and has put the block there if it returns
true. -/
theorem acceptBlock_indexed {n n' : Node} {b : CBlock}
    (h : n.acceptBlock env w wPending b = (n', r)) :
    (∀ k, (n.chain.mapBlockIndex k).isSome = true → (n'.chain.mapBlockIndex k).isSome = true) ∧
      (r = .ok () →
        (n'.chain.mapBlockIndex (env.scryptBlockhash b.toCBlockHeader)).isSome = true) := by
  have hstore : ∀ hashProofOfStake, Keeps env n (n.storeBlock env w b hashProofOfStake).1 b
      ((n.storeBlock env w b hashProofOfStake).2 = .ok ()) := fun hashProofOfStake =>
    storeBlock_induct (fun r => Keeps env n r.1 b (r.2 = .ok ()))
      (fun _ => ⟨fun _ hk => hk, nofun⟩) fun nFile nBlockPos _ hr =>
        (addToBlockIndex_indexed n b nFile nBlockPos hashProofOfStake).imp_right (· ∘ hr)
  have hkeeps : Keeps env n (n.acceptBlock env w wPending b).1 b
      ((n.acceptBlock env w wPending b).2 = .ok ()) := by
    refine acceptBlock_induct (fun r => Keeps env n r.1 b (r.2 = .ok ()))
      (fun _ => ⟨fun _ hk => hk, nofun⟩) (fun hashProofOfStake _ _ _ hn1 => ?_)
      fun hashProofOfStake _ _ _ hn1 => ?_
    · exact hn1 ▸ hstore hashProofOfStake
    rw [Keeps, mapBlockIndex_acceptPendingSyncCheckpoint]
    have hok := hstore hashProofOfStake
    rw [hn1] at hok
    exact hok.imp_right fun hin _ => hin rfl
  rwa [h] at hkeeps

end Node

/-! ## The two maps -/

theorem CBlock.getProofOfStake_ne {a b : CBlock} (ha : a.isProofOfStake = true)
    (hb : b.isProofOfStake = false) : a.getProofOfStake ≠ b.getProofOfStake := by
  have hnull : b.getProofOfStake = (COutPoint.null, 0) := by
    unfold isProofOfStake at hb
    unfold getProofOfStake
    split at hb
    · simp [hb]
    · rfl
  unfold isProofOfStake at ha
  split at ha
  next tx rest hvtx =>
    have hkernel : ((tx.vin.headD default).prevout).isNull = false := by
      unfold CTransaction.isCoinStake at ha
      split at ha
      next txin vin _ _ _ hvin _ =>
        rw [hvin]
        simpa using (Bool.and_eq_true_iff.mp ha).1
      · cases ha
    rw [hnull]
    intro heq
    simp only [getProofOfStake, hvtx, ha, if_true, Prod.mk.injEq] at heq
    rw [heq.1] at hkernel
    simp [COutPoint.isNull, COutPoint.null] at hkernel
  · cases ha

namespace OrphanBlocks

variable {o : OrphanBlocks env} {b : CBlock}

def hashes (o : OrphanBlocks env) : List Uint256 :=
  o.mapOrphanBlocks.map (fun b => env.scryptBlockhash b.toCBlockHeader)

structure SameBlocks (o : OrphanBlocks env) : Prop where
  perm : o.mapOrphanBlocksByPrev.Perm o.mapOrphanBlocks
  hashes_nodup : o.hashes.Nodup

theorem SameBlocks.nodup (h : o.SameBlocks) : o.mapOrphanBlocks.Nodup :=
  Nodup.of_map _ h.hashes_nodup

theorem SameBlocks.empty : (empty : OrphanBlocks env).SameBlocks :=
  ⟨Perm.refl _, nodup_nil⟩

section

variable (h : o.SameBlocks) (hb : b ∈ o.mapOrphanBlocks)
include h hb

theorem SameBlocks.mapOrphanBlocks_drop
    (f : Bool) : (o.drop b f).mapOrphanBlocks = o.mapOrphanBlocks.erase b := by
  have hkey : ∀ x ∈ o.mapOrphanBlocks, env.scryptBlockhash x.toCBlockHeader =
      env.scryptBlockhash b.toCBlockHeader ↔ x = b :=
    fun x hx => ⟨inj_on_of_nodup_map h.hashes_nodup hx hb, fun heq => heq ▸ rfl⟩
  rw [h.nodup.erase_eq_filter]
  refine filter_congr fun x hx => ?_
  rw [Bool.eq_iff_iff]
  simp [hkey x hx]

theorem SameBlocks.mem_drop {f : Bool}
    {x : CBlock} : x ∈ (o.drop b f).mapOrphanBlocks ↔ x ≠ b ∧ x ∈ o.mapOrphanBlocks := by
  rw [h.mapOrphanBlocks_drop hb]
  exact h.nodup.mem_erase_iff

theorem SameBlocks.length_drop (f : Bool) :
    (o.drop b f).mapOrphanBlocks.length + 1 = o.mapOrphanBlocks.length := by
  rw [h.mapOrphanBlocks_drop hb, length_erase_of_mem hb]
  have := length_pos_of_mem hb
  omega

theorem SameBlocks.drop (f : Bool) : (o.drop b f).SameBlocks where
  perm := by
    rw [h.mapOrphanBlocks_drop hb]
    exact h.perm.erase b
  hashes_nodup := by
    unfold hashes
    rw [h.mapOrphanBlocks_drop hb]
    exact h.hashes_nodup.sublist (erase_sublist.map _)

end

theorem perm_add (o : OrphanBlocks env) (b : CBlock) :
    (o.add b).mapOrphanBlocks.Perm (b :: o.mapOrphanBlocks) :=
  perm_orderedInsert _ b o.mapOrphanBlocks

theorem mem_add {x : CBlock} : x ∈ (o.add b).mapOrphanBlocks ↔ x = b ∨ x ∈ o.mapOrphanBlocks := by
  rw [(perm_add o b).mem_iff, mem_cons]

theorem length_add (o : OrphanBlocks env) (b : CBlock) :
    (o.add b).mapOrphanBlocks.length = o.mapOrphanBlocks.length + 1 := by
  rw [(perm_add o b).length_eq, length_cons]

theorem SameBlocks.add (h : o.SameBlocks)
    (hnew : o.find (env.scryptBlockhash b.toCBlockHeader) = none) : (o.add b).SameBlocks where
  perm := (perm_append_singleton b _).trans ((h.perm.cons b).trans (perm_add o b).symm)
  hashes_nodup := by
    unfold hashes
    rw [((perm_add o b).map _).nodup_iff, map_cons, nodup_cons]
    refine ⟨?_, h.hashes_nodup⟩
    intro hin
    obtain ⟨x, hx, heq⟩ := mem_map.mp hin
    have hne := find?_eq_none.mp hnew x hx
    simp [heq] at hne

theorem evict_of_le {nMaxOrphans : Nat} (rand : Nat → Uint256) (rounds : Nat)
    (h : o.mapOrphanBlocks.length ≤ nMaxOrphans) : evict nMaxOrphans rand rounds o = o := by
  cases rounds with
  | zero => rfl
  | succ rounds => rw [evict, if_neg (by omega)]

theorem SameBlocks.limit_add (h : o.SameBlocks)
    (hnew : o.find (env.scryptBlockhash b.toCBlockHeader) = none) {nMaxOrphans : Nat}
    (rand : Nat → Uint256) (hlen : o.mapOrphanBlocks.length ≤ nMaxOrphans) :
    (o.mapOrphanBlocks.length < nMaxOrphans ∧
      (o.add b).limitOrphanBlocks nMaxOrphans rand = o.add b) ∨
    (o.mapOrphanBlocks.length = nMaxOrphans ∧ ∃ pevict,
      (o.add b).victim (rand nMaxOrphans) = some pevict ∧
      (o.add b).limitOrphanBlocks nMaxOrphans rand =
        (o.add b).drop pevict pevict.isProofOfStake) := by
  rcases Nat.lt_or_eq_of_le hlen with hlt | heq
  · refine .inl ⟨hlt, evict_of_le rand _ ?_⟩
    rw [length_add]
    omega
  right
  refine ⟨heq, ?_⟩
  have hlen' := length_add o b
  cases hvictim : (o.add b).victim (rand nMaxOrphans) with
  | none =>
    -- the buffer is not empty
    obtain ⟨-, hhead⟩ := Option.or_eq_none_iff.mp hvictim
    rw [head?_eq_none_iff] at hhead
    rw [hhead] at hlen'
    simp at hlen'
  | some pevict =>
    refine ⟨pevict, rfl, ?_⟩
    have hdrop := (h.add hnew).length_drop (mem_of_victim hvictim) pevict.isProofOfStake
    have hrounds : (o.add b).mapOrphanBlocks.length = nMaxOrphans + 1 := by omega
    rw [limitOrphanBlocks, hrounds, evict, if_pos (by omega), hvictim]
    exact evict_of_le rand _ (by omega)

/-! ## The stakes -/

def StakesExact (o : OrphanBlocks env) : Prop :=
  ∀ stake, stake ∈ o.setStakeSeenOrphan ↔
    ∃ b ∈ o.mapOrphanBlocks, b.isProofOfStake = true ∧ b.getProofOfStake = stake

def StakesDistinct (o : OrphanBlocks env) : Prop :=
  ∀ a ∈ o.mapOrphanBlocks, ∀ b ∈ o.mapOrphanBlocks, a.isProofOfStake = true →
    b.isProofOfStake = true → a.getProofOfStake = b.getProofOfStake → a = b

theorem StakesExact.empty : (empty : OrphanBlocks env).StakesExact := by
  intro stake
  constructor
  · rintro ⟨⟩
  · rintro ⟨_, ⟨⟩, _⟩

theorem StakesDistinct.drop (hsame : o.SameBlocks) (hdistinct : o.StakesDistinct)
    (hb : b ∈ o.mapOrphanBlocks) (f : Bool) : (o.drop b f).StakesDistinct := by
  intro x hx y hy
  exact hdistinct x ((hsame.mem_drop hb).mp hx).2 y ((hsame.mem_drop hb).mp hy).2

theorem StakesExact.drop (hsame : o.SameBlocks) (hexact : o.StakesExact)
    (hdistinct : o.StakesDistinct) (hb : b ∈ o.mapOrphanBlocks) {f : Bool}
    (hf : b.isProofOfStake = true → f = true) : (o.drop b f).StakesExact := by
  intro stake
  have hseen : stake ∈ (o.drop b f).setStakeSeenOrphan ↔
      stake ∈ o.setStakeSeenOrphan ∧ (f = true → stake ≠ b.getProofOfStake) := by
    cases f <;> simp [OrphanBlocks.drop]
  rw [hseen, hexact stake]
  constructor
  · rintro ⟨⟨x, hx, hpos, rfl⟩, hne⟩
    refine ⟨x, (hsame.mem_drop hb).mpr ⟨?_, hx⟩, hpos, rfl⟩
    rintro rfl
    exact hne (hf hpos) rfl
  rintro ⟨x, hx, hpos, rfl⟩
  obtain ⟨hxb, hx⟩ := (hsame.mem_drop hb).mp hx
  refine ⟨⟨x, hx, hpos, rfl⟩, ?_⟩
  intro _ hstake
  cases hkind : b.isProofOfStake with
  | true => exact hxb (hdistinct x hx b hb hpos hkind hstake)
  | false => exact CBlock.getProofOfStake_ne hpos hkind hstake

theorem StakesDistinct.add (hexact : o.StakesExact) (hdistinct : o.StakesDistinct)
    (hfresh : b.isProofOfStake = true → b.getProofOfStake ∉ o.setStakeSeenOrphan) :
    (o.add b).StakesDistinct := by
  have hother : ∀ x ∈ o.mapOrphanBlocks, x.isProofOfStake = true → b.isProofOfStake = true →
      x.getProofOfStake ≠ b.getProofOfStake := by
    intro x hx hxpos hbpos heq
    exact hfresh hbpos ((hexact _).mpr ⟨x, hx, hxpos, heq⟩)
  intro x hx y hy hxpos hypos heq
  rcases mem_add.mp hx with hxb | hx
  · rcases mem_add.mp hy with hyb | hy
    · rw [hxb, hyb]
    · rw [hxb] at heq hxpos
      exact absurd heq.symm (hother y hy hypos hxpos)
  rcases mem_add.mp hy with hyb | hy
  · rw [hyb] at heq hypos
    exact absurd heq (hother x hx hxpos hypos)
  · exact hdistinct x hx y hy hxpos hypos heq

theorem StakesExact.add (hexact : o.StakesExact) (b : CBlock) : (o.add b).StakesExact := by
  intro stake
  have hseen : stake ∈ (o.add b).setStakeSeenOrphan ↔
      (b.isProofOfStake = true ∧ stake = b.getProofOfStake) ∨ stake ∈ o.setStakeSeenOrphan := by
    cases hkind : b.isProofOfStake <;> simp [OrphanBlocks.add, hkind]
  rw [hseen, hexact stake]
  constructor
  · rintro (⟨hpos, rfl⟩ | ⟨x, hx, hpos, rfl⟩)
    · exact ⟨b, mem_add.mpr (.inl rfl), hpos, rfl⟩
    · exact ⟨x, mem_add.mpr (.inr hx), hpos, rfl⟩
  rintro ⟨x, hx, hpos, rfl⟩
  rcases mem_add.mp hx with rfl | hx
  · exact .inl ⟨hpos, rfl⟩
  · exact .inr ⟨x, hx, hpos, rfl⟩

end OrphanBlocks

/-! ## The calls -/

namespace OrphanBlocks

structure Consistent (o : OrphanBlocks env) : Prop extends SameBlocks o where
  bounded : o.mapOrphanBlocks.length ≤ maxOrphanBlocks

structure Staked (o : OrphanBlocks env) : Prop extends Consistent o where
  stakes : o.StakesExact
  distinct : o.StakesDistinct

variable {o : OrphanBlocks env} {b : CBlock}

theorem Consistent.drop (h : o.Consistent) (hb : b ∈ o.mapOrphanBlocks) (f : Bool) :
    (o.drop b f).Consistent where
  toSameBlocks := h.toSameBlocks.drop hb f
  bounded := by
    have hlen := h.toSameBlocks.length_drop hb f
    have hbound := h.bounded
    omega

theorem Staked.drop (h : o.Staked) (hb : b ∈ o.mapOrphanBlocks) {f : Bool}
    (hf : b.isProofOfStake = true → f = true) : (o.drop b f).Staked where
  toConsistent := h.toConsistent.drop hb f
  stakes := h.stakes.drop h.toSameBlocks h.distinct hb hf
  distinct := h.distinct.drop h.toSameBlocks hb f

theorem Consistent.buffer (h : o.Consistent) (rand : Nat → Uint256)
    (hnew : o.find (env.scryptBlockhash b.toCBlockHeader) = none) :
    ((o.add b).limitOrphanBlocks maxOrphanBlocks rand).Consistent := by
  have hadd := h.toSameBlocks.add hnew
  have hlen := length_add o b
  rcases h.toSameBlocks.limit_add hnew rand h.bounded with ⟨_, heq⟩ | ⟨_, v, hv, heq⟩
  · rw [heq]
    exact ⟨hadd, by omega⟩
  · rw [heq]
    have hdrop := hadd.length_drop (mem_of_victim hv) v.isProofOfStake
    exact ⟨hadd.drop (mem_of_victim hv) _, by omega⟩

theorem Staked.buffer (h : o.Staked) (rand : Nat → Uint256)
    (hnew : o.find (env.scryptBlockhash b.toCBlockHeader) = none)
    (hfresh : b.isProofOfStake = true → b.getProofOfStake ∉ o.setStakeSeenOrphan) :
    ((o.add b).limitOrphanBlocks maxOrphanBlocks rand).Staked := by
  have hsame := h.toSameBlocks.add hnew
  have hdistinct := StakesDistinct.add h.stakes h.distinct hfresh
  have hlimit : ((o.add b).limitOrphanBlocks maxOrphanBlocks rand).SameBlocks ∧
      ((o.add b).limitOrphanBlocks maxOrphanBlocks rand).StakesExact ∧
      ((o.add b).limitOrphanBlocks maxOrphanBlocks rand).StakesDistinct := by
    apply limitOrphanBlocks_induct
      (fun o : OrphanBlocks env => o.SameBlocks ∧ o.StakesExact ∧ o.StakesDistinct)
    · rintro o x ⟨hsame, hexact, hdistinct⟩ hx
      exact ⟨hsame.drop hx _, hexact.drop hsame hdistinct hx (fun hpos => hpos),
        hdistinct.drop hsame hx _⟩
    · exact ⟨hsame, h.stakes.add b, hdistinct⟩
  exact ⟨h.toConsistent.buffer rand hnew, hlimit.2.1, hlimit.2.2⟩

end OrphanBlocks

namespace SyncNode

variable {n : SyncNode env} {b : CBlock} {calls : Nat → BufferCall}

theorem processBufferedBlocks_keeps (P : SyncNode env → Prop)
    (hstep : ∀ n c q b n1 q1 thrown, P n → b ∈ n.orphans.mapOrphanBlocksByPrev →
      n.connectOrphan c q b = (n1, q1, thrown) → P n1) :
    ∀ nLeft q (n : SyncNode env), P n → P (processBufferedBlocks calls nLeft q n).1 := by
  intro nLeft
  induction nLeft with
  | zero => exact fun _ _ hn => hn
  | succ nLeft ih =>
    intro q n hn
    rw [processBufferedBlocks]
    split
    · exact hn
    rename_i q1 x hnext
    have hx := (nextOrphan_eq_some hnext).1
    split
    next hconn => exact hstep n _ _ x _ _ _ hn hx hconn
    rename_i hconn
    have hn1 := hstep n _ _ x _ _ _ hn hx hconn
    split
    · exact hn1
    · exact ih _ _ hn1

theorem orphans_processBufferedBlocks (P : OrphanBlocks env → Prop)
    (hdrop : ∀ o b, P o → b ∈ o.mapOrphanBlocksByPrev → P (o.drop b true)) (nLeft : Nat)
    (q : List Uint256) (n : SyncNode env) (hn : P n.orphans) :
    P (processBufferedBlocks calls nLeft q n).1.orphans := by
  apply processBufferedBlocks_keeps (fun n => P n.orphans)
  · intro n c q b n1 q1 thrown hn hb hconn
    unfold connectOrphan at hconn
    split at hconn <;> cases hconn
    · exact hn
    · exact hdrop _ _ hn hb
    · exact hdrop _ _ hn hb
  · exact hn

/-- A block with the stake of a buffered one is refused: no child of it is buffered, and no pending
checkpoint wants it. -/
def StakeNotShared (n : SyncNode env) (w : World) (b : CBlock) : Prop :=
  let hash := env.scryptBlockhash b.toCBlockHeader
  n.checkProcess w b = .ok () → n.chain.mapBlockIndex b.hashPrevBlock = none →
    b.isProofOfStake = true → b.getProofOfStake ∈ n.orphans.setStakeSeenOrphan →
    n.orphans.countByPrev hash = false ∧ n.wantedByPendingSyncCheckpoint hash = false

def NotEvicted (n : SyncNode env) (rand : Nat → Uint256) (b : CBlock) : Prop :=
  n.orphans.mapOrphanBlocks.length < maxOrphanBlocks ∨
    (n.orphans.add b).victim (rand maxOrphanBlocks) ≠ some b

def Has (n : SyncNode env) (b : CBlock) : Prop :=
  (n.chain.mapBlockIndex (env.scryptBlockhash b.toCBlockHeader)).isSome = true ∨
    b ∈ n.orphans.mapOrphanBlocks

theorem find_of_checkProcess (h : n.checkProcess w b = .ok ()) :
    n.orphans.find (env.scryptBlockhash b.toCBlockHeader) = none ∧
      n.chain.mapBlockIndex (env.scryptBlockhash b.toCBlockHeader) = none := by
  obtain ⟨_, hindex, h⟩ := bind_eq_ok.mp h
  obtain ⟨_, horphan, -⟩ := bind_eq_ok.mp h
  exact ⟨by simpa using horphan, by simpa using hindex⟩

/-- **ProcessBlock**, as far as the buffer is concerned. -/
theorem processBlock_cases {n' : SyncNode env} {rand : Nat → Uint256}
    (h : n.processBlock w wPending rand calls b = (n', r)) :
    (n'.orphans = n.orphans ∧ r ≠ .ok ()) ∨
    (n.checkProcess w b = .ok () ∧ n.chain.mapBlockIndex b.hashPrevBlock = none ∧
      (n.StakeNotShared w b → b.isProofOfStake = true →
        b.getProofOfStake ∉ n.orphans.setStakeSeenOrphan) ∧
      n' = { n with orphans := (n.orphans.add b).limitOrphanBlocks maxOrphanBlocks rand } ∧
      r = .ok ()) ∨
    (n.chain.mapBlockIndex b.hashPrevBlock ≠ none ∧
      ∃ n1, n.toNode.acceptBlock env w wPending b = (n1, .ok ()) ∧
        n' = (processBufferedBlocks calls maxOrphanDrainBlocks
          [env.scryptBlockhash b.toCBlockHeader] { n with toNode := n1 }).1) := by
  unfold processBlock at h
  cases hcheck : n.checkProcess w b with
  | error e =>
    rw [hcheck] at h
    cases h
    exact .inl ⟨rfl, by rintro ⟨⟩⟩
  | ok u =>
    rw [hcheck] at h
    simp only at h
    split at h
    next hprev =>
      have hprev := Option.isNone_iff_eq_none.mp hprev
      unfold bufferBlock at h
      simp only at h
      split at h
      · cases h
        exact .inl ⟨rfl, by rintro ⟨⟩⟩
      rename_i hshared
      cases h
      refine .inr (.inl ⟨rfl, hprev, ?_, rfl, rfl⟩)
      intro hok hpos hseen
      obtain ⟨hchild, hwanted⟩ := hok hcheck hprev hpos hseen
      simp [hpos, hseen, hchild, hwanted] at hshared
    next hprev =>
      have hprev : n.chain.mapBlockIndex b.hashPrevBlock ≠ none := by simpa using hprev
      unfold acceptAndConnect at h
      split at h
      · cases h
        exact .inl ⟨rfl, by rintro ⟨⟩⟩
      · cases h
        exact .inl ⟨rfl, by rintro ⟨⟩⟩
      rename_i n1 haccept
      refine .inr (.inr ⟨hprev, n1, haccept, ?_⟩)
      split at h
      next hwalk =>
        cases h
        rw [hwalk]
      next hwalk =>
        cases h
        rw [hwalk]

theorem indexed_processBufferedBlocks (calls : Nat → BufferCall) {k : Uint256} (nLeft : Nat)
    (q : List Uint256) (n : SyncNode env) (hn : (n.chain.mapBlockIndex k).isSome = true) :
    ((processBufferedBlocks calls nLeft q n).1.chain.mapBlockIndex k).isSome = true := by
  apply processBufferedBlocks_keeps (fun n => (n.chain.mapBlockIndex k).isSome = true)
  · intro n c q b n1 q1 thrown hn _ hconn
    obtain ⟨r, haccept⟩ := toNode_connectOrphan hconn
    exact (Node.acceptBlock_indexed haccept).1 k hn
  · exact hn

theorem has_processBlock_iff (hn : n.orphans.Consistent) {rand : Nat → Uint256}
    (h : (n.processBlock w wPending rand calls b).2 = .ok ()) :
    (n.processBlock w wPending rand calls b).1.Has b ↔
      (n.chain.mapBlockIndex b.hashPrevBlock = none → n.NotEvicted rand b) := by
  rcases hcall : n.processBlock w wPending rand calls b with ⟨_, r⟩
  rw [hcall] at h
  rcases processBlock_cases hcall with ⟨-, hr⟩ | ⟨hcheck, hprev, -, rfl, -⟩ |
      ⟨hprev, n1, haccept, rfl⟩
  · exact absurd h hr
  · obtain ⟨hfind, hindex⟩ := find_of_checkProcess hcheck
    have hin : b ∈ (n.orphans.add b).mapOrphanBlocks := mem_add.mpr (.inl rfl)
    simp only [Has, hindex, Option.isSome_none, Bool.false_eq_true, false_or, hprev, forall_const]
    unfold NotEvicted
    rcases hn.toSameBlocks.limit_add hfind rand hn.bounded with ⟨hlt, heq⟩ | ⟨hfull, v, hv, heq⟩
    · simp [heq, hin, hlt]
    · rw [heq, (hn.toSameBlocks.add hfind).mem_drop (mem_of_victim hv), hv]
      simp [hin, hfull, eq_comm]
  · have hin := indexed_processBufferedBlocks calls maxOrphanDrainBlocks
      [env.scryptBlockhash b.toCBlockHeader] { n with toNode := n1 }
      ((Node.acceptBlock_indexed haccept).2 rfl)
    simp [Has, hin, hprev]

end SyncNode

/-! ## Runs -/

/-- A call that works on the buffer; between two calls the rest of the node may change in any
way. -/
inductive OrphanCall where
  | processBlock (w wPending : World) (rand : Nat → Uint256) (calls : Nat → BufferCall)
      (b : CBlock)
  | processBufferedBlocks (calls : Nat → BufferCall) (hashStart : Uint256)
  | limitOrphanBlocks (nMaxOrphans : Nat) (rand : Nat → Uint256)
  | other (node : Node)

namespace OrphanCall

def run (n : SyncNode env) : OrphanCall → SyncNode env
  | .processBlock w wPending rand calls b => (n.processBlock w wPending rand calls b).1
  | .processBufferedBlocks calls hashStart =>
    (SyncNode.processBufferedBlocks calls maxOrphanDrainBlocks [hashStart] n).1
  | .limitOrphanBlocks nMaxOrphans rand =>
    { n with orphans := n.orphans.limitOrphanBlocks nMaxOrphans rand }
  | .other node => { n with toNode := node }

def StakeNotShared (n : SyncNode env) : OrphanCall → Prop
  | .processBlock w _ _ _ b => n.StakeNotShared w b
  | _ => True

def NoSharedStake : SyncNode env → List OrphanCall → Prop
  | _, [] => True
  | n, call :: rest => call.StakeNotShared n ∧ NoSharedStake (call.run n) rest

variable {n : SyncNode env} {call : OrphanCall}

/-- What dropping a buffered block and buffering the block of the call keep, the call keeps. -/
theorem run_keeps {P : OrphanBlocks env → Prop} (hsame : ∀ o, P o → o.SameBlocks)
    (hdrop : ∀ o b f, P o → b ∈ o.mapOrphanBlocks → (b.isProofOfStake = true → f = true) →
      P (o.drop b f))
    (hbuffer : ∀ rand b, n.orphans.find (env.scryptBlockhash b.toCBlockHeader) = none →
      (call.StakeNotShared n → b.isProofOfStake = true →
        b.getProofOfStake ∉ n.orphans.setStakeSeenOrphan) →
      P ((n.orphans.add b).limitOrphanBlocks maxOrphanBlocks rand)) (hn : P n.orphans) :
    P (call.run n).orphans := by
  have hpop : ∀ o b, P o → b ∈ o.mapOrphanBlocksByPrev → P (o.drop b true) :=
    fun o b ho hb => hdrop o b true ho ((hsame o ho).perm.mem_iff.mp hb) fun _ => rfl
  cases call with
  | processBlock w wPending rand calls b =>
    rcases hcall : n.processBlock w wPending rand calls b with ⟨_, r⟩
    simp only [run, hcall]
    rcases processBlock_cases hcall with ⟨heq, -⟩ | ⟨hcheck, -, hfresh, rfl, -⟩ | ⟨-, _, -, rfl⟩
    · rw [heq]
      exact hn
    · exact hbuffer rand b (find_of_checkProcess hcheck).1 hfresh
    · exact orphans_processBufferedBlocks P hpop _ _ _ hn
  | processBufferedBlocks calls hashStart => exact orphans_processBufferedBlocks P hpop _ _ _ hn
  | limitOrphanBlocks nMaxOrphans rand =>
    exact limitOrphanBlocks_induct P (fun o b ho hb => hdrop o b _ ho hb id) _ _ _ hn
  | other node => exact hn

theorem consistent_run (hn : n.orphans.Consistent) (call : OrphanCall) :
    (call.run n).orphans.Consistent :=
  run_keeps (fun _ ho => ho.toSameBlocks) (fun _ _ f ho hb _ => ho.drop hb f)
    (fun rand _ hnew _ => hn.buffer rand hnew) hn

theorem staked_run (hn : n.orphans.Staked)
    (hok : call.StakeNotShared n) : (call.run n).orphans.Staked :=
  run_keeps (fun _ ho => ho.toSameBlocks) (fun _ _ _ ho hb hf => ho.drop hb hf)
    (fun rand _ hnew hfresh => hn.buffer rand hnew (hfresh hok)) hn

theorem staked_foldl (history : List OrphanCall) :
    ∀ n : SyncNode env, n.orphans.Staked → NoSharedStake n history →
      (history.foldl run n).orphans.Staked := by
  induction history with
  | nil => exact fun _ hn _ => hn
  | cons call rest ih => exact fun n hn hok => ih _ (staked_run hn hok.1) hok.2

end OrphanCall

theorem OrphanBlocks.Staked.empty : (empty : OrphanBlocks env).Staked where
  toSameBlocks := SameBlocks.empty
  bounded := Nat.zero_le _
  stakes := StakesExact.empty
  distinct := by rintro x ⟨⟩

def bufferAfter (env : Env) (node : Node) (history : List OrphanCall) : SyncNode env :=
  history.foldl OrphanCall.run ⟨node, empty⟩

/-- **The buffer is consistent, and accepted blocks are kept.** The two maps hold the same blocks,
each once. The set of stakes is exact if no block was buffered with the stake of a buffered one. A
block for which the next `ProcessBlock` returns true is then in the index or in the buffer, unless
it is evicted at once. -/
theorem orphanBlocks_consistent (env : Env) (node : Node) (history : List OrphanCall) :
    (bufferAfter env node history).orphans.SameBlocks ∧
    (OrphanCall.NoSharedStake (⟨node, empty⟩ : SyncNode env) history →
      (bufferAfter env node history).orphans.StakesExact) ∧
    ∀ w wPending rand calls b,
      ((bufferAfter env node history).processBlock w wPending rand calls b).2 = .ok () →
      (((bufferAfter env node history).processBlock w wPending rand calls b).1.Has b ↔
        ((bufferAfter env node history).chain.mapBlockIndex b.hashPrevBlock = none →
          (bufferAfter env node history).NotEvicted rand b)) := by
  have hconsistent : (bufferAfter env node history).orphans.Consistent :=
    List.foldlRecOn history _ (motive := fun n : SyncNode env => n.orphans.Consistent)
      OrphanBlocks.Staked.empty.toConsistent fun _ hn call _ => OrphanCall.consistent_run hn call
  refine ⟨hconsistent.toSameBlocks, ?_, ?_⟩
  · intro hok
    exact (OrphanCall.staked_foldl history _ OrphanBlocks.Staked.empty hok).stakes
  · intro w wPending rand calls b hreturns
    exact has_processBlock_iff hconsistent hreturns

/-! ## A shared stake

Blocks 3 and 4 follow block 2 and have the same stake, and block 5 follows block 4. Block 5 arrives
before block 4, so that block 4 is let in although block 3 is buffered. -/

def stakedBlock (hash hashPrev : Uint256) (nHeight : Nat) : CBlock :=
  let b := minedBlock hash hashPrev nHeight
  { b with
    hashMerkleRoot := hash + (1000 + hash)
    nBits := 0x1d00ffff
    vtx := b.vtx.map ({ · with vout := [⟨0, []⟩] }) ++
      [⟨1, b.nTime, [⟨⟨7, 0⟩, [], uint32Max⟩], [⟨0, []⟩, ⟨coin, [0x51]⟩], 1000 + hash⟩] }

def sharedBlocks : List CBlock :=
  [minedBlock 1 0 0, minedBlock 2 1 1, stakedBlock 3 2 2, stakedBlock 4 2 2, minedBlock 5 4 3]

/-- The arrival of a block; a batch that follows takes one block and then its time is up. -/
def arrival (b : CBlock) : OrphanCall :=
  .processBlock (arrivalWorld sharedBlocks b.nNonce) (arrivalWorld sharedBlocks b.nNonce)
    (fun _ => 0) (fun _ => ⟨arrivalWorld sharedBlocks 3, arrivalWorld sharedBlocks 3, true⟩) b

/-- When block 2 has arrived, block 3 is taken out of the buffer. Block 4 stays, and its stake is
no longer in the set. -/
theorem shared_stake_forgotten :
    let n := bufferAfter sampleEnv genesisNode
      ([stakedBlock 3 2 2, minedBlock 5 4 3, stakedBlock 4 2 2, minedBlock 2 1 1].map arrival)
    n.orphans.mapOrphanBlocks = [stakedBlock 4 2 2, minedBlock 5 4 3] ∧
      (stakedBlock 4 2 2).isProofOfStake = true ∧ n.orphans.setStakeSeenOrphan = [] ∧
      ¬ n.orphans.StakesExact := by
  intro n
  have hleft : n.orphans.mapOrphanBlocks = [stakedBlock 4 2 2, minedBlock 5 4 3] ∧
      (stakedBlock 4 2 2).isProofOfStake = true ∧ n.orphans.setStakeSeenOrphan = [] := by
    decide +kernel
  refine ⟨hleft.1, hleft.2.1, hleft.2.2, ?_⟩
  intro hexact
  have hin := (hexact (stakedBlock 4 2 2).getProofOfStake).mpr
    ⟨stakedBlock 4 2 2, by simp [hleft.1], hleft.2.1, rfl⟩
  simp [hleft.2.2] at hin

theorem orphanBlocks_consistent_staked :
    let n := bufferAfter sampleEnv genesisNode [arrival (stakedBlock 3 2 2)]
    let w := arrivalWorld sharedBlocks 5
    OrphanCall.NoSharedStake (⟨genesisNode, empty⟩ : SyncNode sampleEnv)
        [arrival (stakedBlock 3 2 2)] ∧
      (stakedBlock 3 2 2).getProofOfStake ∈ n.orphans.setStakeSeenOrphan ∧
      (n.processBlock w w (fun _ => 0) (fun _ => ⟨w, w, true⟩) (minedBlock 5 4 3)).1.Has
        (minedBlock 5 4 3) := by
  intro n w
  obtain ⟨-, hstakes, hkept⟩ := orphanBlocks_consistent sampleEnv genesisNode
    [arrival (stakedBlock 3 2 2)]
  have hok : OrphanCall.NoSharedStake (⟨genesisNode, empty⟩ : SyncNode sampleEnv)
      [arrival (stakedBlock 3 2 2)] := by
    refine ⟨?_, trivial⟩
    intro _ _ _ hseen
    cases hseen
  refine ⟨hok, ?_, ?_⟩
  · exact (hstakes hok _).mpr ⟨stakedBlock 3 2 2, by decide +kernel, by decide +kernel, rfl⟩
  · refine (hkept w w (fun _ => 0) (fun _ => ⟨w, w, true⟩) (minedBlock 5 4 3) ?_).mpr ?_
    · decide +kernel
    · exact fun _ => .inl (by decide +kernel)

end HoboNickels

import HoboNickels.StakeCache
import HoboNickels.NoThrow
import HoboNickels.TreeFrame

/-!
# The cache of source blocks

`mapStakeMetaCache` keeps the header and the stake modifier of the blocks that the wallet's coins
come from. The modifier is found by walking `pnext`, so it depends on later blocks.
`stakeMetaCache_transparent` says that a hit is what a fresh read and a fresh walk would give.

A walk that has found its modifier finds the same one when links are added above
(`Grown.getKernelStakeModifier`), and `SetBestChain` only adds links unless it disconnects a block
(`Threaded.setBestChain`); then `SyncWithWallets` empties the cache. It is enough that all links lie
on the best chain that memory names, which survives a postponed block that cannot be attached, and
`ConnectBlock` does not throw for checked blocks (`errs_connectBlock`). Exceptions out of a wallet
are not modelled.
-/

namespace HoboNickels

open Fallible WriteBatch ParentChain List Function BlockMap ChainState Node WalletNotice StakeView

variable {env : Env} {w : World}

structure Grown (s s' : ChainState) : Prop where
  index : ∀ h b, s.mapBlockIndex h = some b → s'.mapBlockIndex h = some b
  links : Sub s.pnext s'.pnext
  height : s.nBestHeight ≤ s'.nBestHeight

variable {n : Node} {b : CBlock} {pindexNew pindex best : CBlockIndex} {s s' : ChainState}

theorem Grown.followNext (h : Grown s s') {fuel : Nat} :
    ∀ {fuel' : Nat} {hash : Uint256}, fuel ≤ fuel' →
      s.followNext fuel hash <+: s'.followNext fuel' hash := by
  induction fuel with
  | zero => exact fun _ => nil_prefix
  | succ fuel ih =>
    intro fuel' hash hle
    obtain ⟨fuel', rfl⟩ : ∃ k, fuel' = k + 1 := ⟨fuel' - 1, by omega⟩
    rcases hnext : s.pnext hash with _ | next
    · simp [ChainState.followNext, hnext]
    rcases hb : s.mapBlockIndex next with _ | b
    · simp [ChainState.followNext, hnext, hb]
    have hnext' := h.links hash next hnext
    have hb' := h.index next b hb
    simp only [ChainState.followNext, hnext, hnext', Option.bind_some, hb, hb']
    exact cons_prefix_cons.mpr ⟨rfl, ih (by omega)⟩

/-- **Stability.** What `GetKernelStakeModifier` has found stays when the chain grows. -/
theorem Grown.getKernelStakeModifier (h : Grown s s') {fTestNet : Bool}
    {hash : Uint256} {m : Nat} (hm : s.getKernelStakeModifier fTestNet hash = some m) :
    s'.getKernelStakeModifier fTestNet hash = some m := by
  rw [ChainState.getKernelStakeModifier] at hm ⊢
  rcases hb : s.mapBlockIndex hash with _ | b
  · simp [hb] at hm
  rw [hb] at hm
  rw [h.index hash b hb]
  have hheight := h.height
  have hfuel : (s.nBestHeight - b.nHeight).toNat ≤ (s'.nBestHeight - b.nHeight).toNat := by omega
  obtain ⟨more, hmore⟩ := @Grown.followNext s s' h _ _ b.hashBlock hfuel
  simp only [ChainState.mainChainAfter, ← hmore] at hm ⊢
  rw [kernelWalk_window, kernelWindow_append _ more _ _ b (by rw [hm]; simp), ← kernelWalk_window]
  exact hm

theorem getKernelStakeModifier_of_no_links (h : s.pnext = fun _ => none)
    (fTestNet : Bool) (hash : Uint256) : s.getKernelStakeModifier fTestNet hash = none := by
  have hpos : 0 < getStakeModifierSelectionInterval fTestNet := by
    cases fTestNet <;> decide
  have hstop : ∀ fuel hash, s.followNext fuel hash = [] := by
    intro fuel hash
    cases fuel with
    | zero => rfl
    | succ fuel => simp [followNext, h]
  rw [getKernelStakeModifier]
  split
  · rfl
  · rw [mainChainAfter, hstop, kernelWalk, if_pos (by omega)]

/-! ## Links below the best block -/

section

variable {f g : Uint256 → Option Uint256} (h : Sub f g)
include h

theorem unlinkAll_sub (branch : List CBlockIndex) :
    Sub (unlinkAll f branch) (unlinkAll g branch) := by
  refine foldl_rel h fun b _ f g h => ?_
  split
  · exact h
  · exact sub_setNext h _ _

theorem linkAll_sub (branch : List CBlockIndex) : Sub (linkAll f branch) (linkAll g branch) := by
  refine foldl_rel h fun b _ f g h => ?_
  split
  · exact h
  · exact sub_setNext h _ _

theorem sub_linkAll {branch : List CBlockIndex}
    (hnone : ∀ b ∈ branch, ∀ p, b.pprev = some p → f p = none) : Sub f (linkAll g branch) := by
  refine foldlRecOn branch _ h fun g h b hb => ?_
  split
  · exact h
  next p hp => exact sub_setNext_of_none h (hnone b hb p hp) _

end

namespace BlockMap

variable {m : BlockMap}

theorem not_mem_tail_hashes (wf : m.WellFormed) {tip p : CBlockIndex} (htip : m.Indexed tip)
    (hp : m.Indexed p) (hle : tip.nHeight ≤ p.nHeight) :
    p.hashBlock ∉ (m.hashes tip.hashBlock).tail := by
  intro hmem
  have hranks := pairwise_nHeight wf tip.hashBlock
  obtain ⟨_, hbelow⟩ := chainOf_head htip
  rw [hashes, hbelow, map_cons] at hmem
  obtain ⟨q, hq, hqp⟩ := mem_map.mp hmem
  rw [hbelow] at hranks
  have hlow := (pairwise_cons.mp hranks).1 q hq
  have hqidx : m.Indexed q := mem_chainOf_indexed wf (hbelow ▸ mem_cons_of_mem tip hq)
  rw [Indexed, hqp, hp] at hqidx
  cases hqidx
  omega

end BlockMap

def LinksWithin (s : ChainState) (tip : CBlockIndex) : Prop :=
  Sub s.pnext (nextIn (s.mapBlockIndex.hashes tip.hashBlock))

namespace LinksWithin

variable {s s' : ChainState} {tip pindex : CBlockIndex}

theorem congr (h : LinksWithin s tip) (hmap : s'.mapBlockIndex = s.mapBlockIndex)
    (hpnext : s'.pnext = s.pnext) : LinksWithin s' tip := by
  rw [LinksWithin, hmap, hpnext]
  exact h

theorem mono (wf : s.mapBlockIndex.WellFormed) (h : LinksWithin s tip)
    (hmem : tip ∈ s.mapBlockIndex.chainOf pindex.hashBlock) : LinksWithin s pindex := by
  have hsplit := hashes_split wf hmem
  have hnodup := nodup_hashes wf pindex.hashBlock
  rw [LinksWithin, hsplit]
  rw [hsplit] at hnodup
  exact h.trans (sub_nextIn_append hnodup)

section

variable (wf : s.mapBlockIndex.WellFormed) (h : LinksWithin s tip)
    (htip : s.mapBlockIndex.Indexed tip)
include wf h htip

theorem eq_none (hp : s.mapBlockIndex.Indexed pindex)
    (hle : tip.nHeight ≤ pindex.nHeight) : s.pnext pindex.hashBlock = none := by
  rcases hnext : s.pnext pindex.hashBlock with _ | _
  · rfl
  have hlink := h _ _ hnext
  rw [nextIn_eq_none (not_mem_tail_hashes wf htip hp hle)] at hlink
  cases hlink

theorem linkAll_singleton (hnew : s.mapBlockIndex.Indexed pindex)
    (hprev : pindex.pprev = some tip.hashBlock) :
    Sub s.pnext (linkAll s.pnext [pindex]) ∧
      Sub (linkAll s.pnext [pindex]) (nextIn (s.mapBlockIndex.hashes pindex.hashBlock)) := by
  constructor
  · refine sub_linkAll (Sub.refl _) fun b hb p hp => ?_
    obtain rfl := mem_singleton.mp hb
    rw [hprev] at hp
    cases hp
    exact h.eq_none wf htip htip le_rfl
  · rw [← HoboNickels.linkAll_singleton wf hnew hprev htip]
    exact linkAll_sub h _

theorem relink {pfork : CBlockIndex} (hold : pfork ∈ s.mapBlockIndex.chainOf tip.hashBlock)
    (hnew : pfork ∈ s.mapBlockIndex.chainOf pindex.hashBlock) :
    let cut := aboveFork pfork (s.mapBlockIndex.chainOf tip.hashBlock)
    let pnext := linkAll (unlinkAll s.pnext cut)
      (aboveFork pfork (s.mapBlockIndex.chainOf pindex.hashBlock)).reverse
    Sub pnext (nextIn (s.mapBlockIndex.hashes pindex.hashBlock)) ∧
      (cut = [] → pfork = tip ∧ Sub s.pnext pnext) := by
  refine ⟨?_, fun hcut => ?_⟩
  · rw [← HoboNickels.relink wf hold hnew]
    exact linkAll_sub (unlinkAll_sub h _) _
  have hsplit := chainOf_split wf hold
  rw [hcut] at hsplit
  obtain ⟨_, hbelow⟩ := chainOf_head htip
  obtain ⟨_, hbelow'⟩ := chainOf_head (mem_chainOf_indexed wf hold)
  have hfork : pfork = tip := by
    rw [hbelow, hbelow'] at hsplit
    exact (List.cons.inj hsplit).1.symm
  subst hfork
  refine ⟨rfl, ?_⟩
  rw [hcut]
  refine sub_linkAll (Sub.refl _) fun b hb p hp => ?_
  -- a block above the old tip has a parent that is not below the old tip
  have hb := mem_reverse.mp hb
  obtain ⟨_, hpb, _⟩ :=
    wf.pprev_some (aboveFork_parent wf hnew b hb).1 hp
  have habove := nHeight_lt_of_mem_aboveFork wf hnew hb
  rw [← wf.keyed hpb]
  exact h.eq_none wf htip (wf.indexed hpb) (by omega)

end

end LinksWithin

/-! ## Nodes whose links lie on the best chain -/

/-- When a postponed block could not be attached, memory is ahead of the links, but the links still
lie on the best chain. -/
structure Threaded (env : Env) (n : Node) : Prop where
  index : n.chain.mapBlockIndex.WellFormed
  root : ∀ {h p}, n.chain.mapBlockIndex h = some p → p.pprev = none → h = env.hashGenesisBlock
  noBatch : n.chain.db.activeBatch = none
  best : (Unset n.chain ∧ n.chain.pnext = fun _ => none) ∨
    ∃ best, MemoryTip n.chain best ∧ LinksWithin n.chain best

namespace Threaded

variable {n n' : Node}

theorem of_inSync (h : InSync env n) : Threaded env n where
  __ := h
  best := by
    rcases h.best with hunset | ⟨tip, htip⟩
    · refine .inl ⟨hunset, ?_⟩
      rw [h.links, hunset.bestChain_eq]
      rfl
    refine .inr ⟨tip, { htip with }, ?_⟩
    rw [LinksWithin, h.linked htip]
    exact Sub.refl _

theorem inSync (h : Threaded env n) (hunset : Unset n.chain)
    (hlinks : n.chain.pnext = fun _ => none) : InSync env n where
  __ := h
  best := Or.inl hunset
  links := by
    rw [hlinks, hunset.bestChain_eq]
    rfl

theorem unmoved (h : Threaded env n) (hun : Unmoved n.chain n'.chain) : Threaded env n' where
  index := hun.memory.mapBlockIndex ▸ h.index
  root := hun.memory.mapBlockIndex ▸ h.root
  noBatch := hun.noBatch
  best := by
    rcases h.best with ⟨hunset, hlinks⟩ | ⟨best, htip, hwithin⟩
    · exact .inl ⟨hunset.unmoved hun, hun.pnext.trans hlinks⟩
    · exact .inr ⟨best, htip.unmoved hun, hwithin.congr hun.memory.mapBlockIndex hun.pnext⟩

theorem indexBlock {nFile nBlockPos : Nat} {hashProofOfStake : Uint256} (h : Threaded env n)
    (hnew : n.chain.newBlockIndex env b nFile nBlockPos hashProofOfStake = .ok pindexNew)
    (hcaller : IndexCaller n.chain b) (w : World) :
    Threaded env (n.entered w pindexNew) := by
  rcases h.best with ⟨hunset, hlinks⟩ | ⟨best, htip, hwithin⟩
  · exact of_inSync ((h.inSync hunset hlinks).indexBlock hnew hcaller w)
  obtain ⟨-, hnone, -⟩ := newBlockIndex_ok hnew
  obtain ⟨hmap, hpnext, -, -, -, -, -, -, hbatch⟩ := indexBlock_frame h.noBatch w pindexNew
  have hkeeps : ∀ {x p}, n.chain.mapBlockIndex x = some p →
      (n.chain.indexBlock w pindexNew).1.mapBlockIndex x = some p :=
    fun hp => indexBlock_keeps h.noBatch hnone w hp
  have wf : (n.chain.indexBlock w pindexNew).1.mapBlockIndex.WellFormed := by
    rw [hmap]
    exact wellFormed_insertIndex h.index hnew
  refine ⟨wf, indexBlock_root h.noBatch h.root hnew w, hbatch,
    .inr ⟨best, htip.indexBlock h.noBatch hnone w, fun x y hxy => ?_⟩⟩
  rw [hpnext] at hxy
  change update n.chain.pnext pindexNew.hashBlock none x = some y at hxy
  rw [hashes, chainOf_mono h.index wf hkeeps htip.indexed]
  by_cases hx : x = pindexNew.hashBlock
  · simp [hx] at hxy
  · rw [update_of_ne hx] at hxy
    exact hwithin x y hxy

theorem pnext_eq_none (h : Threaded env n) {x : Uint256} (hx : n.chain.mapBlockIndex x = none) :
    n.chain.pnext x = none := by
  rcases h.best with ⟨-, hlinks⟩ | ⟨best, -, hwithin⟩
  · simp [hlinks]
  rcases hnext : n.chain.pnext x with _ | y
  · rfl
  have hlink := hwithin x y hnext
  have hmem : x ∈ (n.chain.mapBlockIndex.hashes best.hashBlock).tail :=
    isSome_nextIn.mp (by simp [hlink])
  obtain ⟨p, hp, -⟩ := (mem_hashes_iff h.index).mp (mem_of_mem_tail hmem)
  rw [hx] at hp
  cases hp

theorem newBest {n2 : Node} (h : Threaded env n)
    (htip : MemoryTip n.chain best) (hmem : SameMemory n.chain n2.chain)
    (hbatch : n2.chain.db.activeBatch = none) (hnew : n.chain.mapBlockIndex.Indexed pindexNew)
    (hwithin : LinksWithin n2.chain pindexNew) :
    Threaded env (n2.newBest pindexNew.hashBlock pindexNew) where
  index := hmem.mapBlockIndex ▸ h.index
  root := hmem.mapBlockIndex ▸ h.root
  noBatch := hbatch
  best := .inr ⟨pindexNew, ⟨hmem.mapBlockIndex ▸ hnew,
    hmem.pindexGenesisBlock ▸ htip.pindexGenesisBlock, rfl, rfl, rfl⟩, hwithin⟩

end Threaded

/-- The block files hold only blocks that have passed `CheckBlock`: `ProcessBlock` checks a block
before `AcceptBlock` writes it. -/
def Disk.Checked (env : Env) (d : Disk) : Prop :=
  ∀ nFile nBlockPos b, d.block nFile nBlockPos = some b →
    ∃ now fCheckPOW fCheckMerkleRoot fCheckSig,
      b.checkBlock env now fCheckPOW fCheckMerkleRoot fCheckSig = .ok ()

theorem Disk.Checked.readBlock (h : w.disk.Checked env)
    (hread : w.readBlock env pindex = some b) : b.ValuesInRange ∧ b.vtx ≠ [] := by
  obtain ⟨_, _, _, _, hok⟩ := h _ _ _ (World.readBlock_eq_some hread).2.1
  exact CBlock.valuesInRange_of_checked hok

theorem setBestChainInner_no_throw {n' : Node} {message : String} (hvalues : b.ValuesInRange) :
    n.setBestChainInner env w b pindex ≠ (n', .threw message) := by
  intro h
  rw [setBestChainInner] at h
  rcases hconn : n.chain.connectBlock env w n.mempool.mapTx b pindex with e | _
  · have hreject := errs_connectBlock hvalues e hconn
    rcases e with ⟨_, text⟩ | text
    · simp [hconn] at h
    · exact hreject
  · simp only [hconn] at h
    split at h <;> simp at h

theorem connectFurther_no_throw (h : w.disk.Checked env) (l : List CBlockIndex) :
    ∀ n : Node, (connectFurther env w l n).2 = none := by
  induction l with
  | nil => exact fun n => rfl
  | cons pindex rest ih =>
    intro n
    rw [connectFurther]
    split
    · rfl
    rename_i b hread
    split
    · split
      · exact ih _
      · rfl
      next n₁ message hin => exact absurd hin (setBestChainInner_no_throw (h.readBlock hread).1)
    · rfl

/-! ## A call of SetBestChain -/

theorem ChainState.disconnected_of_switch (h : w.disk.Checked env)
    {mempool : Uint256 → Option CTransaction} {vConnect vDisconnect : List CBlockIndex}
    {vResurrect : List CTransaction} (hne : vDisconnect ≠ [])
    (hdisc : s.disconnectBlocks env w vDisconnect = (s', .ok vResurrect)) :
    ∃ tx, disconnected tx ∈ s.switchNotices env w mempool vConnect vDisconnect := by
  obtain ⟨pindex, _, rfl⟩ := exists_cons_of_ne_nil hne
  rw [disconnectBlocks] at hdisc
  rcases hread : w.readBlock env pindex with _ | block
  · simp [hread] at hdisc
  rcases hblock : s.disconnectBlock env block pindex with e | _
  · simp [hread, hblock] at hdisc
  obtain ⟨tx, _, hvtx⟩ := exists_cons_of_ne_nil (h.readBlock hread).2
  refine ⟨tx, ?_⟩
  simp [switchNotices, hread, hblock, CBlock.disconnectedNotices, hvtx]

variable {n₁ : Node}

/-- The links stay on the chain of the new block. If nothing is cut off, the old links stay;
otherwise the wallets hear of it. -/
theorem reorganize_links (hchecked : w.disk.Checked env)
    (wf : n.chain.mapBlockIndex.WellFormed) (htip : MemoryTip n.chain best)
    (hwithin : LinksWithin n.chain best) (hre : n.txnBegin.reorganize env w pindex = (n₁, .ok ())) :
    SameMemory n.chain n₁.chain ∧ n₁.chain.db.activeBatch = none ∧ LinksWithin n₁.chain pindex ∧
      ((best ∈ n.chain.mapBlockIndex.chainOf pindex.hashBlock ∧
          Sub n.chain.pnext n₁.chain.pnext) ∨
        ∃ tx, disconnected tx ∈ n.txnBegin.reorganizeNotices env w pindex) := by
  have hchain : n.txnBegin.chain.bestChain = n.chain.mapBlockIndex.chainOf best.hashBlock := by
    change n.chain.bestChain = _
    rw [bestChain, htip.pindexBest]
  rw [reorganizeNotices]
  rw [reorganize] at hre
  simp only [hchain] at hre ⊢
  rcases hfork : findFork (n.chain.mapBlockIndex.chainOf best.hashBlock)
      (n.txnBegin.chain.mapBlockIndex.chainOf pindex.hashBlock) with _ | pfork
  · simp [hfork] at hre
  simp only [hfork] at hre ⊢
  obtain ⟨hold, hnew⟩ := mem_chainOf_of_findFork wf hfork
  rcases switchBranch_cases rfl hre with ⟨-, _, s2, _, _, hdisc, hconn, rfl⟩ | ⟨⟨e, he⟩, -⟩
  · have hsame := (disconnectBlocks_frame hdisc).1.trans (connectBlocks_frame hconn).1
    have hmem := hsame.memory
    obtain ⟨hlinks, hkept⟩ := hwithin.relink wf htip.indexed hold hnew
    have hs2 : s2.pnext = n.chain.pnext := hsame.pnext
    rw [chain_finishReorganize]
    refine ⟨{ hmem with }, rfl, ?_, ?_⟩
    · rw [hs2, hmem.mapBlockIndex]
      exact hlinks
    by_cases hcut : aboveFork pfork (n.chain.mapBlockIndex.chainOf best.hashBlock) = []
    · obtain ⟨rfl, hsub⟩ := hkept hcut
      refine .inl ⟨hnew, ?_⟩
      rw [hs2]
      exact hsub
    · exact .inr (disconnected_of_switch hchecked hcut hdisc)
  · cases he

structure Climbing (n₀ n : Node) (rest : List CBlockIndex) (tip pindexNew : CBlockIndex) :
    Prop where
  memory : SameMemory n₀.chain n.chain
  noBatch : n.chain.db.activeBatch = none
  kept : Sub n₀.chain.pnext n.chain.pnext
  reached : n₀.chain.mapBlockIndex.Indexed tip
  within : LinksWithin n.chain tip
  indexed : ∀ p ∈ rest, n₀.chain.mapBlockIndex.Indexed p
  chain : (tip :: rest).IsChain (fun p q => q.pprev = some p.hashBlock)
  last : (tip :: rest).getLast? = some pindexNew

theorem setBestChainInner_links {tip : CBlockIndex}
    {outcome : Outcome} (wf : n.chain.mapBlockIndex.WellFormed)
    (htip : n.chain.mapBlockIndex.Indexed tip) (hnew : n.chain.mapBlockIndex.Indexed pindex)
    (hprev : pindex.pprev = some tip.hashBlock) (hwithin : LinksWithin n.chain tip)
    (hin : n.txnBegin.setBestChainInner env w b pindex = (n₁, outcome)) :
    (outcome = .returned true ∧ SameMemory n.chain n₁.chain ∧ n₁.chain.db.activeBatch = none ∧
        Sub n.chain.pnext n₁.chain.pnext ∧ LinksWithin n₁.chain pindex) ∨
      (outcome ≠ .returned true ∧ Untouched n.chain n₁.chain) := by
  rcases setBestChainInner_outcome rfl hin with ⟨hout, -, s1, hconn, hchain⟩ | ⟨hne, hun, -⟩
  · obtain ⟨hsame, -⟩ := connectBlock_frame hconn
    have hmem := hsame.memory
    have hs1 : s1.pnext = n.chain.pnext := hsame.pnext
    obtain ⟨hkept, hlinks⟩ := hwithin.linkAll_singleton wf htip hnew hprev
    refine .inl ⟨hout, ?_⟩
    rw [hchain]
    refine ⟨{ hmem with }, rfl, ?_, ?_⟩
    · rw [hs1]
      exact hkept
    · rw [hs1, hmem.mapBlockIndex]
      exact hlinks
  · exact .inr ⟨hne, hun.of_txnBegin⟩

namespace Climbing

variable {n₀ n n₁ : Node} {rest : List CBlockIndex} {tip pindexNew pindex : CBlockIndex}
  {b : CBlock} {outcome : Outcome}

theorem attempt (wf : n₀.chain.mapBlockIndex.WellFormed)
    (h : Climbing n₀ n (pindex :: rest) tip pindexNew)
    (hin : n.txnBegin.setBestChainInner env w b pindex = (n₁, outcome)) :
    (outcome = .returned true ∧ Climbing n₀ n₁ rest pindex pindexNew) ∨
      (outcome ≠ .returned true ∧ Climbing n₀ n₁ (pindex :: rest) tip pindexNew) := by
  have hmap := h.memory.mapBlockIndex
  have hpindex := h.indexed pindex mem_cons_self
  obtain ⟨hprev, hchain⟩ := isChain_cons_cons.mp h.chain
  rcases setBestChainInner_links (hmap ▸ wf) (hmap ▸ h.reached) (hmap ▸ hpindex) hprev h.within hin
    with ⟨hout, hmem, hbatch, hkept, hwithin⟩ | ⟨hne, hun⟩
  · refine .inl ⟨hout, h.memory.trans hmem, hbatch, h.kept.trans hkept, hpindex, hwithin,
      fun p hp => h.indexed p (mem_cons_of_mem pindex hp), hchain, ?_⟩
    simpa using h.last
  refine .inr ⟨hne, h.memory.trans hun.memory, hun.noBatch, ?_, h.reached,
    h.within.congr hun.memory.mapBlockIndex hun.pnext, h.indexed, h.chain, h.last⟩
  rw [hun.pnext]
  exact h.kept

theorem connectFurther {r : Option String} (wf : n₀.chain.mapBlockIndex.WellFormed)
    (h : Climbing n₀ n₀ rest tip pindexNew) (hfurther : connectFurther env w rest n₀ = (n, r)) :
    ∃ rest' tip', Climbing n₀ n rest' tip' pindexNew := by
  obtain ⟨rest', ⟨tip', h'⟩, -⟩ := connectFurther_induct
    (fun n' rest' => ∃ tip', Climbing n₀ n' rest' tip' pindexNew)
    (fun _ _ pindex _ _ ⟨_, hclimb⟩ _ hin => by
      rcases hclimb.attempt wf hin with ⟨-, hnext⟩ | ⟨hne, -⟩
      · exact ⟨pindex, hnext⟩
      · exact absurd rfl hne)
    (fun _ _ _ _ _ _ ⟨tip, hclimb⟩ _ hin hne => by
      rcases hclimb.attempt wf hin with ⟨hout, -⟩ | ⟨-, hsame⟩
      · exact absurd hout hne
      · exact ⟨tip, hsame⟩)
    _ _ _ _ ⟨tip, h⟩ hfurther
  exact ⟨rest', tip', h'⟩

end Climbing

theorem Threaded.reorganized {n2 : Node} {r : Option String}
    (h : Threaded env n) (hchecked : w.disk.Checked env) (htip : MemoryTip n.chain best)
    (hwithin : LinksWithin n.chain best) (hnew : n.chain.mapBlockIndex.Indexed pindexNew)
    (hreorg : n.txnBegin.reorganize env w (n.intermediate best pindexNew) = (n₁, .ok ()))
    (hfurther : connectFurther env w (n.secondary best pindexNew) n₁ = (n2, r)) :
    Threaded env (n2.newBest pindexNew.hashBlock pindexNew) ∧
      (Grown n.chain (n2.newBest pindexNew.hashBlock pindexNew).chain ∨
        ∃ tx, disconnected tx ∈
          n.txnBegin.reorganizeNotices env w (n.intermediate best pindexNew)) := by
  obtain ⟨hinter, hsec, hchain, hlast⟩ := secondary_chain best h.index hnew
  obtain ⟨hmem1, hbatch1, hwithin1, hkept1⟩ :=
    reorganize_links hchecked h.index htip hwithin hreorg
  have hmap1 := hmem1.mapBlockIndex
  have wf1 : n₁.chain.mapBlockIndex.WellFormed := hmap1 ▸ h.index
  have hstart : Climbing n₁ n₁ (n.secondary best pindexNew) (n.intermediate best pindexNew)
      pindexNew :=
    ⟨SameMemory.refl _, hbatch1, Sub.refl _, hmap1 ▸ hinter, hwithin1, hmap1 ▸ hsec, hchain, hlast⟩
  obtain ⟨rest, _, hclimb⟩ := hstart.connectFurther wf1 hfurther
  have hmap2 := hclimb.memory.mapBlockIndex
  have htop := (chainOf_getLast wf1 rest _ hclimb.indexed hclimb.chain hclimb.last).subset
    (mem_chainOf_self hclimb.reached)
  have hwithin2 : LinksWithin n2.chain pindexNew :=
    hclimb.within.mono (hmap2 ▸ wf1) (hmap2 ▸ htop)
  refine ⟨h.newBest htip (hmem1.trans hclimb.memory) hclimb.noBatch hnew hwithin2, ?_⟩
  refine hkept1.imp_left fun ⟨hbest, hsub⟩ => ?_
  refine ⟨fun x p hp => ?_, hsub.trans hclimb.kept, ?_⟩
  · change n2.chain.mapBlockIndex x = some p
    rwa [hmap2, hmap1]
  have hup := (chainOf_getLast h.index _ _ hsec hchain hlast).subset hbest
  rw [chainOf_eq hnew] at hup
  have hle := rank_le_of_mem_chainFrom h.index.ranked hnew hup
  change n.chain.nBestHeight ≤ (pindexNew.nHeight : Int)
  rw [htip.nBestHeight]
  exact_mod_cast hle

theorem Threaded.extended
    (h : Threaded env n) (htip : MemoryTip n.chain best) (hwithin : LinksWithin n.chain best)
    (hnew : n.chain.mapBlockIndex.Indexed pindexNew) (hprev : pindexNew.pprev = some best.hashBlock)
    (hin : n.txnBegin.setBestChainInner env w b pindexNew = (n₁, .returned true)) :
    Threaded env (n₁.newBest pindexNew.hashBlock pindexNew) ∧
      Grown n.chain (n₁.newBest pindexNew.hashBlock pindexNew).chain := by
  rcases setBestChainInner_links h.index htip.indexed hnew hprev hwithin hin with
    ⟨-, hmem, hbatch, hkept, hlinks⟩ | ⟨hne, -⟩
  · refine ⟨h.newBest htip hmem hbatch hnew hlinks, fun x p hp => ?_, hkept, ?_⟩
    · change n₁.chain.mapBlockIndex x = some p
      rwa [hmem.mapBlockIndex]
    · obtain ⟨_, hpb, _⟩ := h.index.pprev_some hnew hprev
      rw [htip.indexed] at hpb
      cases hpb
      change n.chain.nBestHeight ≤ (pindexNew.nHeight : Int)
      rw [htip.nBestHeight]
      omega
  · exact absurd rfl hne

theorem Grown.unmoved (h : Unmoved s s') : Grown s s' := by
  refine ⟨fun x p hp => ?_, ?_, h.memory.nBestHeight.ge⟩
  · rwa [h.memory.mapBlockIndex]
  · rw [h.pnext]
    exact Sub.refl _

theorem Threaded.grown_indexBlock (h : Threaded env n)
    (hnone : n.chain.mapBlockIndex pindexNew.hashBlock = none) (w : World) :
    Grown n.chain (n.chain.indexBlock w pindexNew).1 := by
  obtain ⟨-, hpnext, -, -, -, hheight, -⟩ := indexBlock_frame h.noBatch w pindexNew
  refine ⟨fun x p hp => indexBlock_keeps h.noBatch hnone w hp, ?_, hheight.ge⟩
  intro x y hxy
  rw [hpnext]
  change update n.chain.pnext pindexNew.hashBlock none x = some y
  rw [update_of_ne, hxy]
  rintro rfl
  rw [h.pnext_eq_none hnone] at hxy
  cases hxy

/-- **One call.** `SetBestChain` leaves the links on the best chain, however it ends. If there were
links, all of them are still there and the node is not lower, or the wallets have heard of a
disconnected transaction. -/
theorem Threaded.setBestChain {n' : Node}
    {outcome : Outcome} (h : Threaded env n) (hchecked : w.disk.Checked env)
    (hfor : BlockFor env n.chain.mapBlockIndex b pindexNew)
    (hcall : n.setBestChain env w b pindexNew = (n', outcome)) :
    Threaded env n' ∧ (n.chain.pnext = (fun _ => none) ∨ Grown n.chain n'.chain ∨
      ∃ tx, disconnected tx ∈ n.setBestChainNotices env w b pindexNew) := by
  rcases h.best with ⟨hunset, hlinks⟩ | ⟨best, htip, hwithin⟩
  · refine ⟨?_, .inl hlinks⟩
    have hsync := h.inSync hunset hlinks
    have hpostponed : n.PostponedOk env w pindexNew := by
      intro best n₁ _ hhead
      rw [hunset.bestChain_eq] at hhead
      cases hhead
    exact of_inSync (hsync.setBestChain hfor hpostponed hcall)
  rcases setBestChain_cases h.index h.noBatch htip.indexed htip.pindexBest
      htip.hashBestChain htip.pindexGenesisBlock hfor hcall with
    ⟨-, hun, -⟩ | ⟨-, hprev, n₁, hin, rfl⟩ |
    ⟨n₁, n2, r, hbegin, hprev, hreorg, hfurther, -, hnone⟩
  · exact ⟨h.unmoved hun.toUnmoved, .inr (.inl (Grown.unmoved hun.toUnmoved))⟩
  · have hext := h.extended htip hwithin hfor.indexed hprev hin
    exact ⟨hext.1, .inr (.inl hext.2)⟩
  have hquiet := connectFurther_no_throw hchecked (n.secondary best pindexNew) n₁
  rw [hfurther] at hquiet
  obtain ⟨rfl, -⟩ := hnone hquiet
  obtain ⟨hthreaded, hkept⟩ := h.reorganized hchecked htip hwithin hfor.indexed hreorg hfurther
  refine ⟨hthreaded, .inr (hkept.imp_right fun ⟨tx, htx⟩ => ⟨tx, ?_⟩)⟩
  obtain ⟨below, hbelow⟩ := chainOf_head htip.indexed
  have hbestChain : n.chain.bestChain = best :: below := by
    rw [bestChain, htip.pindexBest]
    exact hbelow
  rw [setBestChainNotices, if_neg (by simp [hbegin]),
    if_neg (fun hgen => htip.pindexGenesisBlock hgen.1), if_neg hprev, hbestChain]
  exact mem_append_left _ htx

/-! ## The cache over a run -/

def StakeMetaCache.Fresh (cache : StakeMetaCache) (env : Env) (s : ChainState) (d : Disk) : Prop :=
  ∀ blockPos block nStakeModifier, cache blockPos = some (block, nStakeModifier) →
    openBlockFile blockPos.1 = true ∧
      (d.block blockPos.1 blockPos.2).map CBlock.toCBlockHeader = some block ∧
      s.getKernelStakeModifier env.fTestNet (env.scryptBlockhash block) = some nStakeModifier

def Disk.Appended (d d' : Disk) : Prop :=
  ∀ nFile nBlockPos b, d.block nFile nBlockPos = some b → d'.block nFile nBlockPos = some b

namespace StakeMetaCache.Fresh

variable {cache : StakeMetaCache} {s s' : ChainState} {d d' : Disk}

theorem empty (s : ChainState) (d : Disk) : Fresh (fun _ => none) env s d := by
  intro _ _ _ h
  cases h

theorem grown (h : cache.Fresh env s d) (hgrown : Grown s s') : cache.Fresh env s' d := by
  intro blockPos block nStakeModifier hit
  obtain ⟨hopen, hread, hwalk⟩ := h _ _ _ hit
  exact ⟨hopen, hread, hgrown.getKernelStakeModifier hwalk⟩

theorem appended (h : cache.Fresh env s d) (happ : d.Appended d') : cache.Fresh env s d' := by
  intro blockPos block nStakeModifier hit
  obtain ⟨hopen, hread, hwalk⟩ := h _ _ _ hit
  obtain ⟨b, hb, rfl⟩ := Option.map_eq_some_iff.mp hread
  exact ⟨hopen, by rw [happ _ _ _ hb, Option.map_some], hwalk⟩

theorem eq_empty (h : cache.Fresh env s d) (hlinks : s.pnext = fun _ => none) :
    cache = fun _ => none := by
  funext blockPos
  rcases hhit : cache blockPos with _ | ⟨_, _⟩
  · rfl
  · have hwalk := (h _ _ _ hhit).2.2
    rw [getKernelStakeModifier_of_no_links hlinks] at hwalk
    cases hwalk

theorem resolve {V : StakeView} (h : cache.Fresh env V.chain V.disk) {pcoin : WalletCoin}
    {blockPos : Nat × Nat} {block : CBlockHeader} {nStakeModifier : Nat}
    (hresolve : V.resolve env cache pcoin blockPos = some (block, nStakeModifier)) :
    openBlockFile blockPos.1 = true ∧
      (V.disk.block blockPos.1 blockPos.2).map CBlock.toCBlockHeader = some block ∧
      V.chain.getKernelStakeModifier env.fTestNet (env.scryptBlockhash block)
        = some nStakeModifier := by
  rw [StakeView.resolve] at hresolve
  rcases hhit : cache blockPos with _ | _
  · rw [hhit] at hresolve
    obtain ⟨_, hheader, hresolve⟩ := Option.bind_eq_some_iff.mp hresolve
    obtain ⟨m, hm, hresolve⟩ := Option.bind_eq_some_iff.mp hresolve
    cases hresolve
    rw [readHeader] at hheader
    split at hheader
    next hopen => exact ⟨(Bool.and_eq_true_iff.mp hopen).1, hheader, hm⟩
    · cases hheader
  · rw [hhit] at hresolve
    cases hresolve
    exact h _ _ _ hhit

theorem loadCoins {V : StakeView} (h : cache.Fresh env V.chain V.disk)
    (setCoins : List WalletCoin) : (V.loadCoins env cache setCoins).2.Fresh env V.chain V.disk := by
  refine foldlRecOn setCoins _ (motive := fun st : MetaMap _ × StakeMetaCache =>
    Fresh st.2 env V.chain V.disk) (empty _ _) fun st hst pcoin _ => ?_
  rw [loadCoin]
  split
  · exact hst
  split
  · exact hst
  rename_i txindex _ _ block nStakeModifier hresolve
  intro blockPos block' nStakeModifier' hit
  obtain ⟨rfl, ⟨⟩⟩ | ⟨-, hit⟩ := update_eq_some hit
  · exact h.resolve hresolve
  · exact hst _ _ _ hit

end StakeMetaCache.Fresh

namespace StakeCaches

variable {C : StakeCaches env}

theorem fresh_refreshCoins (fLocked : Bool) {p : StakePass}
    (h : C.mapStakeMetaCache.Fresh env p.view.chain p.view.disk) :
    (C.refreshCoins fLocked p).1.mapStakeMetaCache.Fresh env p.view.chain p.view.disk := by
  rw [refreshCoins]
  split
  · split
    · exact h
    · exact h
    · exact h.loadCoins _
  · exact h

theorem fresh_createCoinStake (fLocked : Bool) {q : StakeCall}
    (h : C.mapStakeMetaCache.Fresh env q.pass.view.chain q.pass.view.disk) :
    (C.createCoinStake fLocked q).1.mapStakeMetaCache.Fresh env
      q.pass.view.chain q.pass.view.disk := by
  have hbalance : (C.refreshBalance q.pass).mapStakeMetaCache = C.mapStakeMetaCache := by
    rw [refreshBalance]
    split <;> rfl
  rw [← hbalance] at h
  have hrefresh := fresh_refreshCoins fLocked h
  simp only [createCoinStake]
  split
  · exact h
  · split <;> simpa [*] using hrefresh

end StakeCaches

def WalletNotice.event (io : CBlock → CTransaction → WalletIO) : WalletNotice → StakeEvent
  | .connected pblock tx => .deliver (io pblock tx) tx (some pblock)
  | .disconnected tx => .disconnect tx

def StakeEvent.Sees (s : ChainState) (d : Disk) : StakeEvent → Prop
  | .getStakeWeight _ p _ => p.view.chain = s ∧ p.view.disk = d
  | .createCoinStake q => q.pass.view.chain = s ∧ q.pass.view.disk = d
  | _ => True

namespace StakingWallet

variable {W : StakingWallet env} {s : ChainState} {d : Disk}

theorem mapStakeMetaCache_deliver (io : WalletIO) (tx : CTransaction) (pblock : Option CBlock) :
    (W.deliver io tx pblock).caches.mapStakeMetaCache = W.caches.mapStakeMetaCache := by
  simp only [deliver]
  split
  · rfl
  split
  · simp only [StakeCaches.setCoinsDataActual]
    split <;> rfl
  · rfl

theorem mapStakeMetaCache_rebuilt (C : StakeCaches env) (fRebuilt : Bool) (nBalance : Int) :
    (W.rebuilt C fRebuilt nBalance).caches = C := by
  rw [rebuilt]
  split <;> rfl

theorem fresh_run (h : W.caches.mapStakeMetaCache.Fresh env s d) {e : StakeEvent}
    (hsees : e.Sees s d) : (W.run e).caches.mapStakeMetaCache.Fresh env s d := by
  cases e with
  | deliver io tx pblock =>
    simp only [run, mapStakeMetaCache_deliver]
    exact h
  | disconnect tx => exact StakeMetaCache.Fresh.empty s d
  | lock => exact h
  | unlock => exact h
  | getStakeWeight nReserveBalance p nTime =>
    obtain ⟨rfl, rfl⟩ := hsees
    simp only [run, mapStakeMetaCache_rebuilt]
    have hrefresh := StakeCaches.fresh_refreshCoins W.fLocked h
    rw [StakeCaches.getStakeWeight]
    split
    · exact h
    · split <;> simpa [*] using hrefresh
  | createCoinStake q =>
    obtain ⟨rfl, rfl⟩ := hsees
    simp only [run, mapStakeMetaCache_rebuilt]
    exact StakeCaches.fresh_createCoinStake _ h

def hears (W : StakingWallet env) (io : CBlock → CTransaction → WalletIO)
    (notices : List WalletNotice) : StakingWallet env :=
  notices.foldl (fun W notice => W.run (notice.event io)) W

theorem mapStakeMetaCache_hears (io : CBlock → CTransaction → WalletIO)
    (notices : List WalletNotice) : ∀ W : StakingWallet env,
      (W.hears io notices).caches.mapStakeMetaCache = W.caches.mapStakeMetaCache ∧
          (∀ tx, disconnected tx ∉ notices) ∨
        (W.hears io notices).caches.mapStakeMetaCache = fun _ => none := by
  induction notices with
  | nil => exact fun W => .inl ⟨rfl, by simp⟩
  | cons notice notices ih =>
    intro W
    change (((W.run (notice.event io)).hears io notices).caches.mapStakeMetaCache = _ ∧ _) ∨
      ((W.run (notice.event io)).hears io notices).caches.mapStakeMetaCache = _
    rcases ih (W.run (notice.event io)) with ⟨hrest, hnone⟩ | hempty
    · rw [hrest]
      cases notice with
      | connected pblock tx =>
        refine .inl ⟨mapStakeMetaCache_deliver _ _ _, fun tx' => ?_⟩
        simpa using hnone tx'
      | disconnected tx => exact .inr rfl
    · exact .inr hempty

end StakingWallet

structure StakingNode (env : Env) where
  node : Node
  disk : Disk
  wallet : StakingWallet env

namespace StakingNode

/-- A checked block is appended to the block files; a block is added to the index; `SetBestChain` is
called and the wallet told; something happens to the wallet; or something that does not concern the
best chain. Left out is a call of `SetBestChain` that an exception out of the wallet ends: it may
leave links ahead of `pindexBest`. -/
inductive Step (env : Env) : StakingNode env → StakingNode env → Prop
  | append {S : StakingNode env} {d : Disk} (happ : S.disk.Appended d) (hchecked : d.Checked env) :
      Step env S { S with disk := d }
  | index {S : StakingNode env} {b : CBlock} {nFile nBlockPos : Nat} {hashProofOfStake : Uint256}
      {pindexNew : CBlockIndex} (w : World)
      (hnew : S.node.chain.newBlockIndex env b nFile nBlockPos hashProofOfStake = .ok pindexNew)
      (hcaller : IndexCaller S.node.chain b) :
      Step env S { S with node := S.node.entered w pindexNew }
  | setBest {S : StakingNode env} {b : CBlock} {pindexNew : CBlockIndex} (w : World)
      (io : CBlock → CTransaction → WalletIO) (hdisk : w.disk = S.disk)
      (hfor : BlockFor env S.node.chain.mapBlockIndex b pindexNew) :
      Step env S { S with
        node := (S.node.setBestChain env w b pindexNew).1
        wallet := S.wallet.hears io (S.node.setBestChainNotices env w b pindexNew) }
  | event {S : StakingNode env} (e : StakeEvent) (hsees : e.Sees S.node.chain S.disk) :
      Step env S { S with wallet := S.wallet.run e }
  | other {S : StakingNode env} {n : Node} (h : Unmoved S.node.chain n.chain) :
      Step env S { S with node := n }

abbrev Run (env : Env) : StakingNode env → StakingNode env → Prop :=
  Relation.ReflTransGen (Step env)

structure Started (S : StakingNode env) : Prop where
  inSync : InSync env S.node
  checked : S.disk.Checked env
  mapStakeMetaCache : S.wallet.caches.mapStakeMetaCache = fun _ => none

structure Sound (S : StakingNode env) : Prop where
  threaded : Threaded env S.node
  checked : S.disk.Checked env
  fresh : S.wallet.caches.mapStakeMetaCache.Fresh env S.node.chain S.disk

theorem Started.sound {S : StakingNode env} (h : Started S) : Sound S where
  threaded := Threaded.of_inSync h.inSync
  checked := h.checked
  fresh := by
    rw [h.mapStakeMetaCache]
    exact StakeMetaCache.Fresh.empty _ _

theorem Sound.step {S S' : StakingNode env} (h : Sound S) (hstep : Step env S S') : Sound S' := by
  cases hstep with
  | append happ hchecked => exact ⟨h.threaded, hchecked, h.fresh.appended happ⟩
  | index w hnew hcaller =>
    obtain ⟨-, hnone, -⟩ := newBlockIndex_ok hnew
    exact ⟨h.threaded.indexBlock hnew hcaller w, h.checked,
      h.fresh.grown (h.threaded.grown_indexBlock hnone w)⟩
  | @setBest b pindexNew w io hdisk hfor =>
    rcases hcall : S.node.setBestChain env w b pindexNew with ⟨_, _⟩
    obtain ⟨hthreaded, hkept⟩ := h.threaded.setBestChain (hdisk ▸ h.checked) hfor hcall
    refine ⟨hthreaded, h.checked, ?_⟩
    rcases StakingWallet.mapStakeMetaCache_hears io
        (S.node.setBestChainNotices env w b pindexNew) S.wallet with ⟨hsame, hquiet⟩ | hempty
    · simp only [hsame]
      rcases hkept with hlinks | hgrown | ⟨tx, htx⟩
      · rw [h.fresh.eq_empty hlinks]
        exact StakeMetaCache.Fresh.empty _ _
      · exact h.fresh.grown hgrown
      · exact absurd htx (hquiet tx)
    · simp only [hempty]
      exact StakeMetaCache.Fresh.empty _ _
  | event e hsees => exact ⟨h.threaded, h.checked, StakingWallet.fresh_run h.fresh hsees⟩
  | other hun => exact ⟨h.threaded.unmoved hun, h.checked, h.fresh.grown (Grown.unmoved hun)⟩

theorem Sound.run {S S' : StakingNode env} (h : Sound S) (hrun : Run env S S') : Sound S' := by
  induction hrun with
  | refl => exact h
  | tail _ hstep ih => exact ih.step hstep

/-- **Transparency.** At any point of a run a hit in `mapStakeMetaCache` is the header that
`ReadFromDisk` would return, with the modifier of `GetKernelStakeModifier`. -/
theorem stakeMetaCache_transparent {S₀ S : StakingNode env} (h₀ : Started S₀)
    (hrun : Run env S₀ S) {blockPos : Nat × Nat} {block : CBlockHeader} {nStakeModifier : Nat}
    (hit : S.wallet.caches.mapStakeMetaCache blockPos = some (block, nStakeModifier)) :
    (∀ headerOk pcoin, headerOk pcoin = true →
        readHeader ⟨S.node.chain, S.disk, headerOk⟩ pcoin blockPos = some block) ∧
      S.node.chain.getKernelStakeModifier env.fTestNet (env.scryptBlockhash block)
        = some nStakeModifier := by
  obtain ⟨hopen, hheader, hwalk⟩ := (h₀.sound.run hrun).fresh _ _ _ hit
  refine ⟨fun headerOk pcoin hread => ?_, hwalk⟩
  simp [readHeader, hopen, hread, hheader]

end StakingNode

/-! ## A hit -/

def hitNode : Node :=
  { stakedNode 0 with chain := { (stakedNode 0).chain with
      db := (stakedNode 0).chain.db.writeHashBestChain 2 } }

def hitTx : CTransaction := { stakedTx with vin := [⟨⟨7, 0⟩, [], uint32Max⟩] }

def hitBlock : CBlock :=
  ⟨forkKernel.blockFrom, [{ sampleCoinbase 0 coin with
    nTime := forkTime + 59
    vin := [⟨COutPoint.null, scriptOfHeight 1 ++ [0], uint32Max⟩] }, hitTx], []⟩

/-- A block above the staked ones, which comes after the pass. -/
def nextBlock : CBlock :=
  ⟨{ forkKernel.blockFrom with hashPrevBlock := 2, hashMerkleRoot := lateTime, nTime := lateTime },
    [{ sampleCoinbase 0 coin with nTime := lateTime }], []⟩

def hitDisk : Disk :=
  { coinDisk hitBlock hitTx with block := fun nFile pos =>
      if nFile = 1 ∧ pos = 5000 then some nextBlock else (coinDisk hitBlock hitTx).block nFile pos }

def hitPass : StakePass where
  nBalance := 10 * coin
  setCoins := some [⟨hitTx, 0⟩]
  spendable := by
    rintro coins ⟨⟩ pcoin hpcoin
    obtain rfl := List.mem_singleton.mp hpcoin
    constructor <;> decide +kernel
  view := ⟨hitNode.chain, hitDisk, fun _ => true⟩

def hitStart : StakingNode stakedEnv := ⟨hitNode, hitDisk, newStaker⟩

def hitNext : StakingNode stakedEnv :=
  { hitStart with wallet := newStaker.run (.getStakeWeight 0 hitPass lateTime) }

def nextEntry : CBlockIndex :=
  (hitNode.chain.newBlockIndex stakedEnv nextBlock 1 5000 0).toOption.getD default

def nextWorld : World := { stakedWorld with disk := hitDisk }

def hitIndexed : StakingNode stakedEnv :=
  { hitNext with node :=
      { hitNode with chain := (hitNode.chain.indexBlock nextWorld nextEntry).1 } }

def hitGrown : StakingNode stakedEnv :=
  { hitIndexed with
    node := (hitIndexed.node.setBestChain stakedEnv nextWorld nextBlock nextEntry).1
    wallet := hitIndexed.wallet.hears (fun _ _ => ⟨true, fun _ => false⟩)
      (hitIndexed.node.setBestChainNotices stakedEnv nextWorld nextBlock nextEntry) }

theorem hitNode_inSync : InSync stakedEnv hitNode where
  index := forkIndex_wellFormed
  root := by
    intro h p hp hroot
    have hroots : ∀ h ∈ [0, 1, 2, 12], ∀ p ∈ forkIndex h, p.pprev = none → h = 0 := by decide
    exact hroots h (mem_of_forkIndex hp) p hp hroot
  noBatch := rfl
  best := .inr ⟨forkEntry 2 (some 1) 2 (forkTime + 60 + 10 * 86400) 4,
    ⟨rfl, by decide +kernel⟩, Option.some_ne_none (0 : Uint256), rfl, rfl, rfl, rfl⟩
  links := by
    have hpath : hitNode.chain.bestChain.map CBlockIndex.hashBlock = [2, 1, 0] := by
      decide +kernel
    rw [hpath]
    funext h
    by_cases h1 : h = 1
    · simp [hitNode, stakedNode, forkState, nextIn, h1]
    · simp [hitNode, stakedNode, forkState, nextIn, h1]

theorem hitStart_started : hitStart.Started where
  inSync := hitNode_inSync
  checked := by
    intro nFile nBlockPos b hb
    simp only [hitStart, hitDisk, coinDisk] at hb
    split at hb
    · cases hb
      exact ⟨lateTime, true, true, true, by decide +kernel⟩
    · split at hb
      · cases hb
        exact ⟨lateTime, false, false, false, by decide +kernel⟩
      · cases hb
  mapStakeMetaCache := rfl

theorem stakeMetaCache_hit_grown :
    hitStart.Started ∧ StakingNode.Run stakedEnv hitStart hitGrown ∧
      hitGrown.node.chain.hashBestChain = lateTime ∧
      hitGrown.wallet.caches.mapStakeMetaCache (1, 1008) = some (forkKernel.blockFrom, 2) ∧
      (∀ headerOk pcoin, headerOk pcoin = true →
        readHeader ⟨hitGrown.node.chain, hitGrown.disk, headerOk⟩ pcoin (1, 1008)
          = some forkKernel.blockFrom) ∧
      hitGrown.node.chain.getKernelStakeModifier false 1 = some 2 := by
  have hnew : hitNode.chain.newBlockIndex stakedEnv nextBlock 1 5000 0 = .ok nextEntry := by
    decide +kernel
  have hrun : StakingNode.Run stakedEnv hitStart hitGrown :=
    .tail (.tail (.single (.event (.getStakeWeight 0 hitPass lateTime) ⟨rfl, rfl⟩))
      (.index nextWorld hnew (.inl ⟨rfl, rfl⟩)))
      (.setBest nextWorld _ rfl ⟨by decide +kernel, by decide +kernel, by decide +kernel⟩)
  have hit : hitGrown.wallet.caches.mapStakeMetaCache (1, 1008)
      = some (forkKernel.blockFrom, 2) := by decide +kernel
  exact ⟨hitStart_started, hrun, by decide +kernel, hit,
    StakingNode.stakeMetaCache_transparent hitStart_started hrun hit⟩

end HoboNickels

import HoboNickels.Accept
import HoboNickels.ChainSwitch
import HoboNickels.MoneySupply

/-!
# The best chain in memory and on disk

The variables of `SetBestChain` in memory, the record `hashBestChain` of the database and the
forward links `pnext` should describe the same chain. They do after every call (`bestChain_agrees`),
whatever fails inside it, as long as the blocks that a reorganisation postpones can all be attached,
and not otherwise (`setBestChain_inSync_iff`).
-/

namespace HoboNickels

open Fallible WriteBatch ParentChain List Function BlockMap ChainState Node Option

variable {env : Env} {w : World}

structure Unset (s : ChainState) : Prop where
  pindexBest : s.pindexBest = none
  pindexGenesisBlock : s.pindexGenesisBlock = none
  committed : s.db.committedBest = none
  roots : ∀ {h p}, s.mapBlockIndex h = some p → p.pprev = none

/-- The block is the best block in memory. -/
structure MemoryTip (s : ChainState) (tip : CBlockIndex) : Prop where
  indexed : s.mapBlockIndex.Indexed tip
  pindexGenesisBlock : s.pindexGenesisBlock ≠ none
  pindexBest : s.pindexBest = some tip.hashBlock
  hashBestChain : s.hashBestChain = tip.hashBlock
  nBestHeight : s.nBestHeight = tip.nHeight

structure AtTip (s : ChainState) (tip : CBlockIndex) : Prop extends
    TipAt s tip, MemoryTip s tip where
  nBestChainTrust : s.nBestChainTrust = tip.nChainTrust

/-- Between two calls the index is a tree that grows from the genesis block, no transaction is open,
and memory and database agree on the best block. -/
structure Settled (env : Env) (n : Node) : Prop where
  index : n.chain.mapBlockIndex.WellFormed
  root : ∀ {h p}, n.chain.mapBlockIndex h = some p → p.pprev = none → h = env.hashGenesisBlock
  noBatch : n.chain.db.activeBatch = none
  best : Unset n.chain ∨ ∃ tip, AtTip n.chain tip

structure InSync (env : Env) (n : Node) : Prop extends Settled env n where
  links : n.chain.pnext = nextIn (n.chain.bestChain.map CBlockIndex.hashBlock)

variable {s : ChainState} {tip best pindexNew p : CBlockIndex} {n n' n₀ n₁ : Node} {b : CBlock}
  {outcome : Outcome} {nFile nBlockPos : Nat} {hashProofOfStake : Uint256}

theorem AtTip.bestChain_eq (h : AtTip s tip) :
    s.bestChain = s.mapBlockIndex.chainOf tip.hashBlock := by
  rw [bestChain, h.pindexBest]

theorem Unset.bestChain_eq (h : Unset s) : s.bestChain = [] := by
  rw [bestChain, h.pindexBest]

theorem Settled.indexed_of_mem (h : Settled env n) (hp : p ∈ n.chain.bestChain) :
    n.chain.mapBlockIndex.Indexed p := by
  rw [bestChain] at hp
  split at hp
  · cases hp
  · exact mem_chainOf_indexed h.index hp

theorem InSync.linked (h : InSync env n) (htip : AtTip n.chain tip) : Linked n.chain tip := by
  rw [Linked, h.links, htip.bestChain_eq, hashes]

variable {s' : ChainState}

theorem MemoryTip.unmoved (h : MemoryTip s tip) (hun : Unmoved s s') : MemoryTip s' tip where
  indexed := hun.memory.mapBlockIndex ▸ h.indexed
  pindexGenesisBlock := hun.memory.pindexGenesisBlock ▸ h.pindexGenesisBlock
  pindexBest := hun.memory.pindexBest.trans h.pindexBest
  hashBestChain := hun.memory.hashBestChain.trans h.hashBestChain
  nBestHeight := hun.memory.nBestHeight.trans h.nBestHeight

theorem AtTip.unmoved (h : AtTip s tip) (hun : Unmoved s s') : AtTip s' tip where
  __ := h.toTipAt.unmoved hun
  __ := h.toMemoryTip.unmoved hun
  nBestChainTrust := hun.memory.nBestChainTrust.trans h.nBestChainTrust

theorem Unset.unmoved (h : Unset s) (hun : Unmoved s s') : Unset s' where
  pindexBest := hun.memory.pindexBest.trans h.pindexBest
  pindexGenesisBlock := hun.memory.pindexGenesisBlock.trans h.pindexGenesisBlock
  committed := hun.committedBest.trans h.committed
  roots := hun.memory.mapBlockIndex ▸ h.roots

theorem Settled.unmoved (h : Settled env n) (hun : Unmoved n.chain n'.chain) : Settled env n' where
  index := hun.memory.mapBlockIndex ▸ h.index
  root := hun.memory.mapBlockIndex ▸ h.root
  noBatch := hun.noBatch
  best := by
    rcases h.best with hunset | ⟨tip, htip⟩
    · exact .inl (hunset.unmoved hun)
    · exact .inr ⟨tip, htip.unmoved hun⟩

theorem Unmoved.bestChain_eq (hun : Unmoved s s') : s'.bestChain = s.bestChain := by
  unfold bestChain
  rw [hun.memory.pindexBest, hun.memory.mapBlockIndex]

theorem InSync.unmoved (h : InSync env n) (hun : Unmoved n.chain n'.chain) : InSync env n' where
  toSettled := h.toSettled.unmoved hun
  links := by rw [hun.pnext, h.links, hun.bestChain_eq]

theorem AtTip.newBest (h : TipAt n.chain tip) (hgenesis : n.chain.pindexGenesisBlock ≠ none) :
    AtTip (n.newBest tip.hashBlock tip).chain tip where
  __ := h
  pindexGenesisBlock := hgenesis
  pindexBest := rfl
  hashBestChain := rfl
  nBestHeight := rfl
  nBestChainTrust := rfl

theorem BlockMap.mem_hashes_self {m : BlockMap} (h : m.Indexed tip) :
    ∃ below, m.hashes tip.hashBlock = tip.hashBlock :: below := by
  obtain ⟨l, hl⟩ := chainOf_head h
  exact ⟨l.map CBlockIndex.hashBlock, by rw [hashes, hl, map_cons]⟩

theorem ChainState.isInMainChain_iff (hidx : s.mapBlockIndex.Indexed tip)
    (hbest : s.pindexBest = some tip.hashBlock) (hlinked : Linked s tip) (x : Uint256) :
    s.isInMainChain x = true ↔ x ∈ s.mapBlockIndex.hashes tip.hashBlock := by
  obtain ⟨_, hbelow⟩ := mem_hashes_self hidx
  unfold isInMainChain
  rw [hlinked, hbest, Bool.or_eq_true, isSome_nextIn, hbelow]
  simp only [tail_cons, beq_iff_eq, some.injEq, mem_cons]
  constructor
  · rintro (hx | rfl)
    · exact .inr hx
    · exact .inl rfl
  · rintro (rfl | hx)
    · exact .inr rfl
    · exact .inl hx

theorem AtTip.isInMainChain_iff (h : AtTip s tip) (hlinked : Linked s tip) (x : Uint256) :
    s.isInMainChain x = true ↔ x ∈ s.mapBlockIndex.hashes tip.hashBlock :=
  ChainState.isInMainChain_iff h.indexed h.pindexBest hlinked x

theorem Settled.getLast_hashes (h : Settled env n) : ∀ tip, n.chain.mapBlockIndex.Indexed tip →
      (n.chain.mapBlockIndex.hashes tip.hashBlock).getLast? = some env.hashGenesisBlock := by
  intro tip htip
  obtain ⟨r, hlast, hr⟩ := getLast?_chainOf h.index tip htip
  have hidx := mem_chainOf_indexed h.index (mem_of_getLast? hlast)
  rw [hashes, getLast?_map, hlast, map_some, h.root hidx hr]

/-! ## A call of SetBestChain -/

/-- The postponed blocks can all be attached, whenever the reorganisation to the intermediate block
succeeds. -/
def Node.PostponedOk (env : Env) (n : Node) (w : World) (pindexNew : CBlockIndex) : Prop :=
  ∀ best n₁, w.txnBeginOk .setBestChain = true → n.chain.bestChain.head? = some best →
    n.txnBegin.reorganize env w (n.intermediate best pindexNew) = (n₁, .ok ()) →
    AttachAll env w (n.secondary best pindexNew) n₁

theorem AtTip.head_bestChain (h : AtTip s tip) : s.bestChain.head? = some tip := by
  obtain ⟨_, hbelow⟩ := chainOf_head h.indexed
  rw [h.bestChain_eq, hbelow, head?_cons]

/-- While postponed blocks are attached, the tip is the block below those that are left, of which
the last is the new block. -/
structure Attaching (n₀ : Node) (best pindexNew : CBlockIndex) (n : Node)
    (rest : List CBlockIndex) (tip : CBlockIndex) : Prop where
  memory : SameMemory n₀.chain n.chain
  tipAt : TipAt n.chain tip
  noBatch : n.chain.db.activeBatch = none
  linked : Linked n₀.chain best → Linked n.chain tip
  indexed : ∀ p ∈ rest, n₀.chain.mapBlockIndex.Indexed p
  chain : (tip :: rest).IsChain (fun p q => q.pprev = some p.hashBlock)
  last : (tip :: rest).getLast? = some pindexNew

theorem Attaching.setBestChainInner {pindex : CBlockIndex} {rest : List CBlockIndex}
    (wf : n₀.chain.mapBlockIndex.WellFormed)
    (h : Attaching n₀ best pindexNew n (pindex :: rest) tip)
    (hread : w.readBlock env pindex = some b)
    (hin : n.txnBegin.setBestChainInner env w b pindex = (n₁, outcome)) :
    (outcome = .returned true → Attaching n₀ best pindexNew n₁ rest pindex ∧
        Attached env w n.txnBegin n₁ b tip pindex) ∧
      (outcome ≠ .returned true → Attaching n₀ best pindexNew n₁ (pindex :: rest) tip ∧
        Untouched n.chain n₁.chain ∧ n₁.mempool = n.mempool) := by
  have hmap := h.memory.mapBlockIndex
  have hnew : n.chain.mapBlockIndex.Indexed pindex := by
    rw [hmap]
    exact h.indexed pindex mem_cons_self
  have hprev := (isChain_cons_cons.mp h.chain).1
  have hcases := setBestChainInner_cases (n := n.txnBegin) (hmap ▸ wf) rfl h.tipAt.indexed
    hnew hprev (World.readBlock_eq_some hread).2.2 hin
  constructor
  · rintro rfl
    rcases hcases with ⟨-, hatt⟩ | ⟨hne, -⟩
    · have hmem := hatt.memory
      refine ⟨⟨h.memory.trans { hmem with }, hatt.tipAt,
        hatt.noBatch, fun hl => hatt.linked (h.linked hl), ?_,
        (isChain_cons_cons.mp h.chain).2, ?_⟩, hatt⟩
      · intro p hp
        exact h.indexed p (mem_cons_of_mem pindex hp)
      · rw [← h.last]
        simp [getLast?_cons]
    · exact absurd rfl hne
  · intro hne
    rcases hcases with ⟨htrue, -⟩ | ⟨-, hun, hpool⟩
    · exact absurd htrue hne
    · have hun := hun.of_txnBegin
      exact ⟨⟨h.memory.trans hun.memory, h.tipAt.unmoved hun.toUnmoved, hun.noBatch,
        fun hl => (h.linked hl).unmoved hun.toUnmoved, h.indexed, h.chain, h.last⟩, hun, hpool⟩

section

variable {n2 : Node} {r : Option String} (hset : Settled env n) (htip : AtTip n.chain best)
  (hnew : n.chain.mapBlockIndex.Indexed pindexNew)
  (hreorg : n.txnBegin.reorganize env w (n.intermediate best pindexNew) = (n₁, .ok ()))
include hset htip hnew hreorg

theorem Attaching.start : Attaching n best pindexNew n₁ (n.secondary best pindexNew)
    (n.intermediate best pindexNew) ∧ Reorganized env w n.txnBegin n₁ best
    (n.intermediate best pindexNew) := by
  obtain ⟨hinter, hsec, hchain, hlast⟩ := secondary_chain best hset.index hnew
  rcases reorganize_cases (n := n.txnBegin) hset.index rfl htip.pindexBest hinter hreorg with
    ⟨-, hre⟩ | ⟨⟨e, he⟩, -⟩
  · have hmem := hre.memory
    exact ⟨⟨{ hmem with }, hre.tipAt, hre.noBatch, hre.linked,
      hsec, hchain, hlast⟩, hre⟩
  · cases he

theorem Attaching.of_reorganize
    (hfurther : connectFurther env w (n.secondary best pindexNew) n₁ = (n2, r)) : ∃ rest tip,
    Attaching n best pindexNew n2 rest tip ∧
    (rest = [] ↔ AttachAll env w (n.secondary best pindexNew) n₁) ∧ (rest = [] → r = none) := by
  have hstart := (Attaching.start hset htip hnew hreorg).1
  obtain ⟨rest, ⟨tip, hat⟩, hall, hnone⟩ := connectFurther_induct
    (fun n' rest => ∃ tip, Attaching n best pindexNew n' rest tip)
    (fun n' n'' pindex rest b ⟨tip, hat⟩ hread hin =>
      ⟨pindex, ((hat.setBestChainInner hset.index hread hin).1 rfl).1⟩)
    (fun n' n'' pindex rest b outcome ⟨tip, hat⟩ hread hin hne =>
      ⟨tip, ((hat.setBestChainInner hset.index hread hin).2 hne).1⟩)
    _ _ _ _ ⟨_, hstart⟩ hfurther
  exact ⟨rest, tip, hat, hall, hnone⟩

end

theorem Attaching.nHeight_lt {m : BlockMap} (wf : m.WellFormed) {last : CBlockIndex}
    {rest : List CBlockIndex} (hne : rest ≠ []) (htip : m.Indexed tip) (htop : m.Indexed last)
    (hidx : ∀ p ∈ rest, m.Indexed p)
    (hchain : (tip :: rest).IsChain (fun p q => q.pprev = some p.hashBlock))
    (hlast : (tip :: rest).getLast? = some last) : tip.nHeight < last.nHeight := by
  obtain ⟨p, rest, rfl⟩ := exists_cons_of_ne_nil hne
  obtain ⟨hpprev, hrest⟩ := isChain_cons_cons.mp hchain
  obtain ⟨hp, hidx⟩ := forall_mem_cons.mp hidx
  obtain ⟨_, hpb, hheight⟩ := wf.pprev_some hp hpprev
  cases htip.symm.trans hpb
  have hup := (chainOf_getLast wf rest p hidx hrest (by simpa using hlast)).subset
    (mem_chainOf_self hp)
  rw [chainOf_eq htop] at hup
  have hle := rank_le_of_mem_chainFrom wf.ranked htop hup
  omega

theorem Unset.setBestChain_cases (hset : Settled env n) (hunset : Unset n.chain)
    (hfor : BlockFor env n.chain.mapBlockIndex b pindexNew)
    (h : n.setBestChain env w b pindexNew = (n', outcome)) :
    n'.mempool = n.mempool ∧ (Untouched n.chain n'.chain ∨
      pindexNew.pprev = none ∧ AtTip n'.chain pindexNew ∧
        n'.chain.pindexGenesisBlock = some pindexNew.hashBlock ∧
        n'.chain.mapBlockIndex = n.chain.mapBlockIndex ∧ n'.chain.pnext = n.chain.pnext ∧
        (∀ k, k ≠ .hashBestChain →
          n'.chain.db.committed.lookup k = n.chain.db.committed.lookup k) ∧
        n'.chain.db.activeBatch = none) := by
  have hroot := hunset.roots hfor.indexed
  have hhash : pindexNew.hashBlock = env.hashGenesisBlock := hset.root hfor.indexed hroot
  unfold setBestChain at h
  simp only [hfor.hash] at h
  split at h
  · cases h
    exact ⟨rfl, .inl (Untouched.refl hset.noBatch)⟩
  rw [if_pos ⟨hunset.pindexGenesisBlock, hhash⟩] at h
  by_cases hcommit : w.txnCommitOk .genesis = true
  · rw [setBestGenesis_committed hcommit] at h
    cases h
    refine ⟨rfl, .inr ⟨hroot, AtTip.newBest ⟨hfor.indexed, ?_⟩ (by simp), rfl, rfl, rfl, ?_,
      rfl⟩⟩
    · exact CTxDB.committedBest_commit _ _
    · intro k hk
      exact (lookup_txnCommit _ k).trans ((read_put_of_ne _ _ hk).trans (read_txnBegin _ k))
  · rw [setBestGenesis_aborted hcommit] at h
    cases h
    exact ⟨rfl, .inl (.of_memory ⟨rfl, rfl, rfl, rfl, rfl, rfl⟩ rfl rfl fun _ _ => rfl)⟩

theorem AtTip.setBestChain_moves (hsync : InSync env n) (htip : AtTip n.chain best)
    (hfor : BlockFor env n.chain.mapBlockIndex b pindexNew) (hok : n.PostponedOk env w pindexNew)
    (h : n.setBestChain env w b pindexNew = (n', outcome)) :
    (outcome ≠ .returned true ∧ Unmoved n.chain n'.chain) ∨
      (outcome = .returned true ∧ InSync env n' ∧ AtTip n'.chain pindexNew ∧
        n'.chain.pindexGenesisBlock = n.chain.pindexGenesisBlock) := by
  have hmoved : ∀ {n2 : Node}, SameMemory n.chain n2.chain → TipAt n2.chain pindexNew →
      n2.chain.db.activeBatch = none → (Linked n.chain best → Linked n2.chain pindexNew) →
      InSync env (n2.newBest pindexNew.hashBlock pindexNew) ∧
        AtTip (n2.newBest pindexNew.hashBlock pindexNew).chain pindexNew ∧
        n2.chain.pindexGenesisBlock = n.chain.pindexGenesisBlock := by
    intro n2 hmem htip2 hbatch hlinked
    have hgenesis : n2.chain.pindexGenesisBlock ≠ none := by
      rw [hmem.pindexGenesisBlock]
      exact htip.pindexGenesisBlock
    have hnew := AtTip.newBest htip2 hgenesis
    exact ⟨⟨⟨hmem.mapBlockIndex ▸ hsync.index, hmem.mapBlockIndex ▸ hsync.root, hbatch,
      .inr ⟨pindexNew, hnew⟩⟩, hlinked (hsync.linked htip)⟩, hnew,
      hmem.pindexGenesisBlock⟩
  rcases setBestChain_cases hsync.index hsync.noBatch htip.indexed htip.pindexBest
      htip.hashBestChain htip.pindexGenesisBlock hfor h with
    ⟨hne, hun, -⟩ | ⟨hout, hprev, n₁, hin, rfl⟩ | ⟨n₁, n2, r, hbegin, -, hreorg, hfurther, -, hnone⟩
  · exact .inl ⟨hne, hun.toUnmoved⟩
  · rcases setBestChainInner_cases (n := n.txnBegin) hsync.index rfl htip.indexed
        hfor.indexed hprev hfor.hash hin with ⟨-, hatt⟩ | ⟨hne, -⟩
    · have hmem := hatt.memory
      exact .inr ⟨hout, hmoved { hmem with } hatt.tipAt
        hatt.noBatch hatt.linked⟩
    · exact absurd rfl hne
  · obtain ⟨_, tip, hat, hall, hend⟩ :=
      Attaching.of_reorganize hsync.toSettled htip hfor.indexed hreorg hfurther
    obtain rfl := hall.mpr (hok best n₁ hbegin htip.head_bestChain hreorg)
    obtain rfl : tip = pindexNew := by simpa using hat.last
    obtain ⟨rfl, hout⟩ := hnone (hend rfl)
    exact .inr ⟨hout, hmoved hat.memory hat.tipAt hat.noBatch hat.linked⟩

theorem InSync.setBestChain (hsync : InSync env n)
    (hfor : BlockFor env n.chain.mapBlockIndex b pindexNew) (hok : n.PostponedOk env w pindexNew)
    (h : n.setBestChain env w b pindexNew = (n', outcome)) : InSync env n' := by
  rcases hsync.best with hunset | ⟨best, htip⟩
  · obtain ⟨-, hun | ⟨hroot, htip, -, hmap, hpnext, -, hbatch⟩⟩ :=
      hunset.setBestChain_cases hsync.toSettled hfor h
    · exact hsync.unmoved hun.toUnmoved
    · refine ⟨⟨hmap ▸ hsync.index, hmap ▸ hsync.root, hbatch, .inr ⟨pindexNew, htip⟩⟩, ?_⟩
      rw [hpnext, hsync.links, hunset.bestChain_eq, htip.bestChain_eq, hmap,
        chainOf_root hsync.index hfor.indexed hroot]
      rfl
  · rcases htip.setBestChain_moves hsync hfor hok h with ⟨-, hun⟩ | ⟨-, hsync', -⟩
    · exact hsync.unmoved hun
    · exact hsync'

theorem Node.postponedOk_of_child
    (hsync : InSync env n) (hfor : BlockFor env n.chain.mapBlockIndex b pindexNew)
    (hprev : b.hashPrevBlock = n.chain.hashBestChain) : n.PostponedOk env w pindexNew := by
  intro best n₁ _ hhead _
  rcases hsync.best with hunset | ⟨tip, htip⟩
  · rw [hunset.bestChain_eq] at hhead
    cases hhead
  · obtain rfl : best = tip := some.inj (hhead.symm.trans htip.head_bestChain)
    obtain ⟨_, hbelow⟩ := chainOf_head htip.indexed
    have hpprev : pindexNew.pprev = some best.hashBlock := by
      rw [hfor.pprev, hprev, htip.hashBestChain, htip.indexed]
      rfl
    unfold secondary
    rw [chainOf_pprev hsync.index hfor.indexed hpprev, hbelow, postponed, if_neg (by simp)]
    trivial

/-- **The exact condition.** A call that returns leaves a node in sync if and only if the postponed
blocks could all be attached. -/
theorem setBestChain_inSync_iff {ok : Bool}
    (hsync : InSync env n) (hfor : BlockFor env n.chain.mapBlockIndex b pindexNew)
    (h : n.setBestChain env w b pindexNew = (n', .returned ok)) :
    InSync env n' ↔ n.PostponedOk env w pindexNew := by
  refine ⟨?_, fun hok => hsync.setBestChain hfor hok h⟩
  intro hsync' best n₁ hbegin hhead hreorg
  rcases hsync.best with hunset | ⟨tip0, htip⟩
  · rw [hunset.bestChain_eq] at hhead
    cases hhead
  obtain rfl : best = tip0 := some.inj (hhead.symm.trans htip.head_bestChain)
  unfold setBestChain at h
  simp only [hfor.hash, hbegin] at h
  rw [if_neg (by simp), if_neg (fun hgen => htip.pindexGenesisBlock hgen.1)] at h
  split at h
  next hprev => exact postponedOk_of_child hsync hfor hprev best n₁ hbegin hhead hreorg
  rcases setBestByReorganize_cases (n := n.txnBegin) hhead h with
    ⟨-, n1', e, hreorg', -⟩ | ⟨n1', n2, r, hreorg', hfurther, hsome, hnone⟩
  · cases hreorg.symm.trans hreorg'
  cases hreorg.symm.trans hreorg'
  cases r with
  | some message => cases (hsome message rfl).2
  | none =>
    obtain ⟨rest, tip, hat, hall, -⟩ :=
      Attaching.of_reorganize hsync.toSettled htip hfor.indexed hreorg hfurther
    refine hall.mp ?_
    by_contra hrest
    -- memory names the new block, the database one that is lower
    rw [(hnone rfl).1] at hsync'
    have hlow : tip.nHeight < pindexNew.nHeight := by
      refine Attaching.nHeight_lt hsync.index hrest ?_ hfor.indexed hat.indexed hat.chain hat.last
      rw [← hat.memory.mapBlockIndex]
      exact hat.tipAt.indexed
    rcases hsync'.best with hunset | ⟨tip', htip'⟩
    · cases hunset.pindexBest
    have hmem : pindexNew.hashBlock = tip'.hashBlock := htip'.hashBestChain
    have hdb : some tip.hashBlock = some tip'.hashBlock :=
      hat.tipAt.committed.symm.trans htip'.committed
    have hnewIdx : n2.chain.mapBlockIndex pindexNew.hashBlock = some pindexNew := by
      rw [hat.memory.mapBlockIndex]
      exact hfor.indexed
    have htipIdx : n2.chain.mapBlockIndex tip.hashBlock = some tip := hat.tipAt.indexed
    rw [hmem, ← some.inj hdb, htipIdx] at hnewIdx
    cases hnewIdx
    exact lt_irrefl _ hlow

/-! ## Adding a block to the index -/

theorem CTxDB.committedBest_writeBlockIndex (db : CTxDB) (e : CDiskBlockIndex) :
    CTxDB.committedBest (Store.txnCommit (CTxDB.writeBlockIndex (Store.txnBegin db) e))
      = db.committedBest := by
  have hput : Store.read (CTxDB.writeBlockIndex (Store.txnBegin db) e) .hashBestChain
      = Store.read (Store.txnBegin db) .hashBestChain := read_put_of_ne _ _ (by simp)
  exact (lookup_txnCommit _ _).trans (hput.trans (read_txnBegin db .hashBestChain))

theorem ChainState.indexBlock_frame (hbatch : s.db.activeBatch = none)
    (w : World) (pindexNew : CBlockIndex) :
    let s' := (s.indexBlock w pindexNew).1
    s'.mapBlockIndex = (s.insertIndex pindexNew).mapBlockIndex ∧
      s'.pnext = (s.insertIndex pindexNew).pnext ∧
      s'.pindexGenesisBlock = s.pindexGenesisBlock ∧ s'.pindexBest = s.pindexBest ∧
      s'.hashBestChain = s.hashBestChain ∧ s'.nBestHeight = s.nBestHeight ∧
      s'.nBestChainTrust = s.nBestChainTrust ∧ s'.db.committedBest = s.db.committedBest ∧
      s'.db.activeBatch = none := by
  unfold indexBlock
  split
  · exact ⟨rfl, rfl, rfl, rfl, rfl, rfl, rfl, rfl, hbatch⟩
  · split
    · exact ⟨rfl, rfl, rfl, rfl, rfl, rfl, rfl, CTxDB.committedBest_writeBlockIndex _ _, rfl⟩
    · exact ⟨rfl, rfl, rfl, rfl, rfl, rfl, rfl, rfl, rfl⟩

/-- The two callers of `AddToBlockIndex`: `AcceptBlock`, after the genesis block has become the best
block, and `LoadBlockIndex`, which creates the genesis block. -/
def IndexCaller (s : ChainState) (b : CBlock) : Prop :=
  ((s.mapBlockIndex b.hashPrevBlock).isSome = true ∧ s.pindexBest.isSome = true) ∨
    ∀ h, s.mapBlockIndex h = none

variable {h : Uint256}

theorem ChainState.indexBlock_keeps
    (hbatch : s.db.activeBatch = none) (hnone : s.mapBlockIndex pindexNew.hashBlock = none)
    (w : World) (hp : s.mapBlockIndex h = some p) :
    (s.indexBlock w pindexNew).1.mapBlockIndex h = some p := by
  obtain ⟨hmap, -⟩ := indexBlock_frame hbatch w pindexNew
  refine (congrFun hmap h).trans ((update_of_ne ?_ _ _).trans hp)
  rintro rfl
  rw [hnone] at hp
  cases hp

section

variable (hbatch : s.db.activeBatch = none) (hnone : s.mapBlockIndex pindexNew.hashBlock = none)
include hbatch hnone

theorem MemoryTip.indexBlock (htip : MemoryTip s tip) (w : World) :
    MemoryTip (s.indexBlock w pindexNew).1 tip := by
  obtain ⟨-, -, hgen, hbest, hhash, hheight, -⟩ := indexBlock_frame hbatch w pindexNew
  exact ⟨indexBlock_keeps hbatch hnone w htip.indexed, hgen ▸ htip.pindexGenesisBlock,
    hbest.trans htip.pindexBest, hhash.trans htip.hashBestChain, hheight.trans htip.nBestHeight⟩

theorem AtTip.indexBlock (htip : AtTip s tip) (w : World) :
    AtTip (s.indexBlock w pindexNew).1 tip := by
  obtain ⟨-, -, -, -, -, -, htrust, hcommitted, -⟩ := indexBlock_frame hbatch w pindexNew
  have hmemory := htip.toMemoryTip.indexBlock hbatch hnone w
  exact { hmemory with
    committed := hcommitted.trans htip.committed
    nBestChainTrust := htrust.trans htip.nBestChainTrust }

end

theorem ChainState.wellFormed_insertIndex (wf : s.mapBlockIndex.WellFormed)
    (hnew : s.newBlockIndex env b nFile nBlockPos hashProofOfStake = .ok pindexNew) :
    (s.insertIndex pindexNew).mapBlockIndex.WellFormed := by
  obtain ⟨-, hnone, hpprev, hheight, -⟩ := newBlockIndex_ok hnew
  refine wf.insert hnone ?_ ?_
  · intro p hp
    rw [hpprev] at hp
    obtain ⟨pb, hpb, rfl⟩ := map_eq_some_iff.mp hp
    exact ⟨pb, hpb, by rw [hheight, hpb]; rfl⟩
  intro hp
  rw [hpprev, map_eq_none_iff] at hp
  rw [hheight, hp]
  rfl

theorem ChainState.indexBlock_entry (hbatch : s.db.activeBatch = none)
    (w : World) (pindexNew : CBlockIndex)
    (hp : (s.indexBlock w pindexNew).1.mapBlockIndex h = some p) :
    (h = pindexNew.hashBlock ∧ p = pindexNew) ∨ s.mapBlockIndex h = some p := by
  rw [(indexBlock_frame hbatch w pindexNew).1] at hp
  obtain ⟨hh, ⟨⟩⟩ | ⟨-, hp⟩ := update_eq_some hp
  · exact .inl ⟨hh, rfl⟩
  · exact .inr hp

theorem ChainState.indexBlock_root (hbatch : s.db.activeBatch = none)
    (hroot : ∀ {h p}, s.mapBlockIndex h = some p → p.pprev = none → h = env.hashGenesisBlock)
    (hnew : s.newBlockIndex env b nFile nBlockPos hashProofOfStake = .ok pindexNew) (w : World)
    (hp : (s.indexBlock w pindexNew).1.mapBlockIndex h = some p) (hpp : p.pprev = none) :
    h = env.hashGenesisBlock := by
  obtain ⟨-, -, hpprev, -, hparent⟩ := newBlockIndex_ok hnew
  rcases indexBlock_entry hbatch w pindexNew hp with ⟨rfl, rfl⟩ | hp
  · rcases hparent with hsome | hgenesis
    · rw [hpprev, map_eq_none_iff] at hpp
      rw [hpp] at hsome
      cases hsome
    · exact hgenesis
  · exact hroot hp hpp

section

variable (hsync : InSync env n)
    (hnew : n.chain.newBlockIndex env b nFile nBlockPos hashProofOfStake = .ok pindexNew)
include hsync hnew

theorem InSync.bestChain_indexBlock
    (w : World) : (n.chain.indexBlock w pindexNew).1.bestChain = n.chain.bestChain := by
  obtain ⟨-, hnone, -⟩ := newBlockIndex_ok hnew
  obtain ⟨hmap, -, -, hbest, -⟩ := indexBlock_frame hsync.noBatch w pindexNew
  rcases hsync.best with hunset | ⟨_, htip⟩
  · rw [hunset.bestChain_eq, bestChain, hbest, hunset.pindexBest]
  rw [htip.bestChain_eq, (htip.indexBlock hsync.noBatch hnone w).bestChain_eq]
  refine chainOf_mono hsync.index ?_ (indexBlock_keeps hsync.noBatch hnone w) htip.indexed
  rw [hmap]
  exact wellFormed_insertIndex hsync.index hnew

theorem InSync.indexBlock (hcaller : IndexCaller n.chain b) (w : World) :
    InSync env (n.entered w pindexNew) := by
  obtain ⟨-, hnone, hpprev, -, -⟩ := newBlockIndex_ok hnew
  obtain ⟨hmap, hpnext, hgen, hbest, -, -, -, hcommitted, hbatch⟩ :=
    indexBlock_frame hsync.noBatch w pindexNew
  have wf : (n.chain.indexBlock w pindexNew).1.mapBlockIndex.WellFormed := by
    rw [hmap]
    exact wellFormed_insertIndex hsync.index hnew
  refine ⟨⟨wf, indexBlock_root hsync.noBatch hsync.root hnew w, hbatch, ?_⟩, ?_⟩
  · rcases hsync.best with hunset | ⟨tip, htip⟩
    · refine .inl ⟨hbest.trans hunset.pindexBest, hgen.trans hunset.pindexGenesisBlock,
        hcommitted.trans hunset.committed, ?_⟩
      intro h p hp
      rcases indexBlock_entry hsync.noBatch w pindexNew hp with ⟨rfl, rfl⟩ | hp
      · rcases hcaller with ⟨-, hsome⟩ | hempty
        · rw [hunset.pindexBest] at hsome
          cases hsome
        · rw [hpprev, hempty]
          rfl
      · exact hunset.roots hp
    · exact .inr ⟨tip, htip.indexBlock hsync.noBatch hnone w⟩
  · -- the best chain is the same, and the new entry is not on it
    rw [hpnext, hsync.bestChain_indexBlock hnew w]
    funext h
    by_cases hh : h = pindexNew.hashBlock
    · subst hh
      refine (update_self _ _ _).trans (nextIn_eq_none ?_).symm
      intro hmem
      obtain ⟨p, hp, hpeq⟩ := mem_map.mp (mem_of_mem_tail hmem)
      have hidx := hsync.indexed_of_mem hp
      rw [Indexed, hpeq, hnone] at hidx
      cases hidx
    · exact (update_of_ne hh _ _).trans (congrFun hsync.links h)

end

/-! ## Runs -/

/-- The steps of a node: a block is added to the index, `SetBestChain` is called under the condition
`ok`, or something happens that does not concern the best chain. -/
inductive Step (env : Env) (ok : Node → World → CBlockIndex → Prop) : Node → Node → Prop
  | index {n : Node} {b : CBlock} {nFile nBlockPos : Nat} {hashProofOfStake : Uint256}
      {pindexNew : CBlockIndex} (w : World)
      (hnew : n.chain.newBlockIndex env b nFile nBlockPos hashProofOfStake = .ok pindexNew)
      (hcaller : IndexCaller n.chain b) : Step env ok n (n.entered w pindexNew)
  | setBest {n : Node} {b : CBlock} {pindexNew : CBlockIndex} (w : World)
      (hfor : BlockFor env n.chain.mapBlockIndex b pindexNew) (hok : ok n w pindexNew) :
      Step env ok n (n.setBestChain env w b pindexNew).1
  | other {n n' : Node} (h : Unmoved n.chain n'.chain) : Step env ok n n'

abbrev Run (env : Env) (ok : Node → World → CBlockIndex → Prop) : Node → Node → Prop :=
  Relation.ReflTransGen (Step env ok)

theorem InSync.step (hsync : InSync env n)
    (h : Step env (PostponedOk env) n n') : InSync env n' := by
  cases h with
  | index w hnew hcaller => exact hsync.indexBlock hnew hcaller w
  | setBest w hfor hok => exact hsync.setBestChain hfor hok rfl
  | other h => exact hsync.unmoved h

theorem InSync.run (h0 : InSync env n₀) (hrun : Run env (PostponedOk env) n₀ n) : InSync env n := by
  induction hrun with
  | refl => exact h0
  | tail _ hstep ih => exact ih.step hstep

/-- The best block in memory, the committed record and the forward links all name the chain from
the genesis block to `tip`. -/
structure Agrees (env : Env) (s : ChainState) (tip : CBlockIndex) : Prop where
  indexed : s.mapBlockIndex.Indexed tip
  hashBestChain : s.hashBestChain = tip.hashBlock
  pindexBest : s.pindexBest = some tip.hashBlock
  nBestHeight : s.nBestHeight = tip.nHeight
  nBestChainTrust : s.nBestChainTrust = tip.nChainTrust
  committed : s.db.committedBest = some tip.hashBlock
  genesis : (s.mapBlockIndex.hashes tip.hashBlock).getLast? = some env.hashGenesisBlock
  pnext : s.pnext = nextIn (s.mapBlockIndex.hashes tip.hashBlock)
  isInMainChain : ∀ h, s.isInMainChain h = true ↔ h ∈ s.mapBlockIndex.hashes tip.hashBlock

/-- **Best-chain agreement.** In a run whose calls of `SetBestChain` can attach the blocks they
postpone, memory, database and links agree in every state. -/
theorem bestChain_agrees {n₀ n : Node} (h₀ : InSync env n₀)
    (hrun : Run env (Node.PostponedOk env) n₀ n) :
    (n.chain.pindexBest = none ∧ n.chain.db.committedBest = none ∧ n.chain.pnext = fun _ => none) ∨
      ∃ tip, Agrees env n.chain tip := by
  have hsync := h₀.run hrun
  rcases hsync.best with hunset | ⟨tip, htip⟩
  · refine .inl ⟨hunset.pindexBest, hunset.committed, ?_⟩
    rw [hsync.links, hunset.bestChain_eq]
    rfl
  · exact .inr ⟨tip, htip.indexed, htip.hashBestChain, htip.pindexBest, htip.nBestHeight,
      htip.nBestChainTrust, htip.committed, hsync.getLast_hashes tip htip.indexed,
      hsync.linked htip, htip.isInMainChain_iff (hsync.linked htip)⟩

theorem Node.addToBlockIndex_run {ok : Node → World → CBlockIndex → Prop}
    (hbatch : n.chain.db.activeBatch = none) (hcaller : IndexCaller n.chain b)
    (hprev : b.hashPrevBlock ≠ env.scryptBlockhash b.toCBlockHeader) (hok : ∀ pindexNew,
      Step env ok n (n.entered w pindexNew) →
      BlockFor env (n.chain.indexBlock w pindexNew).1.mapBlockIndex b pindexNew →
      ok (n.entered w pindexNew) w pindexNew) :
    Run env ok n (n.addToBlockIndex env w b nFile nBlockPos hashProofOfStake).1 := by
  refine addToBlockIndex_induct (fun r => Run env ok n r.1) (fun _ _ => .refl)
    (fun _ _ hnew => .single (Step.index w hnew hcaller)) fun pindexNew hnew => ?_
  have hindex : Step env ok n (n.entered w pindexNew) := Step.index w hnew hcaller
  obtain ⟨hhash, -, hpprev, -⟩ := newBlockIndex_ok hnew
  have hfor : BlockFor env (n.chain.indexBlock w pindexNew).1.mapBlockIndex b pindexNew := by
    have hmap := (indexBlock_frame hbatch w pindexNew).1
    refine ⟨(congrFun hmap _).trans (update_self _ _ _), hhash, ?_⟩
    rw [hpprev]
    congr 1
    exact ((congrFun hmap _).trans (update_of_ne (hhash ▸ hprev) _ _)).symm
  exact .tail (.single hindex) (Step.setBest w hfor (hok pindexNew hindex hfor))

/-! ## An unreadable postponed block -/

def emptyNode (env : Env) : Node where
  chain := { ChainState.initial with hashSyncCheckpoint := env.hashGenesisBlock }
  mempool := CTxMemPool.empty

theorem inSync_emptyNode (env : Env) : InSync env (emptyNode env) where
  index := by
    constructor
    · intro _ _ h
      cases h
    · intro _ _ _ h
      cases h
    · intro _ _ h
      cases h
  root := by
    intro _ _ h
    cases h
  noBatch := rfl
  best := by
    refine .inl ⟨rfl, rfl, rfl, ?_⟩
    intro _ _ h
    cases h
  links := rfl

def minedBlocks : List CBlock :=
  [minedBlock 1 0 0, minedBlock 2 1 1, minedBlock 3 2 2, minedBlock 4 1 1, minedBlock 5 4 2]

def minedWorld (hash : Uint256) : World :=
  { sampleWorld minedBlocks with
    nAdjustedTime := sampleTime + 600
    writeToDisk := some (1, 1000 * hash) }

def genesisNode : Node :=
  ((emptyNode sampleEnv).addToBlockIndex sampleEnv (minedWorld 1) (minedBlock 1 0 0) 1 1000 0).1

def commitFailed : Node × Except Fail Unit :=
  let w := { minedWorld 2 with txnCommitOk := fun site => site != .inner 2 }
  genesisNode.acceptBlock sampleEnv w w (minedBlock 2 1 1)

/-- Block 3 arrives and cannot be read back after block 2 has been connected. -/
def readFailed : Node × Except Fail Unit :=
  let w := { minedWorld 3 with blockReadOk := fun hash => hash != 3 }
  commitFailed.1.acceptBlock sampleEnv w w (minedBlock 3 2 2)

/-- The call succeeds and declares block 3 the best block; the database and the links have stopped
at block 2. -/
theorem postponed_block_unreadable :
    readFailed.2 = .ok () ∧ readFailed.1.chain.hashBestChain = 3 ∧
      readFailed.1.chain.pindexBest = some 3 ∧ readFailed.1.chain.db.committedBest = some 2 ∧
      readFailed.1.chain.pnext 1 = some 2 ∧ readFailed.1.chain.pnext 2 = none ∧
      ∀ tip, ¬ Agrees sampleEnv readFailed.1.chain tip := by
  have hbest : readFailed.1.chain.hashBestChain = 3 := by decide +kernel
  have hcommitted : readFailed.1.chain.db.committedBest = some 2 := by decide +kernel
  refine ⟨by rfl, hbest, by decide +kernel, hcommitted, by decide +kernel, by decide +kernel, ?_⟩
  intro tip h
  have hmemory := hbest.symm.trans h.hashBestChain
  have hdisk := Option.some.inj (hcommitted.symm.trans h.committed)
  rw [← hdisk] at hmemory
  cases hmemory

def twoBlocks : Node :=
  (genesisNode.addToBlockIndex sampleEnv (minedWorld 2) (minedBlock 2 1 1) 1 2000 0).1

theorem genesisNode_run :
    Run sampleEnv (PostponedOk sampleEnv) (emptyNode sampleEnv) genesisNode := by
  refine addToBlockIndex_run rfl (.inr fun _ => rfl) (by decide) ?_
  intro pindexNew _ _ best n₁ _ hhead
  cases hhead

theorem twoBlocks_run : Run sampleEnv (PostponedOk sampleEnv) (emptyNode sampleEnv) twoBlocks := by
  have hsync := (inSync_emptyNode sampleEnv).run genesisNode_run
  refine genesisNode_run.trans (addToBlockIndex_run hsync.noBatch
    (.inl ⟨by decide +kernel, by decide +kernel⟩) (by decide) ?_)
  intro pindexNew hstep hfor
  refine postponedOk_of_child (hsync.step hstep) hfor ?_
  rw [(indexBlock_frame hsync.noBatch (minedWorld 2) pindexNew).2.2.2.2.1]
  decide +kernel

theorem bestChain_agrees_two_blocks :
    InSync sampleEnv (emptyNode sampleEnv) ∧
      Run sampleEnv (Node.PostponedOk sampleEnv) (emptyNode sampleEnv) twoBlocks ∧
      twoBlocks.chain.hashBestChain = 2 ∧
      ((twoBlocks.chain.pindexBest = none ∧ twoBlocks.chain.db.committedBest = none ∧
          twoBlocks.chain.pnext = fun _ => none) ∨
        ∃ tip, Agrees sampleEnv twoBlocks.chain tip) :=
  ⟨inSync_emptyNode sampleEnv, twoBlocks_run, by decide +kernel,
    bestChain_agrees (inSync_emptyNode sampleEnv) twoBlocks_run⟩

/-! ## Two branches -/

def Node.newEntry (n : Node) (b : CBlock) : CBlockIndex :=
  (n.chain.newBlockIndex sampleEnv b 1 (1000 * b.nNonce) 0).toOption.getD default

/-- A block of the sample files is put into the index and stays off the main chain. -/
def Node.indexed (n : Node) (b : CBlock) : Node :=
  n.entered (minedWorld b.nNonce) (n.newEntry b)

theorem InSync.indexed (hsync : InSync sampleEnv n)
    (hok : (n.chain.newBlockIndex sampleEnv b 1 (1000 * b.nNonce) 0).isOk = true)
    (hcaller : IndexCaller n.chain b) : InSync sampleEnv (n.indexed b) := by
  have hnew : n.chain.newBlockIndex sampleEnv b 1 (1000 * b.nNonce) 0 = .ok (n.newEntry b) := by
    unfold newEntry
    cases h : n.chain.newBlockIndex sampleEnv b 1 (1000 * b.nNonce) 0 with
    | ok pindexNew => rfl
    | error e =>
      rw [h] at hok
      cases hok
  exact hsync.indexBlock hnew hcaller _

/-- Block 2 is the best block; blocks 4 and 5 are a branch of their own on block 1. -/
def twoBranches : Node := (twoBlocks.indexed (minedBlock 4 1 1)).indexed (minedBlock 5 4 2)

theorem inSync_twoBranches : InSync sampleEnv twoBranches := by
  have hsync := (inSync_emptyNode sampleEnv).run twoBlocks_run
  exact (hsync.indexed (by decide +kernel) (.inl ⟨by decide +kernel, by decide +kernel⟩)).indexed
    (by decide +kernel) (.inl ⟨by decide +kernel, by decide +kernel⟩)

def ChainState.entry (s : ChainState) (h : Uint256) : CBlockIndex :=
  (s.mapBlockIndex h).getD default

end HoboNickels

import HoboNickels.Agreement

/-!
# Finding blocks on the main chain

`Reorganize` looks for the fork of two branches; `CheckSync` asks whether a block descends from the
synchronized checkpoint, and does not walk back if both are on the main chain; `FindBlockByHeight`
walks along the main chain, perhaps from the block it has found last; and a block locator names
blocks, ever further back, for another node to find on its main chain.
-/

namespace HoboNickels

open ParentChain List BlockMap ChainState Option

variable {env : Env} {w : World} {n : Node} {s : ChainState} {m : BlockMap}
  {tip best pindexNew pindexPrev : CBlockIndex}

/-- What `Reorganize` finds: the lowest common ancestor, and the paths from it to both blocks. -/
structure ForkFound (env : Env) (w : World) (n : Node) (best pindexNew pfork : CBlockIndex)
    (vDisconnect vConnect : List CBlockIndex) : Prop where
  search : findFork n.chain.bestChain (n.chain.mapBlockIndex.chainOf pindexNew.hashBlock)
    = some pfork
  indexed : n.chain.mapBlockIndex.Indexed pfork
  common : ∀ x, x ∈ n.chain.mapBlockIndex.chainOf pfork.hashBlock ↔
    x ∈ n.chain.mapBlockIndex.chainOf best.hashBlock ∧
      x ∈ n.chain.mapBlockIndex.chainOf pindexNew.hashBlock
  disconnect : n.chain.mapBlockIndex.chainOf best.hashBlock
    = vDisconnect ++ n.chain.mapBlockIndex.chainOf pfork.hashBlock
  connect : n.chain.mapBlockIndex.chainOf pindexNew.hashBlock
    = vConnect.reverse ++ n.chain.mapBlockIndex.chainOf pfork.hashBlock
  switches : n.reorganize env w pindexNew = n.switchBranch env w pindexNew vDisconnect vConnect

/-- **Reorganisation finds the fork**, in every tree with one root. -/
theorem reorganize_finds_fork (env : Env) (w : World) (wf : n.chain.mapBlockIndex.WellFormed)
    (hroot : ∀ p q, n.chain.mapBlockIndex.Indexed p → n.chain.mapBlockIndex.Indexed q →
      p.pprev = none → q.pprev = none → p = q)
    (hbest : n.chain.pindexBest = some best.hashBlock)
    (hidx : n.chain.mapBlockIndex.Indexed best) (hnew : n.chain.mapBlockIndex.Indexed pindexNew) :
    ∃ pfork vDisconnect vConnect,
      ForkFound env w n best pindexNew pfork vDisconnect vConnect := by
  obtain ⟨pfork, hfork, hpf, hcommon⟩ := findFork_chainOf wf hroot hidx hnew
  obtain ⟨hold, hnewmem⟩ := (hcommon pfork).mp (mem_chainOf_self hpf)
  have hsearch : findFork n.chain.bestChain
      (n.chain.mapBlockIndex.chainOf pindexNew.hashBlock) = some pfork := by
    rw [bestChain, hbest]
    exact hfork
  refine ⟨pfork, aboveFork pfork n.chain.bestChain, (aboveFork pfork
    (n.chain.mapBlockIndex.chainOf pindexNew.hashBlock)).reverse, hsearch, hpf, hcommon, ?_, ?_, ?_⟩
  · rw [bestChain, hbest]
    exact chainOf_split wf hold
  · rw [reverse_reverse]
    exact chainOf_split wf hnewmem
  · simp only [Node.reorganize, hsearch]

theorem reorganize_finds_fork_branches : twoBranches.chain.pindexBest = some 2 ∧
    ∃ pfork vDisconnect vConnect, pfork.hashBlock = 1 ∧
      ForkFound sampleEnv (minedWorld 5) twoBranches (twoBranches.chain.entry 2)
        (twoBranches.chain.entry 5) pfork vDisconnect vConnect := by
  have hsync := inSync_twoBranches
  have hroot : ∀ p q, twoBranches.chain.mapBlockIndex.Indexed p →
      twoBranches.chain.mapBlockIndex.Indexed q → p.pprev = none → q.pprev = none → p = q := by
    intro p q hp hq hpp hqp
    rw [BlockMap.Indexed, hsync.root hp hpp] at hp
    rw [BlockMap.Indexed, hsync.root hq hqp, hp] at hq
    exact some.inj hq
  have hbest : twoBranches.chain.mapBlockIndex.Indexed (twoBranches.chain.entry 2) := by
    decide +kernel
  have hnew : twoBranches.chain.mapBlockIndex.Indexed (twoBranches.chain.entry 5) := by
    decide +kernel
  obtain ⟨pfork, vDisconnect, vConnect, hfound⟩ := reorganize_finds_fork sampleEnv (minedWorld 5)
    hsync.index hroot (by decide +kernel) hbest hnew
  have hfork : (findFork twoBranches.chain.bestChain (twoBranches.chain.mapBlockIndex.chainOf
      (twoBranches.chain.entry 5).hashBlock)).map CBlockIndex.hashBlock = some 1 := by
    decide +kernel
  rw [hfound.search] at hfork
  exact ⟨by decide +kernel, pfork, vDisconnect, vConnect, some.inj hfork, hfound⟩

/-! ## The synchronized checkpoint -/

theorem BlockMap.traceBack_eq (wf : m.WellFormed) {a : CBlockIndex} {h : Uint256}
    (ha : a ∈ m.chainOf h) : m.traceBack h a.nHeight = some a := by
  obtain ⟨above, _, hsplit⟩ := append_of_mem ha
  have hheights := pairwise_nHeight wf h
  rw [hsplit] at hheights
  have habove : ∀ p ∈ above, decide (p.nHeight > a.nHeight) = true := fun p hp =>
    decide_eq_true ((pairwise_append.mp hheights).2.2 p hp a mem_cons_self)
  rw [traceBack, hsplit, dropWhile_append_of_pos habove, dropWhile_cons_of_neg (by simp),
    head?_cons]

/-- `CheckSync` without the fast path. -/
def ChainState.checkSyncWalk (s : ChainState) (hashBlock : Uint256) (pindexPrev : CBlockIndex) :
    Option Bool :=
  match s.mapBlockIndex s.hashSyncCheckpoint with
  | none => none
  | some pindexSync =>
    let nHeight := pindexPrev.nHeight + 1
    let descends := match s.mapBlockIndex.traceBack pindexPrev.hashBlock pindexSync.nHeight with
      | none => false
      | some p => !decide (p.nHeight < pindexSync.nHeight) && p.hashBlock == s.hashSyncCheckpoint
    some (!(decide (nHeight > pindexSync.nHeight) && !descends)
      && !(nHeight == pindexSync.nHeight && hashBlock != s.hashSyncCheckpoint)
      && !(decide (nHeight < pindexSync.nHeight) && (s.mapBlockIndex hashBlock).isNone))

/-- **The fast path of CheckSync changes nothing**: on the main chain there is one block a height.
-/
theorem checkSync_eq_walk (wf : s.mapBlockIndex.WellFormed) (htip : s.mapBlockIndex.Indexed tip)
    (hbest : s.pindexBest = some tip.hashBlock) (hlinked : Linked s tip)
    (hprev : s.mapBlockIndex.Indexed pindexPrev) (hashBlock : Uint256) :
    s.checkSync hashBlock pindexPrev = s.checkSyncWalk hashBlock pindexPrev := by
  unfold checkSync checkSyncWalk
  cases hsync : s.mapBlockIndex s.hashSyncCheckpoint with
  | none => rfl
  | some pindexSync =>
    by_cases hfast : (s.isInMainChain pindexSync.hashBlock
        && s.isInMainChain pindexPrev.hashBlock) = true ∧ pindexSync.nHeight ≤ pindexPrev.nHeight
    · obtain ⟨hmain, hle⟩ := hfast
      rw [Bool.and_eq_true, isInMainChain_iff htip hbest hlinked,
        isInMainChain_iff htip hbest hlinked, mem_hashes_iff wf,
        mem_hashes_iff wf] at hmain
      obtain ⟨⟨a, ha, hsyncMem⟩, b, hb, hprevMem⟩ := hmain
      obtain rfl := some.inj ((wf.indexed hsync).symm.trans ha)
      obtain rfl := some.inj (hprev.symm.trans hb)
      have htrace := traceBack_eq wf (mem_chainOf_of_nHeight_le wf hsyncMem hprevMem hle)
      simp [htrace, wf.keyed hsync]
    · by_cases hle : pindexSync.nHeight ≤ pindexPrev.nHeight
      · have hslow : (s.isInMainChain pindexSync.hashBlock
            && s.isInMainChain pindexPrev.hashBlock) = false := by simpa [hle] using hfast
        cases htrace : s.mapBlockIndex.traceBack pindexPrev.hashBlock pindexSync.nHeight with
        | none => simp [hslow, htrace]
        | some p => simp [hslow, htrace]
      · simp [show ¬ pindexSync.nHeight < pindexPrev.nHeight + 1 by omega]

theorem checkSync_eq_walk_twoBlocks : twoBlocks.chain.pindexBest = some 2 ∧
    twoBlocks.chain.checkSync 3 (twoBlocks.chain.entry 2)
      = twoBlocks.chain.checkSyncWalk 3 (twoBlocks.chain.entry 2) := by
  have hsync := (inSync_emptyNode sampleEnv).run twoBlocks_run
  have hbest : twoBlocks.chain.pindexBest = some (twoBlocks.chain.entry 2).hashBlock := by
    decide +kernel
  refine ⟨by decide +kernel, checkSync_eq_walk hsync.index (by decide +kernel) hbest ?_
    (by decide +kernel) 3⟩
  rw [Linked, hsync.links]
  rfl

/-! ## Block locators -/

/-- The loop of `CBlockLocator::Set` from a block down, with `nHave` entries in `vHave`. -/
def locatorFrom : Nat → Nat → Nat → List CBlockIndex → List Uint256
  | 0, _, _, _ => []
  | _ + 1, _, _, [] => []
  | fuel + 1, nStep, nHave, pindex :: rest =>
    pindex.hashBlock :: locatorFrom fuel (if nHave + 1 > 10 then nStep * 2 else nStep) (nHave + 1)
      ((pindex :: rest).drop nStep)

/-- `CBlockLocator::Set`, which ends with the genesis block. -/
def locatorSet (env : Env) (chain : List CBlockIndex) : List Uint256 :=
  locatorFrom chain.length 1 0 chain ++ [env.hashGenesisBlock]

namespace ChainState

def onMainChain (s : ChainState) (hash : Uint256) : Option CBlockIndex :=
  (s.mapBlockIndex hash).filter fun pindex => s.isInMainChain pindex.hashBlock

def getBlockIndex (s : ChainState) : List Uint256 → Option CBlockIndex
  | [] => s.pindexGenesisBlock.bind s.mapBlockIndex
  | hash :: vHave =>
    match s.onMainChain hash with
    | some pindex => some pindex
    | none => s.getBlockIndex vHave

def getDistanceBack (s : ChainState) : List Uint256 → Nat → Nat → Nat
  | [], nDistance, _ => nDistance
  | hash :: vHave, nDistance, nStep =>
    if (s.onMainChain hash).isSome then nDistance
    else s.getDistanceBack vHave (nDistance + nStep)
      (if nDistance + nStep > 10 then nStep * 2 else nStep)

end ChainState

/-- The receiver finds a block of `chain` at a distance between `d` and twice `d`, or the genesis
block `g`. -/
def FindsRecent (s : ChainState) (chain : List CBlockIndex) (d : Nat) (g : CBlockIndex)
    (vHave : List Uint256) (nDistance nStep : Nat) : Prop :=
  (∃ r pindex q, chain[r]? = some pindex ∧ s.onMainChain pindex.hashBlock = some q ∧
    s.getBlockIndex vHave = some q ∧ s.getDistanceBack vHave nDistance nStep = r ∧
    d ≤ r ∧ r ≤ 2 * d ∧ (d ≤ 11 → r = d)) ∨ s.getBlockIndex vHave = some g ∧ 11 < d

/-- Both sides step alike: by one up to distance 11, and from there by the distance less nine. -/
theorem findsRecent_from {chain : List CBlockIndex} {d : Nat} {g : CBlockIndex}
    (hgen : s.onMainChain env.hashGenesisBlock = some g) (hd : d < chain.length)
    (hshared : ∀ k pindex, chain[k]? = some pindex →
      ((s.onMainChain pindex.hashBlock).isSome ↔ d ≤ k)) (fuel : Nat) :
    ∀ nStep nHave nDistance, chain.length - nDistance ≤ fuel → nDistance ≤ 2 * d →
      (d ≤ 11 → nDistance ≤ d) → (nHave ≤ 10 ∧ nDistance = nHave ∧ nStep = 1 ∨
        11 ≤ nHave ∧ nDistance = nStep + 9 ∧ 2 ≤ nStep) →
      FindsRecent s chain d g (locatorFrom fuel nStep nHave (chain.drop nDistance) ++
        [env.hashGenesisBlock]) nDistance nStep := by
  -- past the end of the chain the appended entry answers
  have hend : ∀ nDistance, chain.length ≤ nDistance → (d ≤ 11 → nDistance ≤ d) → 11 < d ∧
      ∀ fuel nStep nHave, locatorFrom fuel nStep nHave (chain.drop nDistance) = [] := by
    intro nDistance hle hclose
    refine ⟨by omega, fun fuel nStep nHave => ?_⟩
    rw [drop_eq_nil_of_le hle]
    cases fuel <;> rfl
  induction fuel with
  | zero =>
    intro nStep nHave nDistance hfuel _ hclose _
    obtain ⟨hfar, hnil⟩ := hend nDistance (by omega) hclose
    rw [hnil]
    exact .inr ⟨by simp [getBlockIndex, hgen], hfar⟩
  | succ fuel ih =>
    intro nStep nHave nDistance hfuel htwice hclose hstep
    by_cases hlt : nDistance < chain.length
    · have hget := getElem?_eq_getElem hlt
      have hiff := hshared _ _ hget
      rw [drop_eq_getElem_cons hlt, locatorFrom]
      cases hfound : s.onMainChain chain[nDistance].hashBlock with
      | some q =>
        rw [hfound] at hiff
        have hle : d ≤ nDistance := hiff.mp rfl
        refine .inl ⟨nDistance, _, q, hget, hfound, ?_, ?_, hle, htwice, fun h => ?_⟩
        · simp [getBlockIndex, hfound]
        · simp [getDistanceBack, hfound]
        · exact le_antisymm (hclose h) hle
      | none =>
        rw [hfound] at hiff
        have hless : ¬ d ≤ nDistance := fun h => by simpa using hiff.mpr h
        have hnext := ih (if nHave + 1 > 10 then nStep * 2 else nStep) (nHave + 1)
          (nDistance + nStep) (by omega) (by omega) (by omega) (by split <;> omega)
        have hsame : (if nDistance + nStep > 10 then nStep * 2 else nStep)
            = if nHave + 1 > 10 then nStep * 2 else nStep := by
          split <;> split <;> omega
        simpa [FindsRecent, getBlockIndex, getDistanceBack, hfound, hsame] using hnext
    · obtain ⟨hfar, hnil⟩ := hend nDistance (by omega) hclose
      rw [hnil]
      exact .inr ⟨by simp [getBlockIndex, hgen], hfar⟩

/-- **Block locators find a recent common block.** The receiver has on its main chain the genesis
block, and of the sender's chain exactly the blocks at distance `d` or more. -/
theorem locator_finds_recent {p g : CBlockIndex} {d : Nat}
    (hroot : (m.hashes p.hashBlock).getLast? = some env.hashGenesisBlock)
    (hgen : s.onMainChain env.hashGenesisBlock = some g)
    (hshared : ∀ k pindex, (m.chainOf p.hashBlock)[k]? = some pindex →
      ((s.onMainChain pindex.hashBlock).isSome ↔ d ≤ k)) :
    FindsRecent s (m.chainOf p.hashBlock) d g (locatorSet env (m.chainOf p.hashBlock)) 0 1 := by
  rw [hashes, getLast?_map, map_eq_some_iff] at hroot
  obtain ⟨_, hlast, hhash⟩ := hroot
  have hpos := length_pos_of_mem (mem_of_getLast? hlast)
  rw [getLast?_eq_getElem?] at hlast
  have hd := (hshared _ _ hlast).mp (by rw [hhash, hgen]; rfl)
  exact findsRecent_from hgen (by omega) hshared _ 1 0 0 (by omega) (by omega) (by omega) (by omega)

theorem locator_finds_recent_genesis : (locatorSet sampleEnv
      (twoBlocks.chain.mapBlockIndex.chainOf 2) = [2, 1, 1]) ∧
    FindsRecent genesisNode.chain (twoBlocks.chain.mapBlockIndex.chainOf 2) 1
      (genesisNode.chain.entry 1)
      (locatorSet sampleEnv (twoBlocks.chain.mapBlockIndex.chainOf 2)) 0 1 := by
  refine ⟨by decide +kernel, locator_finds_recent (p := twoBlocks.chain.entry 2)
    (by decide +kernel) (by decide +kernel) ?_⟩
  intro k pindex hk
  rcases k with _ | _ | k
  · cases hk
    decide +kernel
  · cases hk
    decide +kernel
  · cases hk

/-! ## The block at a height -/

namespace ChainState

/-- The walk of `FindBlockByHeight` along `pnext`; `none` is the null pointer. -/
def walkUp (s : ChainState) (nHeight : Nat) : Nat → Option CBlockIndex → Option CBlockIndex
  | 0, pindex => pindex
  | _ + 1, none => none
  | fuel + 1, some pindex =>
    if pindex.nHeight < nHeight then
      s.walkUp nHeight fuel ((s.pnext pindex.hashBlock).bind s.mapBlockIndex)
    else some pindex

/-- `FindBlockByHeight`, with `last` for `pblockindexFBBHLast`. -/
def findBlockByHeight (s : ChainState) (last : Option Uint256) (nHeight : Nat) :
    Option CBlockIndex :=
  let near := if (nHeight : Int) < s.nBestHeight.tdiv 2 then s.pindexGenesisBlock
    else s.pindexBest
  match near.bind s.mapBlockIndex with
  | none => none
  | some pindex =>
    let start := match last.bind s.mapBlockIndex with
      | none => pindex
      | some pindexLast =>
        if ((nHeight : Int) - pindex.nHeight).natAbs > ((nHeight : Int) - pindexLast.nHeight).natAbs
        then pindexLast else pindex
    s.walkUp nHeight nHeight (s.mapBlockIndex.traceBack start.hashBlock nHeight)

end ChainState

/-- What the walks of `FindBlockByHeight` rely on: the genesis block and the block found last are
on the best chain. -/
structure LookupOk (env : Env) (n : Node) (last : Option Uint256) : Prop
    extends InSync env n where
  genesis : ∀ g, n.chain.pindexGenesisBlock = some g → g = env.hashGenesisBlock
  unset : n.chain.pindexBest = none → n.chain.nBestHeight < 0
  last : ∀ h, last = some h → ∃ p ∈ n.chain.bestChain, p.hashBlock = h

/-- The steps of a node with the block found last: `SetBestChain` forgets it when it declares a new
best block. -/
inductive LookupStep (env : Env) (ok : Node → World → CBlockIndex → Prop) :
    Node × Option Uint256 → Node × Option Uint256 → Prop
  | chain {n n' : Node} {last : Option Uint256} (h : Step env (fun _ _ _ => False) n n') :
      LookupStep env ok (n, last) (n', last)
  | setBest {n : Node} {last : Option Uint256} {b : CBlock} {pindexNew : CBlockIndex} (w : World)
      (hfor : BlockFor env n.chain.mapBlockIndex b pindexNew) (hok : ok n w pindexNew) :
      LookupStep env ok (n, last) ((n.setBestChain env w b pindexNew).1,
        if (n.setBestChain env w b pindexNew).2 = .returned true then none else last)
  | find {n : Node} {last : Option Uint256} {nHeight : Nat}
      (hle : (nHeight : Int) ≤ n.chain.nBestHeight) :
      LookupStep env ok (n, last)
        (n, (n.chain.findBlockByHeight last nHeight).map CBlockIndex.hashBlock)

variable {last : Option Uint256} {nHeight : Nat} {q : CBlockIndex}

/-- Below the tip, the link of a block leads to the next block of the best chain. -/
theorem InSync.pnext_below (hsync : InSync env n) (htip : AtTip n.chain tip)
    (hq : q ∈ n.chain.bestChain) (hlt : q.nHeight < tip.nHeight) :
    ∃ p ∈ n.chain.bestChain, (n.chain.pnext q.hashBlock).bind n.chain.mapBlockIndex = some p ∧
      p.nHeight = q.nHeight + 1 := by
  obtain ⟨above, _, hsplit⟩ := append_of_mem hq
  have hnodup := nodup_hashes hsync.index tip.hashBlock
  have hchain := isChain_chainOf hsync.index tip.hashBlock
  rw [hashes] at hnodup
  rw [← htip.bestChain_eq, hsplit] at hnodup hchain
  have hhead := htip.head_bestChain
  rcases eq_nil_or_concat' above with rfl | ⟨_, p, rfl⟩
  · rw [hsplit, nil_append, head?_cons] at hhead
    obtain rfl := some.inj hhead
    exact absurd hlt (lt_irrefl _)
  have hp : p ∈ n.chain.bestChain := by simp [hsplit]
  rw [append_assoc] at hnodup hchain
  obtain ⟨-, hparent, -⟩ := isChain_append_cons_cons.mp hchain
  have hnext : n.chain.pnext q.hashBlock = some p.hashBlock := by
    rw [hsync.links, hsplit, append_assoc, map_append]
    rw [map_append] at hnodup
    exact sub_nextIn_append hnodup _ _ (by simp [nextIn])
  obtain ⟨_, hpb, hheight⟩ := hsync.index.pprev_some (hsync.indexed_of_mem hp)
    (pprev_of_parent hsync.index hparent)
  obtain rfl := some.inj ((hsync.indexed_of_mem hq).symm.trans hpb)
  exact ⟨p, hp, by rw [hnext]; exact hsync.indexed_of_mem hp, hheight⟩

theorem InSync.walkUp_eq (hsync : InSync env n) (htip : AtTip n.chain tip)
    (hle : nHeight ≤ tip.nHeight) (fuel : Nat) :
    ∀ q ∈ n.chain.bestChain, q.nHeight ≤ nHeight → nHeight ≤ q.nHeight + fuel →
      ∃ p ∈ n.chain.bestChain, p.nHeight = nHeight ∧
        n.chain.walkUp nHeight fuel (some q) = some p := by
  induction fuel with
  | zero =>
    intro q hq hlow hfuel
    exact ⟨q, hq, le_antisymm hlow hfuel, rfl⟩
  | succ fuel ih =>
    intro q hq hlow hfuel
    rw [walkUp]
    split
    · obtain ⟨p, hp, hnext, _⟩ := hsync.pnext_below htip hq (by omega)
      rw [hnext]
      exact ih p hp (by omega) (by omega)
    · exact ⟨q, hq, by omega, rfl⟩

theorem BlockMap.traceBack_low (wf : m.WellFormed) (hq : m.Indexed q) (nHeight : Nat) :
    ∃ p ∈ m.chainOf q.hashBlock, m.traceBack q.hashBlock nHeight = some p ∧
      p.nHeight ≤ nHeight := by
  obtain ⟨root, hlast, hroot⟩ := getLast?_chainOf wf q hq
  have hmem := mem_of_getLast? hlast
  have hzero := wf.pprev_none (mem_chainOf_indexed wf hmem) hroot
  rw [traceBack]
  cases hdrop : (m.chainOf q.hashBlock).dropWhile fun p => decide (p.nHeight > nHeight) with
  | nil =>
    have := dropWhile_eq_nil_iff.mp hdrop root hmem
    simp [hzero] at this
  | cons p rest =>
    have hlow := head?_dropWhile_not (fun p => decide (p.nHeight > nHeight)) (m.chainOf q.hashBlock)
    rw [hdrop] at hlow
    refine ⟨p, dropWhile_subset _ (hdrop ▸ mem_cons_self), rfl, ?_⟩
    simpa using hlow

theorem LookupOk.findBlockByHeight (hok : LookupOk env n last)
    (hle : (nHeight : Int) ≤ n.chain.nBestHeight) :
    ∃ p ∈ n.chain.bestChain, p.nHeight = nHeight ∧
      n.chain.findBlockByHeight last nHeight = some p := by
  have hsync := hok.toInSync
  rcases hsync.best with hunset | ⟨tip, htip⟩
  · have := hok.unset hunset.pindexBest
    omega
  rw [htip.nBestHeight] at hle
  -- wherever the search starts, it starts on the best chain
  have hgoal : ∀ start ∈ n.chain.bestChain, ∃ p ∈ n.chain.bestChain, p.nHeight = nHeight ∧
      n.chain.walkUp nHeight nHeight
        (n.chain.mapBlockIndex.traceBack start.hashBlock nHeight) = some p := by
    intro start hstart
    obtain ⟨q, hq, htrace, hlow⟩ :=
      traceBack_low hsync.index (hsync.indexed_of_mem hstart) nHeight
    rw [htrace]
    refine hsync.walkUp_eq htip (by omega) nHeight q ?_ hlow (by omega)
    rw [htip.bestChain_eq] at hstart ⊢
    exact mem_chainOf_trans hsync.index hq hstart
  obtain ⟨pindex, hpindex, hnear⟩ : ∃ pindex ∈ n.chain.bestChain,
      (if (nHeight : Int) < n.chain.nBestHeight.tdiv 2 then n.chain.pindexGenesisBlock
        else n.chain.pindexBest).bind n.chain.mapBlockIndex = some pindex := by
    split
    · obtain ⟨root, hlast, hroot⟩ :=
        getLast?_chainOf hsync.index tip htip.indexed
      have hmem := mem_of_getLast? hlast
      have hidx := mem_chainOf_indexed hsync.index hmem
      obtain ⟨g, hg⟩ := ne_none_iff_exists'.mp htip.pindexGenesisBlock
      refine ⟨root, htip.bestChain_eq ▸ hmem, ?_⟩
      rw [hg, hok.genesis g hg, ← hsync.root hidx hroot]
      exact hidx
    · exact ⟨tip, mem_of_head? htip.head_bestChain, by
        rw [htip.pindexBest]; exact htip.indexed⟩
  rw [ChainState.findBlockByHeight]
  simp only [hnear]
  refine hgoal _ ?_
  cases hlast : last with
  | none => exact hpindex
  | some h =>
    obtain ⟨p, hp, rfl⟩ := hok.last h hlast
    simp only [bind_some, show n.chain.mapBlockIndex p.hashBlock = some p from
      hsync.indexed_of_mem hp]
    split
    · exact hp
    · exact hpindex

theorem LookupOk.unmoved {n' : Node} {last' : Option Uint256} (hok : LookupOk env n last)
    (hun : Unmoved n.chain n'.chain) (hlast : ∀ h, last' = some h → last = some h) :
    LookupOk env n' last' where
  toInSync := hok.toInSync.unmoved hun
  genesis g hg := hok.genesis g (hun.memory.pindexGenesisBlock ▸ hg)
  unset h := hun.memory.nBestHeight ▸ hok.unset (hun.memory.pindexBest ▸ h)
  last h hh := hun.bestChain_eq ▸ hok.last h (hlast h hh)

theorem LookupOk.step {σ σ' : Node × Option Uint256} (hok : LookupOk env σ.1 σ.2)
    (h : LookupStep env (Node.PostponedOk env) σ σ') : LookupOk env σ'.1 σ'.2 := by
  have hsync := hok.toInSync
  cases h with
  | chain h =>
    cases h with
    | @index b nFile nBlockPos hashProofOfStake pindexNew w hnew hcaller =>
      obtain ⟨-, -, hgen, hbest, -, hheight, -⟩ :=
        indexBlock_frame hsync.noBatch w pindexNew
      exact ⟨hsync.indexBlock hnew hcaller w, fun g hg => hok.genesis g (hgen ▸ hg),
        fun h => hheight ▸ hok.unset (hbest ▸ h),
        fun h hh => (hsync.bestChain_indexBlock hnew w).symm ▸ hok.last h hh⟩
    | setBest _ _ hok => exact hok.elim
    | other hun => exact hok.unmoved hun fun _ hh => hh
  | @setBest n last b pindexNew w hfor hpost =>
    have hkept : ∀ h, (if (n.setBestChain env w b pindexNew).2 = .returned true then none else last)
        = some h → last = some h := by
      intro h hh
      split at hh
      · cases hh
      · exact hh
    have hsync' := hsync.setBestChain hfor hpost rfl
    rcases hsync.best with hunset | ⟨best, htip⟩
    · obtain ⟨-, hun | ⟨hroot, htip, hgen, -⟩⟩ :=
        hunset.setBestChain_cases hsync.toSettled hfor rfl
      · exact hok.unmoved hun.toUnmoved hkept
      · refine ⟨hsync', fun g hg => ?_, fun h => ?_, fun h hh => ?_⟩
        · rw [← some.inj (hgen.symm.trans hg)]
          exact hsync.root hfor.indexed hroot
        · exact absurd (htip.pindexBest.symm.trans h) (by simp)
        · -- before the first block there is nothing to remember
          obtain ⟨p, hp, -⟩ := hok.last h (hkept h hh)
          rw [hunset.bestChain_eq] at hp
          cases hp
    · rcases htip.setBestChain_moves hsync hfor hpost rfl with ⟨-, hun⟩ | ⟨hret, -, htip, hgen⟩
      · exact hok.unmoved hun hkept
      · refine ⟨hsync', fun g hg => hok.genesis g (hgen ▸ hg), fun h => ?_, fun h hh => ?_⟩
        · exact absurd (htip.pindexBest.symm.trans h) (by simp)
        · cases (if_pos hret).symm.trans hh
  | @find n last nHeight hle =>
    obtain ⟨p, hp, -, hfound⟩ := hok.findBlockByHeight hle
    refine ⟨hsync, hok.genesis, hok.unset, fun h hh => ⟨p, hp, ?_⟩⟩
    rw [hfound] at hh
    exact some.inj hh

/-- **Height lookup.** In a run whose calls of `SetBestChain` can attach the blocks they postpone,
`FindBlockByHeight` is right. -/
theorem findBlockByHeight_right {σ₀ σ : Node × Option Uint256} (h₀ : LookupOk env σ₀.1 σ₀.2)
    (hrun : Relation.ReflTransGen (LookupStep env (Node.PostponedOk env)) σ₀ σ)
    (hle : (nHeight : Int) ≤ σ.1.chain.nBestHeight) :
    ∃ p ∈ σ.1.chain.bestChain, p.nHeight = nHeight ∧
      σ.1.chain.findBlockByHeight σ.2 nHeight = some p := by
  have hok : LookupOk env σ.1 σ.2 := by
    clear hle
    induction hrun with
    | refl => exact h₀
    | tail _ hstep ih => exact ih.step hstep
  exact hok.findBlockByHeight hle

theorem lookupOk_emptyNode (env : Env) : LookupOk env (emptyNode env) none where
  toInSync := inSync_emptyNode env
  genesis _ h := nomatch h
  unset _ := Int.negSucc_lt_zero 0
  last _ h := nomatch h

theorem Run.lookup {ok : Node → World → CBlockIndex → Prop} {n0 : Node} (h : Run env ok n0 n) :
    Relation.ReflTransGen (LookupStep env ok) (n0, none) (n, none) := by
  refine h.lift (fun n => (n, none)) fun n n' hstep => ?_
  cases hstep with
  | index w hnew hcaller => exact .chain (.index w hnew hcaller)
  | setBest w hfor hok => simpa using @LookupStep.setBest env ok n none _ _ w hfor hok
  | other hun => exact .chain (.other hun)

theorem findBlockByHeight_right_twoBlocks : twoBlocks.chain.nBestHeight = 1 ∧
    ∃ p ∈ twoBlocks.chain.bestChain, p.nHeight = 0 ∧
      twoBlocks.chain.findBlockByHeight none 0 = some p :=
  ⟨by decide +kernel, @findBlockByHeight_right sampleEnv 0 _ (twoBlocks, none)
    (lookupOk_emptyNode sampleEnv) twoBlocks_run.lookup (by decide +kernel)⟩

def grownAfterReadFailed : Node :=
  let n := (readFailed.1.acceptBlock sampleEnv (minedWorld 4) (minedWorld 4) (minedBlock 4 3 3)).1
  (n.acceptBlock sampleEnv (minedWorld 5) (minedWorld 5) (minedBlock 5 4 4)).1

/-- The first lookup remembers block 2, and the second follows its null link. -/
theorem findBlockByHeight_null : readFailed.2 = .ok () ∧
    grownAfterReadFailed.chain.nBestHeight = 4 ∧
    grownAfterReadFailed.chain.bestChain.map CBlockIndex.hashBlock = [5, 4, 3, 2, 1] ∧
    (grownAfterReadFailed.chain.findBlockByHeight none 1).map CBlockIndex.hashBlock = some 2 ∧
    grownAfterReadFailed.chain.findBlockByHeight (some 2) 2 = none := by
  refine ⟨by rfl, ?_⟩
  decide +kernel

end HoboNickels

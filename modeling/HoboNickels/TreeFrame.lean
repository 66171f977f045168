import HoboNickels.Accept
import HoboNickels.ChainSwitch

/-!
# The block tree

Whatever `SetBestChain` does to the best block, the links and the database, it adds no block to the
index and does not touch the synchronized checkpoint. `AcceptBlock` adds the block it is given, or
nothing (`acceptBlock_grows`).
-/

namespace HoboNickels

open Fallible WriteBatch

variable {env : Env} {w wPending : World}

structure SameTree (s s' : ChainState) : Prop where
  mapBlockIndex : s'.mapBlockIndex = s.mapBlockIndex
  nSyncCheckpointHeight : s'.nSyncCheckpointHeight = s.nSyncCheckpointHeight
  hashSyncCheckpoint : s'.hashSyncCheckpoint = s.hashSyncCheckpoint
  hashPendingCheckpoint : s'.hashPendingCheckpoint = s.hashPendingCheckpoint
  setStakeSeen : s'.setStakeSeen = s.setStakeSeen

theorem SameTree.refl (s : ChainState) : SameTree s s := ⟨rfl, rfl, rfl, rfl, rfl⟩

theorem SameTree.trans {s₁ s₂ s₃ : ChainState} (h₁ : SameTree s₁ s₂) (h₂ : SameTree s₂ s₃) :
    SameTree s₁ s₃ :=
  ⟨h₂.1.trans h₁.1, h₂.2.trans h₁.2, h₂.3.trans h₁.3, h₂.4.trans h₁.4, h₂.5.trans h₁.5⟩

variable {s s' : ChainState} {b : CBlock} {mempool : Uint256 → Option CTransaction}

theorem connectBlock_sameTree
    {pindex : CBlockIndex} (h : s.connectBlock env w mempool b pindex = .ok s') :
    SameTree s s' := by
  obtain ⟨_, -, -, rfl⟩ := connectBlock_ok h
  exact ⟨rfl, rfl, rfl, rfl, rfl⟩

theorem disconnectBlock_sameTree {pindex : CBlockIndex}
    (h : s.disconnectBlock env b pindex = .ok s') : SameTree s s' := by
  obtain ⟨_, -, h⟩ := bind_eq_ok.mp h
  cases h
  exact ⟨rfl, rfl, rfl, rfl, rfl⟩

variable {l : List CBlockIndex} {r : Except Fail (List CTransaction)}

theorem disconnectBlocks_sameTree (h : s.disconnectBlocks env w l = (s', r)) : SameTree s s' := by
  obtain ⟨_, hP, -⟩ := disconnectBlocks_induct (fun s1 _ => SameTree s s1)
    (fun s1 s2 pindex rest b hP _ hstep => hP.trans (disconnectBlock_sameTree hstep))
    l s s' r (SameTree.refl s) h
  exact hP

theorem connectBlocks_sameTree (h : s.connectBlocks env w mempool l = (s', r)) :
    SameTree s s' := by
  obtain ⟨_, hP, -⟩ := connectBlocks_induct (fun s1 _ => SameTree s s1)
    (fun s1 s2 pindex rest b hP _ hstep => hP.trans (connectBlock_sameTree hstep))
    l s s' r (SameTree.refl s) h
  exact hP

namespace Node

section

variable (n : Node) (hash : Uint256) (pindexNew : CBlockIndex)
include n

theorem withDb_sameTree (db : CTxDB) : SameTree n.chain (n.withDb db).chain :=
  ⟨rfl, rfl, rfl, rfl, rfl⟩

theorem txnBegin_sameTree : SameTree n.chain n.txnBegin.chain := withDb_sameTree n _

theorem txnAbort_sameTree : SameTree n.chain n.txnAbort.chain := withDb_sameTree n _

theorem newBest_sameTree : SameTree n.chain (n.newBest hash pindexNew).chain :=
  ⟨rfl, rfl, rfl, rfl, rfl⟩

theorem setBestGenesis_sameTree :
    SameTree n.chain (n.setBestGenesis w hash pindexNew).1.chain := by
  by_cases hcommit : w.txnCommitOk .genesis = true
  · rw [setBestGenesis_committed hcommit]
    exact ⟨rfl, rfl, rfl, rfl, rfl⟩
  · rw [setBestGenesis_aborted hcommit]
    exact withDb_sameTree n _

theorem invalidChainFound_sameTree : SameTree n.chain (n.invalidChainFound pindexNew).chain := by
  unfold invalidChainFound
  split
  · exact ⟨rfl, rfl, rfl, rfl, rfl⟩
  · exact SameTree.refl _

theorem setBestChainInner_sameTree (env : Env) (w : World) (b : CBlock) :
    SameTree n.chain (n.setBestChainInner env w b pindexNew).1.chain := by
  unfold setBestChainInner
  split
  · exact ⟨rfl, rfl, rfl, rfl, rfl⟩
  · exact (txnAbort_sameTree n).trans (invalidChainFound_sameTree n.txnAbort pindexNew)
  rename_i s1 hconn
  have hs1 := connectBlock_sameTree hconn
  split
  · simp only [foldl_removeFromPool]
    exact hs1.trans ⟨rfl, rfl, rfl, rfl, rfl⟩
  · exact hs1.trans ⟨rfl, rfl, rfl, rfl, rfl⟩

theorem switchBranch_sameTree (vDisconnect vConnect : List CBlockIndex) :
    SameTree n.chain (n.switchBranch env w pindexNew vDisconnect vConnect).1.chain := by
  unfold switchBranch
  split
  next s1 e hs1 => exact disconnectBlocks_sameTree hs1
  rename_i s1 vResurrect hs1
  have hdisc := disconnectBlocks_sameTree hs1
  split
  next s2 e hs2 => exact hdisc.trans (connectBlocks_sameTree hs2)
  rename_i s2 vDelete hs2
  have hconn := hdisc.trans (connectBlocks_sameTree hs2)
  split
  · rw [chain_finishReorganize]
    exact hconn.trans ⟨rfl, rfl, rfl, rfl, rfl⟩
  · exact hconn.trans ⟨rfl, rfl, rfl, rfl, rfl⟩

theorem reorganize_sameTree (env : Env) (w : World) :
    SameTree n.chain (n.reorganize env w pindexNew).1.chain := by
  unfold reorganize
  simp only
  split
  · exact SameTree.refl _
  · exact switchBranch_sameTree n pindexNew _ _

end

theorem connectFurther_sameTree {n n' : Node} {r : Option String}
    (h : connectFurther env w l n = (n', r)) : SameTree n.chain n'.chain := by
  have hinner : ∀ (n1 n2 : Node) (pindex : CBlockIndex) (b : CBlock) (outcome : Outcome),
      n1.txnBegin.setBestChainInner env w b pindex = (n2, outcome) →
      SameTree n1.chain n2.chain := by
    intro n1 n2 pindex b outcome hin
    have htree := setBestChainInner_sameTree n1.txnBegin pindex env w b
    rw [hin] at htree
    exact (txnBegin_sameTree n1).trans htree
  obtain ⟨-, hend, -⟩ := connectFurther_induct (fun n1 _ => SameTree n.chain n1.chain)
    (fun n1 n2 pindex rest b hP _ hin => hP.trans (hinner n1 n2 pindex b _ hin))
    (fun n1 n2 pindex rest b outcome hP _ hin _ => hP.trans (hinner n1 n2 pindex b outcome hin))
    l n n' r (SameTree.refl _) h
  exact hend

theorem setBestByReorganize_sameTree (n : Node) (hash : Uint256) (pindexNew : CBlockIndex) :
    SameTree n.chain (n.setBestByReorganize env w hash pindexNew).1.chain := by
  have hreorg : ∀ {p n1 r}, n.reorganize env w p = (n1, r) → SameTree n.chain n1.chain := by
    intro p n1 r h
    have htree := reorganize_sameTree n p env w
    rwa [h] at htree
  fun_cases setBestByReorganize with
  | case1 => exact txnAbort_sameTree n
  | case2 _ _ _ _ _ _ n1 _ hn1 => exact (hreorg hn1).trans (txnAbort_sameTree n1)
  | case3 _ _ _ _ _ _ n1 _ _ hn1 =>
    exact ((hreorg hn1).trans (txnAbort_sameTree n1)).trans
      (invalidChainFound_sameTree n1.txnAbort pindexNew)
  | case4 _ _ _ _ _ _ n1 hn1 n2 _ hn2 => exact (hreorg hn1).trans (connectFurther_sameTree hn2)
  | case5 _ _ _ _ _ _ n1 hn1 n2 hn2 =>
    exact ((hreorg hn1).trans (connectFurther_sameTree hn2)).trans
      (newBest_sameTree n2 hash pindexNew)

/-- **SetBestChain** leaves the block tree and the checkpoint alone. -/
theorem setBestChain_sameTree (env : Env) (w : World) (n : Node) (b : CBlock)
    (pindexNew : CBlockIndex) :
    SameTree n.chain (n.setBestChain env w b pindexNew).1.chain := by
  have hinner := (txnBegin_sameTree n).trans
    (setBestChainInner_sameTree n.txnBegin pindexNew env w b)
  fun_cases setBestChain with
  | case1 => exact SameTree.refl _
  | case2 hash =>
    exact (txnBegin_sameTree n).trans (setBestGenesis_sameTree n.txnBegin hash pindexNew)
  | case3 hash _ _ _ n1 hin =>
    rw [hin] at hinner
    exact hinner.trans (newBest_sameTree n1 hash pindexNew)
  | case4 _ _ _ _ n1 _ _ hin =>
    rw [hin] at hinner
    exact hinner
  | case5 hash =>
    exact (txnBegin_sameTree n).trans (setBestByReorganize_sameTree n.txnBegin hash pindexNew)

end Node

/-! ## AcceptBlock -/

theorem ChainState.validateSyncCheckpoint_frame {s1 : ChainState} {hash : Uint256} {ok : Bool}
    (h : s.validateSyncCheckpoint hash = (s1, ok)) :
    s1 = { s with hashInvalidCheckpoint := s1.hashInvalidCheckpoint } := by
  revert h
  fun_cases validateSyncCheckpoint <;> rintro ⟨⟩ <;> rfl

theorem ChainState.indexBlock_checkpoint (s : ChainState) (w : World) (pindexNew : CBlockIndex) :
    (s.indexBlock w pindexNew).1.hashSyncCheckpoint = s.hashSyncCheckpoint ∧
      (s.indexBlock w pindexNew).1.nSyncCheckpointHeight = s.nSyncCheckpointHeight := by
  fun_cases indexBlock <;> exact ⟨rfl, rfl⟩

theorem ChainState.mapBlockIndex_indexBlock (s : ChainState) (w : World)
    (pindexNew : CBlockIndex) : (s.indexBlock w pindexNew).1.mapBlockIndex
      = Function.update s.mapBlockIndex pindexNew.hashBlock (some pindexNew) := by
  fun_cases indexBlock <;> rfl

namespace Node

section

variable (n : Node) (env : Env) (w : World)

theorem mapBlockIndex_takeCheckpoint (hashCheckpoint : Uint256) :
    (n.takeCheckpoint w hashCheckpoint).1.chain.mapBlockIndex = n.chain.mapBlockIndex := by
  have hwrite : (n.chain.writeSyncCheckpoint w hashCheckpoint).1.mapBlockIndex =
      n.chain.mapBlockIndex := by
    unfold ChainState.writeSyncCheckpoint
    split <;> rfl
  unfold takeCheckpoint
  split
  all_goals
    rename_i s1 heq
    rw [heq] at hwrite
    exact hwrite

theorem mapBlockIndex_processSyncCheckpoint (fSigned : Bool) (hashCheckpoint : Uint256) :
    (n.processSyncCheckpoint env w fSigned hashCheckpoint).1.chain.mapBlockIndex =
    n.chain.mapBlockIndex := by
  unfold processSyncCheckpoint
  split
  · rfl
  split
  · rfl
  rename_i pindexCheckpoint _
  rcases hvalid : n.chain.validateSyncCheckpoint hashCheckpoint with ⟨s1, ok⟩
  rw [ChainState.validateSyncCheckpoint_frame hvalid]
  cases ok with
  | false => rfl
  | true =>
    simp only
    split
    · exact mapBlockIndex_takeCheckpoint _ w hashCheckpoint
    split
    · rfl
    rename_i block _
    have hset := (setBestChain_sameTree env w { n with chain := { n.chain with
      hashInvalidCheckpoint := s1.hashInvalidCheckpoint } } block
      pindexCheckpoint).mapBlockIndex
    split
    next n2 message hn2 =>
      rw [hn2] at hset
      exact hset
    next n2 hn2 =>
      rw [hn2] at hset
      exact hset
    next n2 hn2 =>
      rw [hn2] at hset
      exact (mapBlockIndex_takeCheckpoint n2 w hashCheckpoint).trans hset

/-- `AcceptPendingSyncCheckpoint` does with the pending checkpoint what `ProcessSyncCheckpoint` does
with a signed one. -/
theorem acceptPendingSyncCheckpoint_cases : (n.acceptPendingSyncCheckpoint env w).1 = n ∨ ∃ p, let
    n' := (n.processSyncCheckpoint env w true n.chain.hashPendingCheckpoint).1
      (n.acceptPendingSyncCheckpoint env w).1 =
        { n' with chain := { n'.chain with hashPendingCheckpoint := p } } := by
  unfold acceptPendingSyncCheckpoint processSyncCheckpoint
  cases n.chain.mapBlockIndex n.chain.hashPendingCheckpoint with
  | none => exact .inl rfl
  | some pindex =>
    by_cases hzero : n.chain.hashPendingCheckpoint = 0
    · exact .inl (by simp [hzero])
    refine .inr ?_
    simp only [hzero, if_false, Bool.not_true, Bool.false_eq_true]
    rcases hvalid : n.chain.validateSyncCheckpoint n.chain.hashPendingCheckpoint with ⟨s1, _ | _⟩
    · exact ⟨0, rfl⟩
    rw [← congrArg (·.hashPendingCheckpoint) (ChainState.validateSyncCheckpoint_frame hvalid)]
    dsimp only
    cases s1.isInMainChain pindex.hashBlock with
    | true => exact ⟨_, rfl⟩
    | false =>
      cases w.readBlock env pindex with
      | none => exact ⟨_, rfl⟩
      | some block =>
        have hpending := (setBestChain_sameTree env w { n with chain := s1 } block
          pindex).hashPendingCheckpoint
        dsimp only at hpending ⊢
        generalize ({ n with chain := s1 } : Node).setBestChain env w block pindex = r at hpending ⊢
        rw [← hpending]
        rcases r with ⟨n2, (_ | _) | _⟩
        all_goals exact ⟨_, rfl⟩

theorem mapBlockIndex_acceptPendingSyncCheckpoint (n : Node) :
    (n.acceptPendingSyncCheckpoint env w).1.chain.mapBlockIndex = n.chain.mapBlockIndex := by
  obtain heq | ⟨_, heq⟩ := acceptPendingSyncCheckpoint_cases n env w
  · rw [heq]
  · rw [heq]
    exact mapBlockIndex_processSyncCheckpoint n env w true _

/-- The entries of the index after a block has been added: the old ones, and the one that
`AddToBlockIndex` has constructed. -/
def Grows (n : Node) (b : CBlock) (m : BlockMap) : Prop :=
  ∀ h p, m h = some p → n.chain.mapBlockIndex h = some p ∨
    ∃ nFile nBlockPos hashProofOfStake,
      n.chain.newBlockIndex env b nFile nBlockPos hashProofOfStake = .ok p ∧ h = p.hashBlock

end

theorem Grows.refl (n : Node) (b : CBlock) : Grows env n b n.chain.mapBlockIndex :=
  fun _ _ hp => .inl hp

theorem indexBlock_grows {n : Node} {nFile nBlockPos : Nat}
    {hashProofOfStake : Uint256} {pindexNew : CBlockIndex}
    (hnew : n.chain.newBlockIndex env b nFile nBlockPos hashProofOfStake = .ok pindexNew)
    (w : World) : Grows env n b (n.chain.indexBlock w pindexNew).1.mapBlockIndex := by
  intro h p hp
  rw [ChainState.mapBlockIndex_indexBlock] at hp
  obtain ⟨heq, ⟨⟩⟩ | ⟨-, hp⟩ := update_eq_some hp
  · exact .inr ⟨nFile, nBlockPos, hashProofOfStake, hnew, heq⟩
  · exact .inl hp

/-- **AddToBlockIndex** adds the block to the index, or nothing. -/
theorem addToBlockIndex_grows (env : Env) (w : World) (n : Node) (b : CBlock)
    (nFile nBlockPos : Nat) (hashProofOfStake : Uint256) :
    Grows env n b
      (n.addToBlockIndex env w b nFile nBlockPos hashProofOfStake).1.chain.mapBlockIndex := by
  refine addToBlockIndex_induct (fun r => Grows env n b r.1.chain.mapBlockIndex)
    (fun _ _ => Grows.refl n b) (fun _ _ hnew => indexBlock_grows hnew w) fun pindexNew hnew => ?_
  rw [(setBestChain_sameTree env w _ b pindexNew).mapBlockIndex]
  exact indexBlock_grows hnew w

theorem storeBlock_grows (env : Env) (w : World) (n : Node) (b : CBlock)
    (hashProofOfStake : Uint256) :
    Grows env n b (n.storeBlock env w b hashProofOfStake).1.chain.mapBlockIndex := by
  refine storeBlock_induct (fun r => Grows env n b r.1.chain.mapBlockIndex)
    (fun _ => Grows.refl n b) fun nFile nBlockPos _ _ => ?_
  exact addToBlockIndex_grows env w n b nFile nBlockPos hashProofOfStake

theorem hashSyncCheckpoint_storeBlock (n : Node) (env : Env) (w : World) (b : CBlock)
    (hashProofOfStake : Uint256) :
    (n.storeBlock env w b hashProofOfStake).1.chain.hashSyncCheckpoint
      = n.chain.hashSyncCheckpoint := by
  refine storeBlock_induct (fun r => r.1.chain.hashSyncCheckpoint = _) (fun _ => rfl)
    fun nFile nBlockPos _ _ => ?_
  refine addToBlockIndex_induct (fun r => r.1.chain.hashSyncCheckpoint = _) (fun _ _ => rfl)
    (fun pindexNew _ _ => (n.chain.indexBlock_checkpoint w pindexNew).1) fun pindexNew _ => ?_
  exact (setBestChain_sameTree env w _ b pindexNew).hashSyncCheckpoint.trans
    (n.chain.indexBlock_checkpoint w pindexNew).1

/-- **AcceptBlock** adds the block to the index, or nothing. -/
theorem acceptBlock_grows {n n' : Node} {r : Except Fail Unit}
    (haccept : n.acceptBlock env w wPending b = (n', r)) :
    Grows env n b n'.chain.mapBlockIndex := by
  have hgrows : Grows env n b (n.acceptBlock env w wPending b).1.chain.mapBlockIndex := by
    refine acceptBlock_induct (fun r => Grows env n b r.1.chain.mapBlockIndex)
      (fun _ => Grows.refl n b) (fun hashProofOfStake n1 e _ hn1 => ?_)
      fun hashProofOfStake n1 r _ hn1 => ?_
    · have hstore := storeBlock_grows env w n b hashProofOfStake
      rw [hn1] at hstore
      exact hstore
    have hstore := storeBlock_grows env w n b hashProofOfStake
    rw [hn1] at hstore
    rw [mapBlockIndex_acceptPendingSyncCheckpoint]
    exact hstore
  rwa [haccept] at hgrows

end Node

end HoboNickels

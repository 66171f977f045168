import HoboNickels.Primitives
import HoboNickels.Lib.ParentChain

/-!
# The block index

`CBlockIndex` and the tree it forms in `mapBlockIndex`. A pointer to an entry is the block's hash,
the key of the map. Fields that never change are in the record; `pnext`, `nMint` and `nMoneySupply`,
which are rewritten while blocks are connected, are maps of the node's state.

Code that follows `pprev` takes the list of an entry and its ancestors, the entry first; `chainOf`
gives that list in a tree.
-/

namespace HoboNickels

open ParentChain Function Option

structure CBlockIndex where
  hashBlock : Uint256
  pprev : Option Uint256
  nFile : Nat
  nBlockPos : Nat
  nChainTrust : Nat
  nHeight : Nat
  nFlags : Nat
  nStakeModifier : Nat
  nStakeModifierChecksum : Nat
  prevoutStake : COutPoint
  nStakeTime : Nat
  hashProofOfStake : Uint256
  nVersion : Int
  hashMerkleRoot : Uint256
  nTime : Nat
  nBits : Nat
  nNonce : Nat
  deriving DecidableEq, Repr, Inhabited

namespace CBlockIndex

variable (b : CBlockIndex)

def isProofOfStake : Bool := b.nFlags.testBit 0

def isProofOfWork : Bool := !b.isProofOfStake

def getStakeEntropyBit : Nat := if b.nFlags.testBit 1 then 1 else 0

def generatedStakeModifier : Bool := b.nFlags.testBit 2

def getBlockTime : Int := b.nTime

def withoutDiskPos : CBlockIndex := { b with nFile := 0, nBlockPos := 0 }

end CBlockIndex

/-! ## The tree -/

theorem update_eq_some {κ α : Type} [DecidableEq κ] {f : κ → Option α} {k k' : κ} {v : Option α}
    {a : α} (h : update f k v k' = some a) : (k' = k ∧ v = some a) ∨ (k' ≠ k ∧ f k' = some a) := by
  by_cases hk : k' = k
  · rw [hk, update_self] at h
    exact .inl ⟨hk, h⟩
  · rw [update_of_ne hk] at h
    exact .inr ⟨hk, h⟩

abbrev BlockMap := Uint256 → Option CBlockIndex

namespace BlockMap

def parent (m : BlockMap) (b : CBlockIndex) : Option CBlockIndex := b.pprev.bind m

def Indexed (m : BlockMap) (b : CBlockIndex) : Prop := m b.hashBlock = some b

instance (m : BlockMap) (b : CBlockIndex) : Decidable (m.Indexed b) :=
  inferInstanceAs (Decidable (m b.hashBlock = some b))

/-- Entries are keyed by their hash, every parent is present one level below, and an entry without
parent is at height 0. -/
structure WellFormed (m : BlockMap) : Prop where
  keyed : ∀ {h b}, m h = some b → b.hashBlock = h
  pprev_some : ∀ {h b p}, m h = some b → b.pprev = some p →
    ∃ pb, m p = some pb ∧ b.nHeight = pb.nHeight + 1
  pprev_none : ∀ {h b}, m h = some b → b.pprev = none → b.nHeight = 0

def chainOf (m : BlockMap) (h : Uint256) : List CBlockIndex :=
  match m h with
  | none => []
  | some b => chainFrom m.parent CBlockIndex.nHeight b

variable {m : BlockMap}

variable {h : Uint256} {b a : CBlockIndex}

/-- A tree with finitely many entries can be checked entry by entry. -/
theorem wellFormed_of_hashes (l : List Uint256) (hl : ∀ {h b}, m h = some b → h ∈ l)
    (hm : ∀ h ∈ l, ∀ b ∈ m h, b.hashBlock = h ∧ (b.pprev = none → b.nHeight = 0) ∧
      ∀ p ∈ b.pprev, ∃ pb ∈ m p, b.nHeight = pb.nHeight + 1) : m.WellFormed where
  keyed hb := (hm _ (hl hb) _ hb).1
  pprev_some hb hp := (hm _ (hl hb) _ hb).2.2 _ hp
  pprev_none hb := (hm _ (hl hb) _ hb).2.1

theorem WellFormed.indexed (wf : m.WellFormed) (hb : m h = some b) : m.Indexed b := by
  unfold Indexed
  rw [wf.keyed hb]
  exact hb

theorem WellFormed.ranked (wf : m.WellFormed) : Ranked m.Indexed m.parent CBlockIndex.nHeight where
  dom_parent := by
    intro a p ha hp
    obtain ⟨h, -, hm⟩ := bind_eq_some_iff.mp hp
    exact wf.indexed hm
  rank_parent := by
    intro a p ha hp
    obtain ⟨h, hpp, hm⟩ := bind_eq_some_iff.mp hp
    obtain ⟨pb, hpb, hheight⟩ := wf.pprev_some ha hpp
    rw [hm] at hpb
    cases hpb
    exact hheight
  rank_root := by
    intro a ha hp
    cases hpp : a.pprev with
    | none => exact wf.pprev_none ha hpp
    | some p =>
      obtain ⟨pb, hpb, -⟩ := wf.pprev_some ha hpp
      rw [parent, hpp, bind_some, hpb] at hp
      cases hp

theorem chainOf_eq (hb : m h = some b) :
    m.chainOf h = chainFrom m.parent CBlockIndex.nHeight b := by
  rw [chainOf, hb]

theorem chainOf_none (hb : m h = none) : m.chainOf h = [] := by
  rw [chainOf, hb]

theorem chainOf_head (hb : m h = some b) : ∃ l, m.chainOf h = b :: l := by
  rw [chainOf_eq hb]
  exact head_chainFrom _ _ b

theorem mem_chainOf_self (hb : m h = some b) : b ∈ m.chainOf h := by
  obtain ⟨_, hhead⟩ := chainOf_head hb
  rw [hhead]
  exact List.mem_cons_self

theorem exists_of_mem_chainOf (ha : a ∈ m.chainOf h) : ∃ x, m h = some x := by
  cases hx : m h with
  | none =>
    rw [chainOf_none hx] at ha
    cases ha
  | some x => exact ⟨x, rfl⟩

section

variable (wf : m.WellFormed)
include wf

theorem chainOf_pprev {p : Uint256} (hb : m h = some b)
    (hp : b.pprev = some p) : m.chainOf h = b :: m.chainOf p := by
  obtain ⟨_, hpb, -⟩ := wf.pprev_some hb hp
  rw [chainOf_eq hb, chainOf_eq hpb]
  refine chainFrom_parent wf.ranked (wf.indexed hb) ?_
  rw [parent, hp, bind_some, hpb]

theorem chainOf_root (hb : m h = some b) (hp : b.pprev = none) : m.chainOf h = [b] := by
  rw [chainOf_eq hb]
  refine chainFrom_root wf.ranked (wf.indexed hb) ?_
  rw [parent, hp, bind_none]

theorem mem_chainOf_indexed (ha : a ∈ m.chainOf h) : m a.hashBlock = some a := by
  obtain ⟨x, hx⟩ := exists_of_mem_chainOf ha
  rw [chainOf_eq hx] at ha
  have hdom := dom_of_mem_chainFrom wf.ranked (wf.indexed hx) ha
  exact hdom

theorem chainOf_suffix (hb : b ∈ m.chainOf h) : m.chainOf b.hashBlock <:+ m.chainOf h := by
  rw [chainOf_eq (mem_chainOf_indexed wf hb)]
  obtain ⟨x, hx⟩ := exists_of_mem_chainOf hb
  rw [chainOf_eq hx] at hb ⊢
  exact chainFrom_suffix wf.ranked (wf.indexed hx) hb

theorem mem_chainOf_trans
    (ha : a ∈ m.chainOf b.hashBlock) (hb : b ∈ m.chainOf h) : a ∈ m.chainOf h :=
  (chainOf_suffix wf hb).subset ha

theorem mem_chainOf_of_nHeight_le
    (ha : a ∈ m.chainOf h) (hb : b ∈ m.chainOf h) (hle : a.nHeight ≤ b.nHeight) :
    a ∈ m.chainOf b.hashBlock := by
  rw [chainOf_eq (mem_chainOf_indexed wf hb)]
  obtain ⟨x, hx⟩ := exists_of_mem_chainOf hb
  rw [chainOf_eq hx] at ha hb
  exact mem_chainFrom_of_rank_le wf.ranked (wf.indexed hx) hb ha hle

end

theorem chainOf_mono {m' : BlockMap} (wf : m.WellFormed) (wf' : m'.WellFormed)
    (hle : ∀ {h b}, m h = some b → m' h = some b)
    (hb : m h = some b) : m'.chainOf h = m.chainOf h := by
  have hkey : ∀ b, m.Indexed b → m'.chainOf b.hashBlock = m.chainOf b.hashBlock := by
    refine wf.ranked.induct ?_ ?_
    · intro b hb hroot
      cases hp : b.pprev with
      | none => rw [chainOf_root wf hb hp, chainOf_root wf' (hle hb) hp]
      | some p =>
        obtain ⟨pb, hpb, -⟩ := wf.pprev_some hb hp
        rw [parent, hp, bind_some, hpb] at hroot
        cases hroot
    · intro b pb hb hparent ih
      obtain ⟨p, hp, hpb⟩ := bind_eq_some_iff.mp hparent
      rw [wf.keyed hpb] at ih
      rw [chainOf_pprev wf hb hp, chainOf_pprev wf' (hle hb) hp, ih]
  rw [← wf.keyed hb]
  exact hkey b (wf.indexed hb)

theorem WellFormed.insert (wf : m.WellFormed) (hnew : m b.hashBlock = none)
    (hsome : ∀ p, b.pprev = some p → ∃ pb, m p = some pb ∧ b.nHeight = pb.nHeight + 1)
    (hnone : b.pprev = none → b.nHeight = 0) :
    WellFormed (update m b.hashBlock (some b)) := by
  have hkeep : ∀ {h x}, m h = some x → update m b.hashBlock (some b) h = some x := by
    intro h x hx
    rw [update_of_ne, hx]
    rintro rfl
    rw [hnew] at hx
    cases hx
  constructor
  · intro h x hx
    obtain ⟨rfl, ⟨⟩⟩ | ⟨-, hx⟩ := update_eq_some hx
    · rfl
    · exact wf.keyed hx
  · intro h x p hx hp
    have hparent : ∃ pb, m p = some pb ∧ x.nHeight = pb.nHeight + 1 := by
      obtain ⟨rfl, ⟨⟩⟩ | ⟨-, hx⟩ := update_eq_some hx
      · exact hsome p hp
      · exact wf.pprev_some hx hp
    obtain ⟨pb, hpb, hheight⟩ := hparent
    exact ⟨pb, hkeep hpb, hheight⟩
  · intro h x hx hp
    obtain ⟨rfl, ⟨⟩⟩ | ⟨-, hx⟩ := update_eq_some hx
    · exact hnone hp
    · exact wf.pprev_none hx hp

end BlockMap

/-- `GetLastBlockIndex`: the nearest entry of the given kind, or the genesis block. -/
def getLastBlockIndex (fProofOfStake : Bool) : List CBlockIndex → List CBlockIndex
  | [] => []
  | [b] => [b]
  | b :: p :: rest =>
    if b.isProofOfStake != fProofOfStake then getLastBlockIndex fProofOfStake (p :: rest)
    else b :: p :: rest

/-- `GetMedianTimePast`: the median of the last eleven block times. -/
def getMedianTimePast (chain : List CBlockIndex) : Int :=
  let times := ((chain.take 11).map CBlockIndex.getBlockTime).insertionSort (· ≤ ·)
  times.getD (times.length / 2) 0

theorem getLastBlockIndex_suffix (f : Bool) (chain : List CBlockIndex) :
    getLastBlockIndex f chain <:+ chain := by
  induction chain with
  | nil => exact List.suffix_refl _
  | cons b rest ih =>
    cases rest with
    | nil => exact List.suffix_refl _
    | cons p rest =>
      rw [getLastBlockIndex]
      split
      · exact ih.trans (List.suffix_cons _ _)
      · exact List.suffix_refl _

end HoboNickels

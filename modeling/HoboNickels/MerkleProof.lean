import HoboNickels.Coins

/-!
# What the merkle root says

A branch that `GetMerkleBranch` picks leads `CheckMerkleBranch` from a transaction to the root. The
other way round, the root determines the list of transaction ids: `BuildMerkleTree` repeats the last
hash of an odd level, so lists of different lengths can have the same root, but in one of them an id
then stands twice, and `CheckBlock` refuses such a block.
-/

namespace HoboNickels

open List Function

variable {c : Crypto} {level : List Uint256}

theorem merkleLevels_ne_nil (fuel : Nat) (h : level ≠ []) : merkleLevels c fuel level ≠ [] := by
  cases fuel with
  | zero => exact h
  | succ fuel =>
    rw [merkleLevels]
    split
    · simp [h]
    · exact h

theorem getLastD_merkleLevels {fuel : Nat} (h : level.length > 1) :
    (merkleLevels c (fuel + 1) level).getLastD 0
      = (merkleLevels c fuel (merkleLevel c level)).getLastD 0 := by
  have hlen := merkleLevel_length c level
  have hne := merkleLevels_ne_nil (c := c) fuel
    (length_pos_iff.mp (by omega) : merkleLevel c level ≠ [])
  rw [merkleLevels, if_pos h, getLastD_eq_getLast?, getLastD_eq_getLast?,
    getLast?_append_of_ne_nil _ hne]

/-! ## Branches -/

theorem xor_one_eq (i : Nat) : i ^^^ 1 = if i % 2 = 1 then i - 1 else i + 1 := by
  split
  next h => exact Nat.xor_one_of_odd (Nat.odd_iff.mpr h)
  next h => exact Nat.xor_one_of_even (Nat.even_iff.mpr (by omega))

/-- The node above place `i` is the hash of `i` and its sibling, the left one first. -/
theorem merkleLevel_getD : ∀ (level : List Uint256) (i : Nat), i < level.length →
    (merkleLevel c level).getD (i / 2) 0 =
      if i % 2 = 1 then
        c.hashPair (level.getD (min (i ^^^ 1) (level.length - 1)) 0) (level.getD i 0)
      else c.hashPair (level.getD i 0) (level.getD (min (i ^^^ 1) (level.length - 1)) 0)
  | [], i, h => by simp at h
  | [a], i, h => by
    obtain rfl : i = 0 := by simpa using h
    rfl
  | a :: b :: rest, 0, _ => by simp [merkleLevel]
  | a :: b :: rest, 1, _ => by simp [merkleLevel]
  | a :: b :: rest, i + 2, h => by
    have hi : i < rest.length := by simpa using h
    have ih := merkleLevel_getD rest i hi
    have hsib : min ((i + 2) ^^^ 1) ((a :: b :: rest).length - 1)
        = min (i ^^^ 1) (rest.length - 1) + 2 := by
      simp only [xor_one_eq, length_cons]
      split <;> split <;> omega
    rw [hsib, show (i + 2) / 2 = i / 2 + 1 by omega, show (i + 2) % 2 = i % 2 by omega, merkleLevel,
      getD_cons_succ, ih]
    rfl

theorem checkMerkleBranch_from (fuel : Nat) : ∀ (level pre : List Uint256) (i : Nat),
    level.length ≤ fuel → i < level.length →
      checkMerkleBranch c (level.getD i 0) (merkleBranchFrom (pre ++ merkleLevels c fuel level) fuel
        level.length i pre.length) i = (merkleLevels c fuel level).getLastD 0 := by
  induction fuel with
  | zero =>
    omega
  | succ fuel ih =>
    intro level pre i hle hi
    by_cases hmore : level.length > 1
    · rw [getLastD_merkleLevels hmore, merkleLevels, merkleBranchFrom, if_pos hmore, if_pos hmore,
        checkMerkleBranch]
      have hlen := merkleLevel_length c level
      have hnext := ih (merkleLevel c level) (pre ++ level) (i / 2) (by omega) (by omega)
      rw [merkleLevel_getD level i hi, hlen, append_assoc, length_append] at hnext
      have hsib : (pre ++ (level ++ merkleLevels c fuel (merkleLevel c level))).getD
          (pre.length + min (i ^^^ 1) (level.length - 1)) 0
          = level.getD (min (i ^^^ 1) (level.length - 1)) 0 := by
        rw [getD_append_right _ _ _ _ (by omega), Nat.add_sub_cancel_left,
          getD_append _ _ _ _ (by omega)]
      rw [hsib, hnext]
    · obtain ⟨a, rfl⟩ := length_eq_one_iff.mp (by omega : level.length = 1)
      obtain rfl : i = 0 := by simpa using hi
      rfl

/-- **Merkle branches verify.** -/
theorem checkMerkleBranch_getMerkleBranch (c : Crypto) (b : CBlock) (i : Fin b.vtx.length) :
    checkMerkleBranch c (c.txHash (b.vtx.get i)) (getMerkleBranch c b i) i
      = buildMerkleTree c b := by
  have h := checkMerkleBranch_from (c := c) b.vtx.length (b.vtx.map c.txHash) [] i (by simp)
    (by simp)
  simpa [getMerkleBranch, buildMerkleTree, merkleTree] using h

/-! ## Binding -/

theorem mem_merkleLevel {h : Uint256} : ∀ {level : List Uint256},
    h ∈ merkleLevel c level → ∃ x ∈ level, ∃ y ∈ level, h = c.hashPair x y
  | [a], hh => ⟨a, by simp, a, by simp, by simpa [merkleLevel] using hh⟩
  | a :: b :: rest, hh => by
    rcases mem_cons.mp hh with rfl | hh
    · exact ⟨a, by simp, b, by simp, rfl⟩
    · obtain ⟨x, hx, y, hy, heq⟩ := mem_merkleLevel hh
      exact ⟨x, by simp [hx], y, by simp [hy], heq⟩

theorem exists_iterate_merkleLevel (fuel : Nat) (level : List Uint256) (hne : level ≠ [])
    (hle : level.length ≤ fuel) :
    ∃ k, (merkleLevel c)^[k] level = [(merkleLevels c fuel level).getLastD 0] := by
  induction fuel generalizing level with
  | zero => exact absurd (length_eq_zero_iff.mp (by omega)) hne
  | succ fuel ih =>
    have hlen := merkleLevel_length c level
    have hpos := length_pos_iff.mpr hne
    by_cases hmore : level.length > 1
    · obtain ⟨k, hk⟩ := ih (merkleLevel c level) (length_pos_iff.mp (by omega)) (by omega)
      exact ⟨k + 1, by rw [iterate_succ_apply, hk, getLastD_merkleLevels hmore]⟩
    · obtain ⟨a, rfl⟩ := length_eq_one_iff.mp (by omega : level.length = 1)
      exact ⟨0, rfl⟩

section Binding

variable (hinj : Injective2 c.hashPair)
include hinj

theorem nodup_merkleLevel : ∀ {level : List Uint256}, level.Nodup → (merkleLevel c level).Nodup
  | [], _ => nodup_nil
  | [_], _ => nodup_singleton _
  | a :: b :: rest, hnd => by
    rw [nodup_cons] at hnd
    refine nodup_cons.mpr ⟨fun hmem => ?_, nodup_merkleLevel (nodup_cons.mp hnd.2).2⟩
    obtain ⟨x, hx, y, -, heq⟩ := mem_merkleLevel hmem
    obtain ⟨rfl, -⟩ := hinj heq
    exact hnd.1 (mem_cons_of_mem b hx)

/-- Without repetitions a level is determined by the level above it. -/
theorem merkleLevel_injective : ∀ {l l' : List Uint256}, l.Nodup → l'.Nodup →
    merkleLevel c l = merkleLevel c l' → l = l'
  | [], [], _, _, _ => rfl
  | [], [_], _, _, h => by simp [merkleLevel] at h
  | [], _ :: _ :: _, _, _, h => by simp [merkleLevel] at h
  | [_], [], _, _, h => by simp [merkleLevel] at h
  | _ :: _ :: _, [], _, _, h => by simp [merkleLevel] at h
  | [a], [b], _, _, h => by
    obtain ⟨rfl, -⟩ := hinj (cons.inj h).1
    rfl
  | [a], x :: y :: rest, _, hnd, h => by
    obtain ⟨rfl, rfl⟩ := hinj (cons.inj h).1
    simp at hnd
  | x :: y :: rest, [a], hnd, _, h => by
    obtain ⟨rfl, rfl⟩ := hinj (cons.inj h).1
    simp at hnd
  | a :: b :: rest, x :: y :: rest', hnd, hnd', h => by
    obtain ⟨hpair, htail⟩ := cons.inj h
    obtain ⟨rfl, rfl⟩ := hinj hpair
    rw [merkleLevel_injective (hnd.sublist (by simp)) (hnd'.sublist (by simp)) htail]

theorem iterate_merkleLevel_injective (k : Nat) : ∀ {l l' : List Uint256}, l.Nodup → l'.Nodup →
    (merkleLevel c)^[k] l = (merkleLevel c)^[k] l' → l = l' := by
  induction k with
  | zero => exact fun _ _ => id
  | succ k ih =>
    intro l l' hnd hnd' h
    exact merkleLevel_injective hinj hnd hnd'
      (ih (nodup_merkleLevel hinj hnd) (nodup_merkleLevel hinj hnd') h)

theorem nodup_iterate_merkleLevel (k : Nat) {l : List Uint256} (h : l.Nodup) :
    ((merkleLevel c)^[k] l).Nodup := by
  induction k with
  | zero => exact h
  | succ k ih =>
    rw [iterate_succ_apply']
    exact nodup_merkleLevel hinj ih

/-- Of two lists of ids with the same root the one with fewer levels is a level above the other. -/
theorem txIds_eq_of_le {b b' : CBlock} {k k' : Nat} {root : Uint256}
    (hids : ∀ tx x y, c.txHash tx ≠ c.hashPair x y) (hb : b.vtx ≠ [] ∧ (b.vtx.map c.txHash).Nodup)
    (hb' : (b'.vtx.map c.txHash).Nodup) (hk : (merkleLevel c)^[k] (b.vtx.map c.txHash) = [root])
    (hk' : (merkleLevel c)^[k'] (b'.vtx.map c.txHash) = [root]) (hle : k ≤ k') :
    b.vtx.map c.txHash = b'.vtx.map c.txHash := by
  obtain ⟨j, rfl⟩ := Nat.exists_eq_add_of_le hle
  rw [← hk, iterate_add_apply] at hk'
  have hlevel := iterate_merkleLevel_injective hinj k (nodup_iterate_merkleLevel hinj j hb') hb.2
    hk'
  cases j with
  | zero => exact hlevel.symm
  | succ j =>
    obtain ⟨tx, _, hvtx⟩ := exists_cons_of_ne_nil hb.1
    rw [iterate_succ_apply'] at hlevel
    have hmem : c.txHash tx ∈ b.vtx.map c.txHash := by simp [hvtx]
    rw [← hlevel] at hmem
    obtain ⟨x, -, y, -, heq⟩ := mem_merkleLevel hmem
    exact absurd heq (hids tx x y)

end Binding

/-- **The merkle root binds the list of transaction ids** of a block that is not empty and repeats
no id, as `CheckBlock` tests. -/
theorem merkleRoot_binds {b b' : CBlock} (hinj : Injective2 c.hashPair)
    (hids : ∀ tx x y, c.txHash tx ≠ c.hashPair x y)
    (hb : b.vtx ≠ [] ∧ (b.vtx.map c.txHash).Nodup) (hb' : b'.vtx ≠ [] ∧ (b'.vtx.map c.txHash).Nodup)
    (hroot : buildMerkleTree c b = buildMerkleTree c b') :
    b.vtx.map c.txHash = b'.vtx.map c.txHash := by
  obtain ⟨k, hk⟩ := exists_iterate_merkleLevel b.vtx.length (b.vtx.map c.txHash)
    (by simpa using hb.1) (by simp)
  obtain ⟨k', hk'⟩ := exists_iterate_merkleLevel b'.vtx.length (b'.vtx.map c.txHash)
    (by simpa using hb'.1) (by simp)
  simp only [buildMerkleTree, merkleTree] at hroot
  rcases le_total k k' with hle | hle
  · exact txIds_eq_of_le hinj hids hb hb'.2 hk (hroot ▸ hk') hle
  · exact (txIds_eq_of_le hinj hids hb' hb.2 hk' (hroot ▸ hk) hle).symm

def parityCrypto : Crypto where
  txHash tx := 2 * tx.nTime
  scryptBlockhash _ := 0
  hashPair x y := 2 * Nat.pair x y + 1
  hashKernel _ _ _ _ _ _ := 0

def timedTx (nTime : Nat) : CTransaction := { (default : CTransaction) with nTime := nTime }

def threeTxBlock (nNonce : Nat) : CBlock :=
  { (default : CBlock) with nNonce := nNonce, vtx := [1, 2, 3].map timedTx }

/-- Pairs collide neither with each other nor with transactions. -/
structure CollisionFree (c : Crypto) : Prop where
  hashPair_injective : Injective2 c.hashPair
  txHash_ne : ∀ tx x y, c.txHash tx ≠ c.hashPair x y

theorem collisionFree_parityCrypto : CollisionFree parityCrypto where
  hashPair_injective := by
    intro x x' y y' h
    exact Nat.pair_eq_pair.mp (by simpa [parityCrypto] using h)
  txHash_ne := by
    intro tx x y h
    have hparity : 2 * tx.nTime = 2 * Nat.pair x y + 1 := h
    omega

theorem merkleRoot_binds_three :
    (threeTxBlock 0).vtx ≠ [] ∧ (threeTxBlock 0).vtx.map parityCrypto.txHash
      = (threeTxBlock 7).vtx.map parityCrypto.txHash :=
  ⟨by decide, merkleRoot_binds collisionFree_parityCrypto.hashPair_injective
    collisionFree_parityCrypto.txHash_ne (by decide) (by decide) rfl⟩

/-! ## Membership -/

/-- A branch that leads to the root starts at a node of the tree. -/
theorem mem_level_of_checkMerkleBranch (hc : CollisionFree c) {txs : List CTransaction} {k : Nat}
    {root : Uint256} (hk : (merkleLevel c)^[k] (txs.map c.txHash) = [root])
    (branch : List Uint256) : ∀ {h i}, checkMerkleBranch c h branch i = root →
      ∃ t, h ∈ (merkleLevel c)^[t] (txs.map c.txHash) := by
  induction branch with
  | nil => exact fun h => ⟨k, by rw [hk, ← h]; exact mem_singleton_self _⟩
  | cons x branch ih =>
    intro h i heq
    obtain ⟨t, ht⟩ := ih heq
    cases t with
    | zero =>
      obtain ⟨tx, -, htx⟩ := mem_map.mp ht
      split at htx <;> exact absurd htx (hc.txHash_ne _ _ _)
    | succ t =>
      -- the node above is the hash of two nodes of level `t`, and of nothing else
      rw [iterate_succ_apply'] at ht
      obtain ⟨a, ha, b, hb, hab⟩ := mem_merkleLevel ht
      refine ⟨t, ?_⟩
      split at hab
      · rwa [(hc.hashPair_injective hab).2]
      · rwa [(hc.hashPair_injective hab).1]

/-- **A merkle branch proves membership.** Some branch leads `CheckMerkleBranch` from a transaction
to the root of a block if and only if the block has that transaction. -/
theorem checkMerkleBranch_iff_mem (hc : CollisionFree c) {b : CBlock} (hb : b.vtx ≠ [])
    (tx : CTransaction) :
    (∃ vMerkleBranch nIndex, checkMerkleBranch c (c.txHash tx) vMerkleBranch nIndex
        = buildMerkleTree c b) ↔ c.txHash tx ∈ b.vtx.map c.txHash := by
  constructor
  · rintro ⟨branch, i, h⟩
    obtain ⟨k, hk⟩ := exists_iterate_merkleLevel (c := c) b.vtx.length (b.vtx.map c.txHash)
      (by simpa using hb) (by simp)
    obtain ⟨t, ht⟩ := mem_level_of_checkMerkleBranch hc hk branch h
    cases t with
    | zero => exact ht
    | succ t =>
      rw [iterate_succ_apply'] at ht
      obtain ⟨x, -, y, -, heq⟩ := mem_merkleLevel ht
      exact absurd heq (hc.txHash_ne tx x y)
  · intro hmem
    obtain ⟨i, hi, hget⟩ := mem_iff_getElem.mp hmem
    rw [← hget, ← getD_eq_getElem _ 0 hi]
    exact ⟨_, i, checkMerkleBranch_from _ _ [] i (by simp) hi⟩

/-- The second transaction of the block has a branch; one that is not in the block has none. -/
theorem checkMerkleBranch_iff_mem_three :
    (∃ vMerkleBranch nIndex, checkMerkleBranch parityCrypto (parityCrypto.txHash (timedTx 2))
        vMerkleBranch nIndex = buildMerkleTree parityCrypto (threeTxBlock 0)) ∧
      ¬∃ vMerkleBranch nIndex, checkMerkleBranch parityCrypto (parityCrypto.txHash (timedTx 4))
        vMerkleBranch nIndex = buildMerkleTree parityCrypto (threeTxBlock 0) := by
  have hiff := checkMerkleBranch_iff_mem collisionFree_parityCrypto
    (by decide : (threeTxBlock 0).vtx ≠ [])
  exact ⟨(hiff (timedTx 2)).mpr (by decide), fun h => absurd ((hiff (timedTx 4)).mp h) (by decide)⟩

end HoboNickels

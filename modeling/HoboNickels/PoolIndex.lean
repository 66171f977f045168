import HoboNickels.PoolConsistency

/-!
# The memory pool's index of spent outputs

`addUnchecked` links every input of the new transaction in `mapNextTx` over whatever was there, and
`remove` unlinks every input of the transaction it is given. `mapNextTx` is nevertheless the exact
inverse of `mapTx` (`mempool_index_exact`): by the checks of `AcceptToMemoryPool` the outputs spent
are not linked yet, and no two inputs of one transaction spend the same output.
-/

namespace HoboNickels

open Fallible List Function CTxMemPool

variable {env : Env} {w : World} {pool : CTxMemPool} {tx : CTransaction}

namespace CTxMemPool

variable {o : COutPoint}

theorem linkInputs_eq_some {hash : Uint256} {p : CInPoint} {l : List CTxIn} {i : Nat}
    {next : COutPoint → Option CInPoint} (hnodup : (l.map (·.prevout)).Nodup) :
    linkInputs hash i l next o = some p ↔
      (∃ k, (l.map (·.prevout))[k]? = some o ∧ p = ⟨hash, i + k⟩) ∨
        o ∉ l.map (·.prevout) ∧ next o = some p := by
  induction l generalizing i next with
  | nil => simp [linkInputs]
  | cons a rest ih =>
    rw [map_cons, nodup_cons] at hnodup
    rw [linkInputs, map_cons, ← Nat.or_exists_add_one, ih hnodup.2]
    generalize rest.map (·.prevout) = os at hnodup
    by_cases ha : o = a.prevout
    · subst ha
      have hnone : ∀ k, os[k]? ≠ some a.prevout := fun k hk => hnodup.1 (mem_of_getElem? hk)
      simp [hnodup.1, hnone, eq_comm]
    · simp [ha, Ne.symm ha, Nat.add_assoc, Nat.add_comm 1]

theorem unlinkInputs_apply (l : List CTxIn) (o : COutPoint) :
    ∀ next : COutPoint → Option CInPoint,
      l.foldl (fun (next : COutPoint → Option CInPoint) (txin : CTxIn) =>
          update next txin.prevout none) next o =
        if o ∈ l.map (·.prevout) then none else next o := by
  induction l with
  | nil => simp
  | cons a rest ih =>
    intro next
    rw [foldl_cons, ih]
    by_cases ha : o = a.prevout
    · simp [ha]
    · simp [ha]

/-! ## The invariant -/

def inputAt (pool : CTxMemPool) (p : CInPoint) : Option COutPoint :=
  (pool.mapTx p.hash).bind fun tx => (tx.vin[p.n]?).map (·.prevout)

theorem inputAt_eq_some {p : CInPoint} : pool.inputAt p = some o ↔
      ∃ tx txin, pool.mapTx p.hash = some tx ∧ tx.vin[p.n]? = some txin ∧ txin.prevout = o := by
  simp [inputAt, Option.bind_eq_some_iff]

/-- Every transaction stands under its id, and the links invert the inputs. -/
structure Indexed (env : Env) (pool : CTxMemPool) : Prop where
  named : ∀ h tx, pool.mapTx h = some tx → env.txHash tx = h
  linked : ∀ o p, pool.mapNextTx o = some p ↔ pool.inputAt p = some o

namespace Indexed

theorem empty : Indexed env empty where
  named := by rintro _ _ ⟨⟩
  linked := by
    intro o p
    constructor
    · rintro ⟨⟩
    · rintro ⟨⟩

theorem inputAt_inj (hpool : Indexed env pool) {p q : CInPoint}
    (hp : pool.inputAt p = some o) (hq : pool.inputAt q = some o) : p = q := by
  have hlink := (hpool.linked o p).mpr hp
  rw [(hpool.linked o q).mpr hq] at hlink
  exact (Option.some.inj hlink).symm

theorem addUnchecked (hpool : Indexed env pool)
    (hfresh : pool.mapTx (env.txHash tx) = none) (hnodup : (tx.vin.map (·.prevout)).Nodup)
    (hunlinked : ∀ txin ∈ tx.vin, pool.mapNextTx txin.prevout = none) :
    Indexed env (pool.addUnchecked (env.txHash tx) tx) := by
  have hinput : ∀ p, (pool.addUnchecked (env.txHash tx) tx).inputAt p =
      if p.hash = env.txHash tx then (tx.vin[p.n]?).map (·.prevout) else pool.inputAt p := by
    intro p
    by_cases hp : p.hash = env.txHash tx
    · simp [inputAt, CTxMemPool.addUnchecked, hp]
    · simp [inputAt, CTxMemPool.addUnchecked, hp]
  constructor
  · intro h x hx
    obtain ⟨rfl, ⟨⟩⟩ | ⟨-, hx⟩ := update_eq_some hx
    · rfl
    · exact hpool.named h x hx
  · intro o p
    have hlink : (pool.addUnchecked (env.txHash tx) tx).mapNextTx o = some p ↔ _ :=
      linkInputs_eq_some hnodup
    rw [hinput, hlink]
    split
    next hhash =>
      -- nothing of the old pool stands under the id
      have hold : pool.mapNextTx o ≠ some p := by
        rw [Ne, hpool.linked]
        simp [inputAt, hhash, hfresh]
      simp only [hold, and_false, or_false, ← getElem?_map]
      constructor
      · rintro ⟨k, hk, rfl⟩
        simpa using hk
      · intro hk
        exact ⟨p.n, hk, by rw [zero_add, ← hhash]⟩
    next hne =>
      rw [hpool.linked]
      constructor
      · rintro (⟨k, -, rfl⟩ | ⟨-, hp⟩)
        · exact absurd rfl hne
        · exact hp
      · refine fun hp => .inr ⟨fun ho => ?_, hp⟩
        obtain ⟨txin, hin, rfl⟩ := mem_map.mp ho
        rw [← hpool.linked, hunlinked txin hin] at hp
        cases hp

theorem mem_vin_iff (hpool : Indexed env pool) {p : CInPoint}
    (hpooled : pool.mapTx (env.txHash tx) = some tx) (hp : pool.inputAt p = some o) :
    o ∈ tx.vin.map (·.prevout) ↔ p.hash = env.txHash tx := by
  constructor
  · intro ho
    obtain ⟨txin, hin, rfl⟩ := mem_map.mp ho
    obtain ⟨k, hk⟩ := mem_iff_getElem?.mp hin
    have hown : pool.inputAt ⟨env.txHash tx, k⟩ = some txin.prevout := by
      simp [inputAt, hpooled, hk]
    rw [hpool.inputAt_inj hp hown]
  · intro hhash
    obtain ⟨x, txin, hx, hin, rfl⟩ := inputAt_eq_some.mp hp
    rw [hhash, hpooled] at hx
    cases hx
    exact mem_map_of_mem (mem_of_getElem? hin)

theorem remove (hpool : Indexed env pool)
    (hsame : ∀ tx', pool.mapTx (env.txHash tx) = some tx' → tx' = tx) :
    Indexed env (pool.remove env tx) := by
  cases hpooled : pool.mapTx (env.txHash tx) with
  | none => simpa [CTxMemPool.remove, hpooled] using hpool
  | some tx' =>
    obtain rfl := hsame tx' hpooled
    have hremove : pool.remove env tx' =
        { mapTx := update pool.mapTx (env.txHash tx') none
          mapNextTx := tx'.vin.foldl (fun next txin => update next txin.prevout none)
            pool.mapNextTx } := by
      simp [remove, hpooled]
    have hinput : ∀ p, (pool.remove env tx').inputAt p =
        if p.hash = env.txHash tx' then none else pool.inputAt p := by
      intro p
      by_cases hp : p.hash = env.txHash tx'
      · simp [inputAt, hremove, hp]
      · simp [inputAt, hremove, hp]
    constructor
    · intro h x hx
      rw [hremove] at hx
      obtain ⟨-, ⟨⟩⟩ | ⟨-, hx⟩ := update_eq_some hx
      exact hpool.named h x hx
    · intro o p
      rw [hinput, hremove]
      simp only [unlinkInputs_apply]
      rw [Option.ite_none_left_eq_some, Option.ite_none_left_eq_some, hpool.linked]
      exact and_congr_left fun hp => not_congr (hpool.mem_vin_iff hpooled hp)

end Indexed

end CTxMemPool

theorem Node.acceptToMemoryPool_fresh {n : Node} (h : n.acceptToMemoryPool env w tx = .ok pool) :
    pool = n.mempool.addUnchecked (env.txHash tx) tx ∧
      n.mempool.mapTx (env.txHash tx) = none ∧ (tx.vin.map (·.prevout)).Nodup ∧
      ∀ txin ∈ tx.vin, n.mempool.mapNextTx txin.prevout = none := by
  obtain ⟨hpool, haccepted⟩ := acceptToMemoryPool_ok h
  exact ⟨hpool, haccepted.notPooled, (CTransaction.checkTransaction_ok haccepted.checked).1,
    haccepted.unlinked⟩

/-! ## Runs -/

inductive PoolCall where
  | accept (chain : ChainState) (w : World) (tx : CTransaction)
  | remove (tx : CTransaction)
  | clear

namespace PoolCall

def tx? : PoolCall → Option CTransaction
  | .accept _ _ tx => some tx
  | .remove tx => some tx
  | .clear => none

def run (env : Env) (pool : CTxMemPool) : PoolCall → CTxMemPool
  | .accept chain w tx => (Node.tryAccept env w ⟨chain, pool⟩ tx).mempool
  | .remove tx => pool.remove env tx
  | .clear => pool.clear

def IdsDistinct (env : Env) (calls : List PoolCall) : Prop :=
  ∀ a ∈ calls.filterMap tx?, ∀ b ∈ calls.filterMap tx?, env.txHash a = env.txHash b → a = b

theorem mapTx_run {call : PoolCall} {h : Uint256} (hin : (call.run env pool).mapTx h = some tx) :
    pool.mapTx h = some tx ∨ call.tx? = some tx := by
  cases call with
  | accept chain w x =>
    simp only [run, Node.tryAccept] at hin
    split at hin
    next pool' hok =>
      obtain ⟨rfl, -⟩ := Node.acceptToMemoryPool_fresh hok
      simp only [addUnchecked] at hin
      obtain ⟨-, hin⟩ | ⟨-, hin⟩ := update_eq_some hin
      · exact .inr hin
      · exact .inl hin
    · exact .inl hin
  | remove x =>
    simp only [run, CTxMemPool.remove] at hin
    split at hin
    · by_cases hh : h = env.txHash x
      · subst hh
        simp at hin
      · simp only [update_of_ne hh] at hin
        exact .inl hin
    · exact .inl hin
  | clear => cases hin

theorem indexed_run {call : PoolCall} (hpool : pool.Indexed env)
    (hsame : ∀ tx tx', call.tx? = some tx → pool.mapTx (env.txHash tx) = some tx' → tx' = tx) :
    (call.run env pool).Indexed env := by
  cases call with
  | accept chain w tx =>
    simp only [run, Node.tryAccept]
    split
    next pool' hok =>
      obtain ⟨rfl, hfresh, hnodup, hunlinked⟩ := Node.acceptToMemoryPool_fresh hok
      exact hpool.addUnchecked hfresh hnodup hunlinked
    · exact hpool
  | remove tx => exact hpool.remove (hsame tx · rfl)
  | clear => exact CTxMemPool.Indexed.empty

theorem indexed_foldl (calls : List PoolCall) (hids : IdsDistinct env calls) :
    (calls.foldl (run env) empty).Indexed env := by
  refine (foldlRecOn calls _ (motive := fun pool : CTxMemPool => pool.Indexed env ∧
    ∀ h tx, pool.mapTx h = some tx → tx ∈ calls.filterMap tx?)
    ⟨.empty, by rintro _ _ ⟨⟩⟩ ?_).1
  rintro pool ⟨hpool, hseen⟩ call hcall
  have hmem : ∀ tx, call.tx? = some tx → tx ∈ calls.filterMap tx? := fun tx htx =>
    mem_filterMap.mpr ⟨call, hcall, htx⟩
  constructor
  · apply indexed_run hpool
    intro tx tx' htx htx'
    exact hids tx' (hseen _ _ htx') tx (hmem tx htx) (hpool.named _ _ htx')
  intro h tx htx
  rcases mapTx_run htx with hold | hnew
  · exact hseen h tx hold
  · exact hmem tx hnew

end PoolCall

def poolAfter (env : Env) (calls : List PoolCall) : CTxMemPool :=
  calls.foldl (PoolCall.run env) empty

/-- **The index of spent outputs is exact.** After any calls on an empty pool, `mapNextTx` leads
from `o` to input `i` of `tx` if and only if `tx` is pooled and its input `i` spends `o`; and no
output is spent twice. -/
theorem mempool_index_exact (env : Env) (calls : List PoolCall)
    (hids : PoolCall.IdsDistinct env calls) :
    (∀ (o : COutPoint) (h : Uint256) (i : Nat), (poolAfter env calls).mapNextTx o = some ⟨h, i⟩ ↔
      ∃ (tx : CTransaction) (txin : CTxIn), (poolAfter env calls).mapTx h = some tx ∧
        tx.vin[i]? = some txin ∧ txin.prevout = o) ∧
    ∀ (h h' : Uint256) (i i' : Nat) (tx tx' : CTransaction) (txin txin' : CTxIn),
      (poolAfter env calls).mapTx h = some tx → tx.vin[i]? = some txin →
      (poolAfter env calls).mapTx h' = some tx' → tx'.vin[i']? = some txin' →
      txin.prevout = txin'.prevout → h = h' ∧ i = i' := by
  have hindexed : (poolAfter env calls).Indexed env := PoolCall.indexed_foldl calls hids
  constructor
  · intro o h i
    rw [hindexed.linked, inputAt_eq_some]
  intro h h' i i' tx tx' txin txin' htx hin htx' hin' ho
  have hp : (poolAfter env calls).inputAt ⟨h, i⟩ = some txin.prevout :=
    inputAt_eq_some.mpr ⟨tx, txin, htx, hin, rfl⟩
  have hq : (poolAfter env calls).inputAt ⟨h', i'⟩ = some txin.prevout :=
    inputAt_eq_some.mpr ⟨tx', txin', htx', hin', ho.symm⟩
  cases hindexed.inputAt_inj hp hq
  exact ⟨rfl, rfl⟩

def twoSpends : List PoolCall :=
  [.accept eightBlocks.chain (nineWorld (spendCoinbase 100 2)) (spendCoinbase 100 2),
   .accept eightBlocks.chain (nineWorld (spendCoinbase 100 2)) (spendCoinbase 101 3),
   .remove (spendCoinbase 100 2)]

theorem mempool_index_exact_twoSpends :
    (poolAfter sampleEnv twoSpends).mapNextTx ⟨3, 0⟩ = some ⟨101, 0⟩ := by
  have hids : PoolCall.IdsDistinct sampleEnv twoSpends := by
    unfold PoolCall.IdsDistinct
    decide +kernel
  refine ((mempool_index_exact sampleEnv twoSpends hids).1 ⟨3, 0⟩ 101 0).mpr ?_
  exact ⟨spendCoinbase 101 3, ⟨⟨3, 0⟩, [], uint32Max⟩, by decide +kernel, rfl, rfl⟩

end HoboNickels

import Mathlib

/-!
# The address manager

`CAddrMan` keeps the known addresses in "new" buckets (sets of ids) and "tried" buckets (vectors of
ids), indexed by `mapInfo`, `mapAddr` and `vRandom`. `Consistent` gathers what `Check_` tests and
the capacities of the buckets. Inside `Add_` one reference is counted before it stands in its bucket
while `ShrinkNew` deletes other entries; the invariant has that pending reference as a parameter.

A failed `assert` is `none`; the hashes that choose a bucket are arbitrary functions.
-/

namespace HoboNickels.AddrMan

open Finset Function List

/-- `CAddrInfo`: an address (`CNetAddr`) with its port and what is known about it. -/
structure CAddrInfo where
  addr : Nat
  port : Nat
  nServices : Nat
  nTime : Int
  source : Nat
  nLastSuccess : Int
  nLastTry : Int
  nAttempts : Int
  nRefCount : Int
  fInTried : Bool
  nRandomPos : Nat
  deriving DecidableEq

structure CAddress where
  addr : Nat
  port : Nat
  nServices : Nat
  nTime : Int

structure Hashes where
  tried : Nat → Nat → Nat
  new : Nat → Nat → Nat
  isRoutable : Nat → Bool

/-- What a call reads besides its arguments: the adjusted time and its random numbers. -/
structure Ambient where
  nNow : Int
  rand : Nat → Nat

namespace CAddrInfo

def getTriedBucket (info : CAddrInfo) (h : Hashes) : Fin 64 :=
  Fin.ofNat 64 (h.tried info.addr info.port)

def getNewBucket (info : CAddrInfo) (h : Hashes) (src : Nat) : Fin 256 :=
  Fin.ofNat 256 (h.new info.addr src)

def isTerrible (info : CAddrInfo) (nNow : Int) : Bool :=
  if info.nLastTry ≠ 0 ∧ nNow - 60 ≤ info.nLastTry then false
  else if nNow + 10 * 60 < info.nTime then true
  else if info.nTime = 0 ∨ 30 * 86400 < nNow - info.nTime then true
  else if info.nLastSuccess = 0 ∧ 3 ≤ info.nAttempts then true
  else decide (7 * 86400 < nNow - info.nLastSuccess ∧ 10 ≤ info.nAttempts)

end CAddrInfo

/-! ## The tables -/

structure CAddrMan where
  nIdCount : Nat
  mapInfo : Nat → Option CAddrInfo
  mapAddr : Nat → Option Nat
  vRandom : List Nat
  nTried : Int
  vvTried : Fin 64 → List Nat
  nNew : Int
  vvNew : Fin 256 → Finset Nat

def refsIn (vvNew : Fin 256 → Finset Nat) (id : Nat) : Int := ∑ b, if id ∈ vvNew b then 1 else 0

def slotsIn (vvTried : Fin 64 → List Nat) (id : Nat) : Int := ∑ b, ((vvTried b).count id : Int)

def toUInt (n : Int) : Int := n % 2 ^ 32

namespace CAddrMan

def empty : CAddrMan := ⟨0, fun _ => none, fun _ => none, [], 0, fun _ => [], 0, fun _ => ∅⟩

variable (m : CAddrMan)

def setInfo (id : Nat) (info : CAddrInfo) : CAddrMan :=
  { m with mapInfo := update m.mapInfo id (some info) }

def find (addr : Nat) : Option (Nat × CAddrInfo) :=
  (m.mapAddr addr).bind fun id => (m.mapInfo id).map (id, ·)

/-- The entry that `Create` makes, with the time penalty `Add_` takes off. -/
def newInfo (addr : CAddress) (source : Nat) (nTimePenalty : Int) : CAddrInfo :=
  { addr := addr.addr, port := addr.port, nServices := addr.nServices
    nTime := toUInt (max 0 (addr.nTime - nTimePenalty)), source := source, nLastSuccess := 0
    nLastTry := 0, nAttempts := 0, nRefCount := 0, fInTried := false
    nRandomPos := m.vRandom.length }

def create (info : CAddrInfo) : CAddrMan :=
  { m with
    nIdCount := m.nIdCount + 1
    mapInfo := update m.mapInfo m.nIdCount (some info)
    mapAddr := update m.mapAddr info.addr (some m.nIdCount)
    vRandom := m.vRandom ++ [m.nIdCount] }

def swapRandom (nRndPos1 nRndPos2 : Nat) : Option CAddrMan :=
  if nRndPos1 = nRndPos2 then some m
  else match m.vRandom[nRndPos1]?, m.vRandom[nRndPos2]? with
    | some nId1, some nId2 =>
      match m.mapInfo nId1, m.mapInfo nId2 with
      | some info1, some info2 =>
        some { m with
          mapInfo := update (update m.mapInfo nId1 (some { info1 with nRandomPos := nRndPos2 }))
            nId2 (some { info2 with nRandomPos := nRndPos1 })
          vRandom := (m.vRandom.set nRndPos1 nId2).set nRndPos2 nId1 }
      | _, _ => none
    | _, _ => none

/-- The loop of `SelectTried`: the shuffled bucket and the chosen place, with its id. -/
def selectTried (m : CAddrMan) (a : Ambient) : Nat → Nat → List Nat → Option (Nat × Nat) →
    Option (List Nat × Nat)
  | 0, _, vTried, oldest => oldest.map fun o => (vTried, o.2)
  | k + 1, i, vTried, oldest =>
    if i < vTried.length then
      let nPos := a.rand (i + 1) % (vTried.length - i) + i
      let nTemp := vTried.getD nPos 0
      let vTried := (vTried.set nPos (vTried.getD i 0)).set i nTemp
      match oldest with
      | none => m.selectTried a k (i + 1) vTried (some (nTemp, nPos))
      | some (nOldest, nOldestPos) =>
        match m.mapInfo nTemp, m.mapInfo nOldest with
        | some info, some infoOldest =>
          m.selectTried a k (i + 1) vTried (some (if info.nLastSuccess < infoOldest.nLastSuccess
            then (nTemp, nPos) else (nOldest, nOldestPos)))
        | _, _ => none
    else oldest.map fun o => (vTried, o.2)

/-- `ShrinkNew` takes one reference of `id` out of bucket `b`, and the last one deletes the
entry. -/
def unref (b : Fin 256) (id : Nat) : Option CAddrMan :=
  match m.mapInfo id with
  | none => none
  | some info =>
    let m := m.setInfo id { info with nRefCount := info.nRefCount - 1 }
    let shrunk := update m.vvNew b ((m.vvNew b).erase id)
    if info.nRefCount - 1 = 0 then
      (m.swapRandom info.nRandomPos (m.vRandom.length - 1)).map fun m =>
        { m with
          vRandom := m.vRandom.dropLast
          mapAddr := update m.mapAddr info.addr none
          mapInfo := update m.mapInfo id none
          nNew := m.nNew - 1
          vvNew := shrunk }
    else some { m with vvNew := shrunk }

/-- The first loop of `ShrinkNew`; the outer `none` is a failed `assert`. -/
def firstTerrible (m : CAddrMan) (nNow : Int) : List Nat → Option (Option Nat)
  | [] => some none
  | id :: rest => (m.mapInfo id).bind fun info =>
    if info.isTerrible nNow then some (some id) else m.firstTerrible nNow rest

/-- The second loop of `ShrinkNew`, over the ids at the four drawn places. -/
def oldestOf (m : CAddrMan) : List Nat → Option Nat → Option Nat
  | [], nOldest => nOldest
  | id :: rest, none => m.oldestOf rest (some id)
  | id :: rest, some nOldest => (m.mapInfo id).bind fun info => (m.mapInfo nOldest).bind fun old =>
    m.oldestOf rest (some (if info.nTime < old.nTime then id else nOldest))

def shrinkNew (a : Ambient) (b : Fin 256) : Option CAddrMan :=
  let vNew := (m.vvNew b).sort (· ≤ ·)
  (m.firstTerrible a.nNow vNew).bind fun
    | some id => m.unref b id
    | none =>
      let n := (List.range 4).map fun k => a.rand (k + 1) % vNew.length
      (m.oldestOf ((vNew.zipIdx.filter fun e => e.2 ∈ n).map Prod.fst) none).bind (m.unref b)

variable (h : Hashes) (a : Ambient)

def makeTried (info : CAddrInfo) (nId : Nat) (nOrigin : Fin 256) : Option CAddrMan :=
  if nId ∉ m.vvNew nOrigin ∨ info.nRefCount - refsIn m.vvNew nId ≠ 0 then none
  else
    let vvNew := fun b => (m.vvNew b).erase nId
    let nKBucket := info.getTriedBucket h
    let vTried := m.vvTried nKBucket
    let m := m.setInfo nId { info with nRefCount := 0, fInTried := true }
    if vTried.length < 64 then
      some { m with
        vvNew := vvNew, nNew := m.nNew - 1, nTried := m.nTried + 1
        vvTried := update m.vvTried nKBucket (vTried ++ [nId]) }
    else (m.selectTried a 4 0 vTried none).bind fun (vTried, nPos) =>
      let idOld := vTried.getD nPos 0
      (m.mapInfo idOld).map fun infoOld =>
        let nUBucket := infoOld.getNewBucket h infoOld.source
        let target := if (vvNew nUBucket).card < 64 then nUBucket else nOrigin
        { m.setInfo idOld { infoOld with fInTried := false, nRefCount := 1 } with
          vvNew := update vvNew target (insert idOld (vvNew target))
          nNew := m.nNew - 1 + 1
          vvTried := update m.vvTried nKBucket (vTried.set nPos nId) }

/-- `Find`, and the comparison with the exact `CService` that the callers make. -/
def withEntry (addr port : Nat) (f : Nat → CAddrInfo → Option CAddrMan) : Option CAddrMan :=
  match m.find addr with
  | none => some m
  | some (nId, info) => if info.port ≠ port then some m else f nId info

def good (addr port : Nat) (nTime : Int) : Option CAddrMan :=
  m.withEntry addr port fun nId info =>
    let info := { info with
      nLastSuccess := nTime, nLastTry := nTime, nTime := toUInt nTime, nAttempts := 0 }
    let m := m.setInfo nId info
    if info.fInTried then some m
    else
      match (List.range 256).find? fun n => nId ∈ m.vvNew (Fin.ofNat 256 (n + a.rand 0 % 256)) with
      | none => some m
      | some n => m.makeTried h a info nId (Fin.ofNat 256 (n + a.rand 0 % 256))

/-- The end of `Add_`: one more reference to the entry, in the bucket for this source. -/
def addRef (nId : Nat) (info : CAddrInfo) (source : Nat) : Option CAddrMan :=
  let b := info.getNewBucket h source
  if nId ∈ m.vvNew b then some m
  else
    let m := m.setInfo nId { info with nRefCount := info.nRefCount + 1 }
    (if (m.vvNew b).card = 64 then m.shrinkNew a b else some m).map fun m =>
      { m with vvNew := update m.vvNew b (insert nId (m.vvNew b)) }

def refresh (info : CAddrInfo) (a : Ambient) (addr : CAddress) (nTimePenalty : Int) : CAddrInfo :=
  let nUpdateInterval := if a.nNow - addr.nTime < 24 * 60 * 60 then 60 * 60 else 24 * 60 * 60
  { info with
    nTime := if addr.nTime ≠ 0 ∧
        (info.nTime = 0 ∨ info.nTime < addr.nTime - nUpdateInterval - nTimePenalty)
      then toUInt (max 0 (addr.nTime - nTimePenalty)) else info.nTime
    nServices := info.nServices ||| addr.nServices }

def add (addr : CAddress) (source : Nat) (nTimePenalty : Int) : Option CAddrMan :=
  if !h.isRoutable addr.addr then some m
  else match m.find addr.addr with
    | some (nId, info) =>
      let info := refresh info a addr nTimePenalty
      let m := m.setInfo nId info
      if addr.nTime = 0 ∨ (info.nTime ≠ 0 ∧ addr.nTime ≤ info.nTime) then some m
      else if info.fInTried ∨ info.nRefCount = 4 then some m
      else if a.rand 0 % 2 ^ info.nRefCount.toNat ≠ 0 then some m
      else m.addRef h a nId info source
    | none =>
      let info := m.newInfo addr source nTimePenalty
      { m.create info with nNew := m.nNew + 1 }.addRef h a m.nIdCount info source

def attempt (addr port : Nat) (nTime : Int) : Option CAddrMan :=
  m.withEntry addr port fun nId info =>
    some (m.setInfo nId { info with nLastTry := nTime, nAttempts := info.nAttempts + 1 })

def connected (addr port : Nat) (nTime : Int) : Option CAddrMan :=
  m.withEntry addr port fun nId info =>
    some (if 20 * 60 < nTime - info.nTime then m.setInfo nId { info with nTime := toUInt nTime }
      else m)

/-- The loop of `GetAddr_` from position `n`, for `k` more positions. -/
def getAddrLoop (a : Ambient) : Nat → Nat → CAddrMan → List CAddrInfo →
    Option (CAddrMan × List CAddrInfo)
  | 0, _, m, vAddr => some (m, vAddr)
  | k + 1, n, m, vAddr =>
    (m.swapRandom n (a.rand n % (m.vRandom.length - n) + n)).bind fun m =>
      (m.vRandom[n]?.bind m.mapInfo).bind fun info => getAddrLoop a k (n + 1) m (vAddr ++ [info])

def getAddr (a : Ambient) : Option (CAddrMan × List CAddrInfo) :=
  getAddrLoop a (min (23 * m.vRandom.length / 100) 2500) 0 m []

/-- The loops of `Select_`, one draw per round. `some none` is a loop that has not ended yet. -/
def selectLoop (m : CAddrMan) (bucket : Nat → List Nat) :
    List (Nat × Nat × Bool) → Option (Option CAddrInfo)
  | [] => some none
  | (nBucket, nPos, fAccept) :: rest =>
    let ids := bucket nBucket
    if ids.length = 0 then m.selectLoop bucket rest
    else (m.mapInfo (ids.getD (nPos % ids.length) 0)).bind fun info =>
      if fAccept then some (some info) else m.selectLoop bucket rest

def select (fTried : Bool) (draws : List (Nat × Nat × Bool)) : Option (Option CAddrInfo) :=
  if m.vRandom.length = 0 then some none
  else if fTried then m.selectLoop (fun n => m.vvTried (Fin.ofNat 64 n)) draws
  else m.selectLoop (fun n => (m.vvNew (Fin.ofNat 256 n)).sort (· ≤ ·)) draws

end CAddrMan

inductive Call where
  | add (addr : CAddress) (source : Nat) (nTimePenalty : Int)
  | good (addr port : Nat) (nTime : Int)
  | attempt (addr port : Nat) (nTime : Int)
  | connected (addr port : Nat) (nTime : Int)
  | getAddr
  | select (fTried : Bool) (draws : List (Nat × Nat × Bool))

def step (h : Hashes) (m : CAddrMan) : Ambient × Call → Option CAddrMan
  | (a, .add addr source nTimePenalty) => m.add h a addr source nTimePenalty
  | (a, .good addr port nTime) => m.good h a addr port nTime
  | (_, .attempt addr port nTime) => m.attempt addr port nTime
  | (_, .connected addr port nTime) => m.connected addr port nTime
  | (a, .getAddr) => (m.getAddr a).map Prod.fst
  | (_, .select fTried draws) => (m.select fTried draws).map fun _ => m

def run (h : Hashes) (calls : List (Ambient × Call)) : Option CAddrMan :=
  calls.foldlM (step h) CAddrMan.empty

/-! ## The invariant -/

variable {b : Fin 256} {f : Nat → Option CAddrInfo} {l : List Nat} {m : CAddrMan}

section Sums

theorem sum_update {n : Nat} {α : Type} (f : Fin n → α) (g : α → Int) (b : Fin n) (v : α) :
    ∑ j, g (update f b v j) = ∑ j, g (f j) - g (f b) + g v := by
  have h : (fun j => g (update f b v j)) = update (fun j => g (f j)) b (g v) :=
    comp_update g f b v
  rw [h, sum_update_of_mem (mem_univ b),
    sum_eq_sum_sdiff_singleton_add (mem_univ b) fun j => g (f j)]
  omega

theorem le_sum {n : Nat} (f : Fin n → Int) (hf : ∀ j, 0 ≤ f j) (b : Fin n) : f b ≤ ∑ j, f j :=
  single_le_sum (fun j _ => hf j) (mem_univ b)

variable {vvNew : Fin 256 → Finset Nat} {vvTried : Fin 64 → List Nat} {id : Nat}

theorem refsIn_update (b : Fin 256) (s : Finset Nat) : refsIn (update vvNew b s) id =
      refsIn vvNew id - (if id ∈ vvNew b then 1 else 0) + if id ∈ s then 1 else 0 :=
  sum_update vvNew (fun s => if id ∈ s then 1 else 0) b s

theorem slotsIn_update (b : Fin 64) (l : List Nat) : slotsIn (update vvTried b l) id =
      slotsIn vvTried id - (vvTried b).count id + l.count id :=
  sum_update vvTried (fun l => (l.count id : Int)) b l

theorem refsIn_pos (h : id ∈ vvNew b) : 1 ≤ refsIn vvNew id := by
  have hle := le_sum (fun b => if id ∈ vvNew b then 1 else 0) (fun j => by split <;> omega) b
  rwa [if_pos h] at hle

theorem slotsIn_pos {b : Fin 64} (h : id ∈ vvTried b) : 1 ≤ slotsIn vvTried id := by
  have hle := le_sum (fun b => ((vvTried b).count id : Int)) (fun j => by omega) b
  have hpos : 0 < (vvTried b).count id := count_pos_iff.mpr h
  exact le_trans (by omega) hle

end Sums

/-- What `Check_` tests of one entry, given the new buckets and the tried places it stands in. -/
structure EntryOk (refs slots : Int) (info : CAddrInfo) : Prop where
  refs : info.nRefCount = refs
  slots : slots = if info.fInTried then 1 else 0
  tried : info.fInTried → info.nRefCount = 0 ∧ 0 < info.nLastSuccess
  new : info.fInTried = false → 1 ≤ info.nRefCount ∧ info.nRefCount ≤ 4
  nLastTry : 0 ≤ info.nLastTry
  nLastSuccess : 0 ≤ info.nLastSuccess

def owed (pending : Option Nat) (id : Nat) : Int := if pending = some id then 1 else 0

def RandomOk (mapInfo : Nat → Option CAddrInfo) (vRandom : List Nat) : Prop :=
  ∀ p id : Nat, vRandom[p]? = some id ↔ (mapInfo id).map (·.nRandomPos) = some p

def Placed (refs slots : Int) : Option CAddrInfo → Prop
  | none => refs = 0 ∧ slots = 0
  | some info => EntryOk refs slots info

structure Indexed (m : CAddrMan) : Prop where
  random : RandomOk m.mapInfo m.vRandom
  address : ∀ a id, m.mapAddr a = some id ↔ (m.mapInfo id).map (·.addr) = some a
  fresh : ∀ id, m.nIdCount ≤ id → m.mapInfo id = none

structure Consistent (pending : Option Nat) (m : CAddrMan) : Prop extends Indexed m where
  placed : ∀ id, Placed (refsIn m.vvNew id + owed pending id) (slotsIn m.vvTried id) (m.mapInfo id)
  nTried : m.nTried = ∑ b, ((m.vvTried b).length : Int)
  size : (m.vRandom.length : Int) = m.nTried + m.nNew
  newCap : ∀ b, (m.vvNew b).card ≤ 64
  triedCap : ∀ b, (m.vvTried b).length ≤ 64

variable {id : Nat}

theorem placed_update {r s r' s' : Nat → Int}
    {o : Option CAddrInfo} (h : ∀ j, j ≠ id → Placed (r j) (s j) (f j))
    (hr : ∀ j, j ≠ id → r' j = r j) (hs : ∀ j, j ≠ id → s' j = s j)
    (ho : Placed (r' id) (s' id) o) (j : Nat) : Placed (r' j) (s' j) (update f id o j) := by
  by_cases hj : j = id
  · subst hj
    simpa using ho
  · simpa [hj, hr j hj, hs j hj] using h j hj

theorem owed_nonneg (pending : Option Nat) (id : Nat) : 0 ≤ owed pending id := by
  unfold owed
  split <;> omega

theorem Indexed.setInfo {info i' : CAddrInfo} (hx : Indexed m)
    (hi : m.mapInfo id = some info) (hr : i'.nRandomPos = info.nRandomPos)
    (ha : i'.addr = info.addr) : Indexed (m.setInfo id i') := by
  have hsame : ∀ {β : Type} (g : CAddrInfo → β), g i' = g info → ∀ j,
      ((m.setInfo id i').mapInfo j).map g = (m.mapInfo j).map g := by
    intro β g hg j
    by_cases hj : j = id
    · subst hj
      simp [CAddrMan.setInfo, hi, hg]
    · simp [CAddrMan.setInfo, hj]
  refine ⟨fun p j => ?_, fun a j => ?_, fun j hj => ?_⟩
  · rw [hsame (·.nRandomPos) hr]
    exact hx.random p j
  · rw [hsame (·.addr) ha]
    exact hx.address a j
  · simpa [hx.fresh j hj] using hsame (fun i => i.addr) ha j

namespace Consistent

variable {m : CAddrMan} {pending q : Option Nat} {id : Nat} {info info' : CAddrInfo}

theorem empty : Consistent none CAddrMan.empty where
  random p id := by simp [CAddrMan.empty]
  address a id := by simp [CAddrMan.empty]
  fresh id _ := rfl
  placed id := by simp [CAddrMan.empty, refsIn, slotsIn, Placed, owed]
  nTried := by simp [CAddrMan.empty]
  size := by simp [CAddrMan.empty]
  newCap b := by simp [CAddrMan.empty]
  triedCap b := by simp [CAddrMan.empty]

section

variable (hc : Consistent pending m)
include hc

theorem entry (hi : m.mapInfo id = some info) :
    EntryOk (refsIn m.vvNew id + owed pending id) (slotsIn m.vvTried id) info := by
  have h := hc.placed id
  rwa [hi] at h

theorem mem_new (hb : id ∈ m.vvNew b) :
    ∃ info, m.mapInfo id = some info ∧ info.fInTried = false := by
  have hpos := refsIn_pos hb
  have hpl := hc.placed id
  have howed := owed_nonneg pending id
  cases hi : m.mapInfo id with
  | none =>
    rw [hi] at hpl
    have := hpl.1
    omega
  | some info =>
    refine ⟨info, rfl, Bool.eq_false_iff.mpr fun ht => ?_⟩
    have he := hc.entry hi
    have h0 := (he.tried ht).1
    have := he.refs
    omega

theorem mem_tried {b : Fin 64} (hb : id ∈ m.vvTried b) :
    ∃ info, m.mapInfo id = some info ∧ info.fInTried = true := by
  have hpos := slotsIn_pos hb
  have hpl := hc.placed id
  cases hi : m.mapInfo id with
  | none =>
    rw [hi] at hpl
    have := hpl.2
    omega
  | some info =>
    refine ⟨info, rfl, ?_⟩
    have hs := (hc.entry hi).slots
    cases ht : info.fInTried with
    | true => rfl
    | false => simp [ht] at hs; omega

theorem setInfo (hi : m.mapInfo id = some info)
    (hq : ∀ j, j ≠ id → owed q j = owed pending j) (hr : info'.nRandomPos = info.nRandomPos)
    (ha : info'.addr = info.addr)
    (he : EntryOk (refsIn m.vvNew id + owed q id) (slotsIn m.vvTried id) info') :
    Consistent q (m.setInfo id info') :=
  { hc.toIndexed.setInfo hi hr ha, hc with
    placed := placed_update (fun j _ => hc.placed j)
      (fun j hj => by simp [CAddrMan.setInfo, hq j hj])
      (fun _ _ => rfl) he }

end

end Consistent

/-! ## Positions in `vRandom` -/

open CAddrMan

theorem swapRandom_spec {i j : Nat} (hm : RandomOk m.mapInfo m.vRandom)
    (hi : i < m.vRandom.length) (hj : j < m.vRandom.length) :
    ∃ f l, m.swapRandom i j = some { m with mapInfo := f, vRandom := l } ∧
      (∀ id, ∃ p, f id = (m.mapInfo id).map ({ · with nRandomPos := p })) ∧
      l.length = m.vRandom.length ∧ RandomOk f l ∧ l[j]? = m.vRandom[i]? := by
  by_cases hij : i = j
  · subst hij
    refine ⟨m.mapInfo, m.vRandom, by simp [swapRandom], fun id => ?_, rfl, hm, rfl⟩
    cases m.mapInfo id with
    | none => exact ⟨0, rfl⟩
    | some info => exact ⟨info.nRandomPos, rfl⟩
  obtain ⟨x, hx⟩ : ∃ x, m.vRandom[i]? = some x := ⟨_, getElem?_eq_getElem hi⟩
  obtain ⟨y, hy⟩ : ∃ y, m.vRandom[j]? = some y := ⟨_, getElem?_eq_getElem hj⟩
  obtain ⟨ix, hix, hpx⟩ := Option.map_eq_some_iff.mp ((hm i x).mp hx)
  obtain ⟨iy, hiy, hpy⟩ := Option.map_eq_some_iff.mp ((hm j y).mp hy)
  have hxy : x ≠ y := by
    rintro rfl
    have : ix = iy := Option.some.inj (hix.symm.trans hiy)
    exact hij (by rw [← hpx, ← hpy, this])
  refine ⟨update (update m.mapInfo x (some { ix with nRandomPos := j })) y
      (some { iy with nRandomPos := i }), (m.vRandom.set i y).set j x,
    by simp only [swapRandom, hij, if_false, hx, hy, hix, hiy], fun id => ?_,
    by simp, fun p id => ?_, by simp [hx, hj]⟩
  · by_cases h2 : id = y
    · exact ⟨i, by simp [h2, hiy]⟩
    by_cases h1 : id = x
    · exact ⟨j, by simp [h1, hxy, hix]⟩
    cases hid : m.mapInfo id with
    | none => exact ⟨0, by simp [h1, h2, hid]⟩
    | some info => exact ⟨info.nRandomPos, by simp [h1, h2, hid]⟩
  · have hp := hm p id
    grind

theorem Placed.reindex {refs slots : Int} {o o' : Option CAddrInfo} {p : Nat}
    (h : Placed refs slots o) (ho : o' = o.map ({ · with nRandomPos := p })) :
    Placed refs slots o' := by
  subst ho
  cases o with
  | none => exact h
  | some info => exact { (h : EntryOk refs slots info) with }

variable {pending : Option Nat}

theorem Consistent.reindex (hc : Consistent pending m)
    (hf : ∀ id, ∃ p, f id = (m.mapInfo id).map ({ · with nRandomPos := p }))
    (hl : l.length = m.vRandom.length) (hr : RandomOk f l) :
    Consistent pending { m with mapInfo := f, vRandom := l } :=
  { hc with
    random := hr
    address := fun a id => by
      obtain ⟨p, hp⟩ := hf id
      simpa [hp, comp_def] using hc.address a id
    fresh := fun id hid => by
      obtain ⟨p, hp⟩ := hf id
      simp [hp, hc.fresh id hid]
    placed := fun id => by
      obtain ⟨p, hp⟩ := hf id
      exact (hc.placed id).reindex hp
    size := by simpa [hl] using hc.size }

theorem RandomOk.dropLast (h : RandomOk f l) (hl : l[l.length - 1]? = some id) :
    RandomOk (update f id none) l.dropLast := by
  intro p j
  have hp := h p j
  have hlast := h (l.length - 1) id
  by_cases hj : j = id
  · grind
  · grind

theorem address_delete {mapAddr : Nat → Option Nat} {g : Nat → Option CAddrInfo}
    {info : CAddrInfo} (h : ∀ a j, mapAddr a = some j ↔ (f j).map (·.addr) = some a)
    (hi : f id = some info) (hg : ∀ j, j ≠ id → (g j).map (·.addr) = (f j).map (·.addr))
    (a j : Nat) : update mapAddr info.addr none a = some j ↔
      (update g id none j).map (·.addr) = some a := by
  have hown : mapAddr info.addr = some id := (h info.addr id).mpr (by rw [hi]; rfl)
  by_cases hj : j = id
  · subst hj
    by_cases ha : a = info.addr
    · simp [ha]
    · have hne : mapAddr a ≠ some j := fun e => ha (by simpa [hi] using ((h a j).mp e).symm)
      simp [ha, hne]
  · by_cases ha : a = info.addr
    · have hne : (f j).map (·.addr) ≠ some a := fun e => hj (by
        simpa [ha, hown] using ((h a j).mpr e).symm)
      simpa [ha, hj, hg j hj] using hne
    · simpa [ha, hj, hg j hj] using h a j

theorem unref_spec (hc : Consistent pending m) (hb : id ∈ m.vvNew b) :
    ∃ m', m.unref b id = some m' ∧ Consistent pending m' ∧
      m'.vvNew = update m.vvNew b ((m.vvNew b).erase id) := by
  obtain ⟨info, hi, hnew⟩ := hc.mem_new hb
  have he := hc.entry hi
  set vvNew := update m.vvNew b ((m.vvNew b).erase id) with hvv
  have hrefs : ∀ j, refsIn vvNew j = refsIn m.vvNew j - if j = id then 1 else 0 := by
    intro j
    rw [hvv, refsIn_update]
    by_cases hj : j = id <;> simp [hj, hb]
  have hcap : ∀ c, (vvNew c).card ≤ 64 :=
    (forall_update_iff m.vvNew fun _ s => s.card ≤ 64).mpr
      ⟨card_erase_le.trans (hc.newCap b), fun c _ => hc.newCap c⟩
  have hother : ∀ j, j ≠ id → refsIn vvNew j + owed pending j =
      refsIn m.vvNew j + owed pending j := fun j hj => by simp [hrefs, hj]
  have hx : Indexed (m.setInfo id { info with nRefCount := info.nRefCount - 1 }) :=
    hc.toIndexed.setInfo hi rfl rfl
  have hcount := he.refs
  have hid := hrefs id
  by_cases h0 : info.nRefCount - 1 = 0
  · have hlast := (hc.random info.nRandomPos id).mpr (by simp [hi])
    obtain ⟨hlt, -⟩ := List.getElem?_eq_some_iff.mp hlast
    obtain ⟨f, l, hswap, hf, hl, hrand, hmoved⟩ := swapRandom_spec hx.random hlt
      (show m.vRandom.length - 1 < m.vRandom.length by omega)
    have hf : ∀ j, j ≠ id → ∃ p, f j = (m.mapInfo j).map ({ · with nRandomPos := p }) := by
      intro j hj
      simpa [setInfo, hj] using hf j
    refine ⟨{ m with
        vRandom := l.dropLast, mapAddr := update m.mapAddr info.addr none
        mapInfo := update f id none, nNew := m.nNew - 1, vvNew }, by
      simp only [unref, hi, if_pos h0]
      exact congrArg (Option.map _) hswap,
      ⟨⟨?_, ?_, ?_⟩, ?_, hc.nTried, ?_, hcap, hc.triedCap⟩, rfl⟩
    · exact hrand.dropLast (by rw [hl]; exact hmoved.trans hlast)
    · intro a j
      refine address_delete hc.address hi (fun j hj => ?_) a j
      obtain ⟨p, hp⟩ := hf j hj
      simp [hp, comp_def]
    · intro j hj
      have hnone := hc.fresh j hj
      have hne : j ≠ id := fun e => by simp [← e, hnone] at hi
      obtain ⟨p, hp⟩ := hf j hne
      simp [hne, hp, hnone]
    · refine placed_update (fun j hj => ?_) hother (fun _ _ => rfl) ⟨by dsimp only; omega, ?_⟩
      · obtain ⟨p, hp⟩ := hf j hj
        exact (hc.placed j).reindex hp
      · simpa [hnew] using he.slots
    · have hsize := hc.size
      have : l.dropLast.length = m.vRandom.length - 1 := by rw [List.length_dropLast, hl]; rfl
      simp only [this]
      omega
  · refine ⟨{ m.setInfo id { info with nRefCount := info.nRefCount - 1 } with vvNew },
      by simp [unref, hi, h0, setInfo, hvv], { hx, hc with
        placed := placed_update (fun j _ => hc.placed j) hother (fun _ _ => rfl) { he with
            refs := by dsimp only; omega
            tried := fun ht => by simp [hnew] at ht
            new := fun _ => by have := he.new hnew; dsimp only; omega }
        newCap := hcap }, rfl⟩

/-! ## Making room in a new bucket -/

section Shrink

variable {m : CAddrMan} {a : Ambient}

theorem firstTerrible_spec (nNow : Int) (ids : List Nat)
    (h : ∀ id ∈ ids, ∃ info, m.mapInfo id = some info) :
    ∃ o, m.firstTerrible nNow ids = some o ∧ ∀ id, o = some id → id ∈ ids := by
  induction ids with
  | nil => exact ⟨none, rfl, by simp⟩
  | cons x rest ih =>
    obtain ⟨info, hi⟩ := h x (by simp)
    by_cases ht : info.isTerrible nNow
    · exact ⟨some x, by simp [firstTerrible, hi, ht], by simp⟩
    · obtain ⟨o, ho, hmem⟩ := ih fun id hid => h id (by simp [hid])
      exact ⟨o, by simp [firstTerrible, hi, ht, ho], fun id e => by simp [hmem id e]⟩

theorem oldestOf_spec {ids : List Nat} (h : ∀ id ∈ ids, ∃ info, m.mapInfo id = some info)
    {o : Nat} (ho : ∃ info, m.mapInfo o = some info) :
    ∃ id, m.oldestOf ids (some o) = some id ∧ (id = o ∨ id ∈ ids) := by
  induction ids generalizing o with
  | nil => exact ⟨o, rfl, .inl rfl⟩
  | cons x rest ih =>
    obtain ⟨info, hi⟩ := h x (by simp)
    obtain ⟨old, hold⟩ := ho
    have hrest : ∀ id ∈ rest, ∃ info, m.mapInfo id = some info := fun id hid => h id (by simp [hid])
    simp only [oldestOf, hi, hold, Option.bind_some]
    split
    · obtain ⟨id, hid, hmem⟩ := ih hrest ⟨info, hi⟩
      exact ⟨id, hid, by simpa using .inr hmem⟩
    · obtain ⟨id, hid, hmem⟩ := ih hrest ⟨old, hold⟩
      exact ⟨id, hid, by simp only [List.mem_cons]; tauto⟩

theorem shrinkNew_spec (hc : Consistent pending m) (hcard : (m.vvNew b).card = 64) :
    ∃ id ∈ m.vvNew b, ∃ m', m.shrinkNew a b = some m' ∧ Consistent pending m' ∧
      m'.vvNew = update m.vvNew b ((m.vvNew b).erase id) := by
  have hknown : ∀ id ∈ m.vvNew b, ∃ info, m.mapInfo id = some info := fun id hid =>
    (hc.mem_new hid).imp fun _ h => h.1
  obtain ⟨o, ho, hmem⟩ := firstTerrible_spec a.nNow ((m.vvNew b).sort (· ≤ ·))
    fun id hid => hknown id (by simpa using hid)
  cases o with
  | some id =>
    simp only [shrinkNew, ho, Option.bind_some]
    have hid : id ∈ m.vvNew b := by simpa using hmem id rfl
    exact ⟨id, hid, unref_spec hc hid⟩
  | none =>
    simp only [shrinkNew, ho, Option.bind_some]
    -- The first drawn place holds an id, so the list of candidates is not empty.
    set cand := ((((m.vvNew b).sort (· ≤ ·)).zipIdx.filter fun e => e.2 ∈ (List.range 4).map
      fun k => a.rand (k + 1) % ((m.vvNew b).sort (· ≤ ·)).length).map Prod.fst)
    have hin : ∀ id ∈ cand, id ∈ m.vvNew b := by
      intro id hid
      obtain ⟨e, he, rfl⟩ := mem_map.mp hid
      have := mem_zipIdx_iff_getElem?.mp (mem_of_mem_filter he)
      simpa using mem_of_getElem? this
    have hne : cand ≠ [] := by
      have hlt : a.rand 1 % 64 < ((m.vvNew b).sort (· ≤ ·)).length := by simp; omega
      refine ne_nil_of_mem (mem_map.mpr ⟨(_, a.rand 1 % 64), mem_filter.mpr
        ⟨mem_zipIdx_iff_getElem?.mpr (getElem?_eq_getElem hlt), ?_⟩, rfl⟩)
      simp [hcard, range_succ]
    obtain ⟨x, rest, hx⟩ := exists_cons_of_ne_nil hne
    rw [hx] at hin ⊢
    have hrest : ∀ id ∈ rest, ∃ info, m.mapInfo id = some info :=
      fun id hid => hknown id (hin id (by simp [hid]))
    obtain ⟨id, hid, hmem⟩ := oldestOf_spec hrest (hknown x (hin x (by simp)))
    simp only [oldestOf, hid, Option.bind_some]
    have hid := hin id (by simpa using hmem)
    exact ⟨id, hid, unref_spec hc hid⟩

end Shrink

def Kept (r : Option CAddrMan) : Prop := ∃ m, r = some m ∧ Consistent none m

/-! ## One more reference -/

section AddRef

variable {m : CAddrMan} {h : Hashes} {a : Ambient} {nId source : Nat} {info : CAddrInfo}

theorem insert_pending (hc : Consistent (some nId) m) (hb : nId ∉ m.vvNew b)
    (hcard : (m.vvNew b).card < 64) :
    Consistent none { m with vvNew := update m.vvNew b (insert nId (m.vvNew b)) } :=
  { hc with
    placed := fun id => by
      have heq : refsIn (update m.vvNew b (insert nId (m.vvNew b))) id + owed none id =
          refsIn m.vvNew id + owed (some nId) id := by
        rw [refsIn_update]
        by_cases hid : id = nId
        · simp [hid, hb, owed]
        · simp [hid, owed, Ne.symm hid]
      simpa only [heq] using hc.placed id
    newCap := (forall_update_iff m.vvNew fun _ s => s.card ≤ 64).mpr
      ⟨(card_insert_le nId (m.vvNew b)).trans (by omega), fun c _ => hc.newCap c⟩ }

theorem addRef_spec (h0 : nId ∈ m.vvNew (info.getNewBucket h source) → Consistent none m)
    (h1 : Consistent (some nId) (m.setInfo nId { info with nRefCount := info.nRefCount + 1 })) :
    Kept (m.addRef h a nId info source) := by
  unfold addRef
  by_cases hb : nId ∈ m.vvNew (info.getNewBucket h source)
  · exact ⟨m, by simp [hb], h0 hb⟩
  simp only [hb, if_false]
  split
  next hfull =>
    obtain ⟨_, hid, _, hm', hc, hvv⟩ := shrinkNew_spec h1 hfull
    refine ⟨_, by rw [hm']; rfl, insert_pending hc ?_ ?_⟩
    · simp only [hvv, update_self]
      exact fun hmem => hb (mem_of_mem_erase hmem)
    · have hlt := card_erase_lt_of_mem hid
      simp only [hvv, update_self]
      omega
  next hroom =>
    have hcap := h1.newCap (info.getNewBucket h source)
    exact ⟨_, rfl, insert_pending h1 hb (by omega)⟩

theorem created (hc : Consistent none m) (hnew : m.mapAddr info.addr = none)
    (hpos : info.nRandomPos = m.vRandom.length) (hcount : info.nRefCount = 0)
    (htried : info.fInTried = false) (htry : info.nLastTry = 0) (hsucc : info.nLastSuccess = 0) :
    Consistent (some m.nIdCount) ({ m.create info with nNew := m.nNew + 1 }.setInfo m.nIdCount
      { info with nRefCount := info.nRefCount + 1 }) := by
  have hfree : m.mapInfo m.nIdCount = none := hc.fresh _ le_rfl
  have hplaced := hc.placed m.nIdCount
  rw [hfree] at hplaced
  have hx : Indexed { m.create info with nNew := m.nNew + 1 } := by
    refine ⟨fun p j => ?_, fun x j => ?_, fun j hj => ?_⟩
    · have hp := hc.random p j
      simp only [create]
      by_cases hj : j = m.nIdCount
      · grind
      · grind
    · have hxj := hc.address x j
      simp only [create]
      grind
    · simp only [create] at hj ⊢
      rw [update_of_ne (by omega)]
      exact hc.fresh j (by omega)
  have hi : { m.create info with nNew := m.nNew + 1 }.mapInfo m.nIdCount = some info := by
    simp [create]
  refine ⟨hx.setInfo hi rfl rfl, ?_, hc.nTried, ?_, hc.newCap, hc.triedCap⟩
  · simp only [setInfo, create, update_idem]
    refine placed_update (fun j _ => hc.placed j) (fun j hj => ?_) (fun _ _ => rfl) ?_
    · simp [owed, Ne.symm hj]
    have hrefs := hplaced.1
    have hslots := hplaced.2
    simp only [owed, reduceCtorEq, if_false] at hrefs
    exact ⟨by simp [owed, hcount]; omega, by simp [htried, hslots], by simp [htried],
      by simp [hcount], by simp [htry], by simp [hsucc]⟩
  · have := hc.size
    simp [setInfo, create]
    omega

end AddRef

/-! ## Moving an entry to the tried buckets -/

section MakeTried

variable {m : CAddrMan} {h : Hashes} {a : Ambient} {nId : Nat} {info : CAddrInfo}

/-- The place that round `i` of `SelectTried` draws from a bucket with `n` entries. -/
def drawnPlace (a : Ambient) (n i : Nat) : Nat := a.rand (i + 1) % (n - i) + i

def swapped (l : List Nat) (nPos i : Nat) : List Nat :=
  (l.set nPos (l.getD i 0)).set i (l.getD nPos 0)

/-- The bucket as `k` rounds of `SelectTried` leave it. The rounds that follow round `i` do not
touch place `i`, so the entries that were inspected stand in front. -/
def shuffled (a : Ambient) : Nat → Nat → List Nat → List Nat
  | 0, _, l => l
  | k + 1, i, l =>
    if i < l.length then shuffled a k (i + 1) (swapped l (drawnPlace a l.length i) i) else l

section Shuffle

variable {i k : Nat}

theorem drawnPlace_lt (hi : i < l.length) : drawnPlace a l.length i < l.length := by
  have := Nat.mod_lt (a.rand (i + 1)) (show 0 < l.length - i by omega)
  unfold drawnPlace
  omega

theorem swapped_perm (hi : i < l.length) : (swapped l (drawnPlace a l.length i) i).Perm l := by
  have hlt := drawnPlace_lt (a := a) hi
  simpa [swapped, getD_eq_getElem?_getD, hi, hlt] using set_set_perm hlt hi

theorem shuffled_perm : (shuffled a k i l).Perm l := by
  induction k generalizing i l with
  | zero => exact .refl l
  | succ k ih =>
    unfold shuffled
    split
    next hi => exact ih.trans (swapped_perm hi)
    next => exact .refl l

theorem take_shuffled : (shuffled a k i l).take i = l.take i := by
  induction k generalizing i l with
  | zero => rfl
  | succ k ih =>
    unfold shuffled
    split
    next hi =>
      have hstep := congrArg (take i) (ih (l := swapped l (drawnPlace a l.length i) i) (i := i + 1))
      rw [take_take, take_take, min_eq_left (by omega)] at hstep
      rw [hstep, swapped, take_set_of_le le_rfl, take_set_of_le (by unfold drawnPlace; omega)]
    next => rfl

theorem shuffled_getElem? (hi : i < l.length) :
    (shuffled a (k + 1) i l)[i]? = some (l.getD (drawnPlace a l.length i) 0) := by
  have htake := take_shuffled (a := a) (k := k) (i := i + 1)
    (l := swapped l (drawnPlace a l.length i) i)
  rw [shuffled, if_pos hi]
  have hat := congrArg (·[i]?) htake
  simpa [swapped, hi] using hat

end Shuffle

def CAddrMan.lastSuccess (m : CAddrMan) (id : Nat) : Int :=
  ((m.mapInfo id).map (·.nLastSuccess)).getD 0

/-- The time of the entry that round `j` draws. -/
def CAddrMan.inspected (m : CAddrMan) (l : List Nat) (j : Nat) : Int := m.lastSuccess (l.getD j 0)

/-- One round keeps the oldest entry so far, or takes the one it draws if that is staler. -/
theorem selectTried_round {k i : Nat} {oldest : Option (Nat × Nat)} (hi : i < l.length)
    (hl : ∀ id ∈ l, ∃ info, m.mapInfo id = some info)
    (ho : ∀ o, oldest = some o → o.1 ∈ l ∧ o.2 < l.length) :
    ∃ o, m.selectTried a (k + 1) i l oldest =
        m.selectTried a k (i + 1) (swapped l (drawnPlace a l.length i) i) (some o) ∧
      (o.1 ∈ l ∧ o.2 < l.length) ∧
      (oldest = some o ∧ m.lastSuccess o.1 ≤ m.inspected l (drawnPlace a l.length i) ∨
        o = (l.getD (drawnPlace a l.length i) 0, drawnPlace a l.length i) ∧
          ∀ o', oldest = some o' → m.lastSuccess o.1 < m.lastSuccess o'.1) := by
  have hlt := drawnPlace_lt (a := a) hi
  have hmem : l.getD (drawnPlace a l.length i) 0 ∈ l := by simp [getD_eq_getElem?_getD, hlt]
  have hplace : a.rand (i + 1) % (l.length - i) + i = drawnPlace a l.length i := rfl
  simp only [selectTried, hi, if_true, swapped, hplace]
  cases oldest with
  | none => exact ⟨_, rfl, ⟨hmem, hlt⟩, .inr ⟨rfl, by simp⟩⟩
  | some o =>
    obtain ⟨ho1, ho2⟩ := ho o rfl
    obtain ⟨info, hinf⟩ := hl _ hmem
    obtain ⟨infoOldest, hold⟩ := hl _ ho1
    simp only [hinf, hold]
    by_cases hstale : info.nLastSuccess < infoOldest.nLastSuccess
    · refine ⟨_, by rw [if_pos hstale], ⟨hmem, hlt⟩, .inr ⟨rfl, ?_⟩⟩
      rintro _ ⟨⟩
      simp only [lastSuccess, hinf, hold]
      exact hstale
    · refine ⟨o, by rw [if_neg hstale], ⟨ho1, ho2⟩, .inl ⟨rfl, ?_⟩⟩
      simp only [inspected, lastSuccess, hinf, hold]
      exact not_lt.mp hstale

/-- Of the `k` rounds from `i` on, round `j` is the first to draw an entry as stale as any of them
draws. In the end the entry that a round draws stands at the place of its number. -/
def CAddrMan.FirstStalest (m : CAddrMan) (l : List Nat) (i k j : Nat) : Prop :=
  i ≤ j ∧ j < min (i + k) l.length ∧ ∀ j', i ≤ j' → j' < min (i + k) l.length →
    m.inspected l j ≤ m.inspected l j' ∧ (j' < j → m.inspected l j < m.inspected l j')

/-- The place returned is that of the oldest entry before, if no entry inspected from round `i` on
is staler, or the place from which the first of the stalest was drawn. -/
theorem selectTried_spec (k i : Nat) (oldest : Option (Nat × Nat))
    (hl : ∀ id ∈ l, ∃ info, m.mapInfo id = some info)
    (ho : ∀ o, oldest = some o → o.1 ∈ l ∧ o.2 < l.length)
    (hne : oldest = none → 0 < k ∧ i < l.length) :
    ∃ nPos, m.selectTried a k i l oldest = some (shuffled a k i l, nPos) ∧ nPos < l.length ∧
      ((∃ id, oldest = some (id, nPos) ∧ ∀ j, i ≤ j → j < min (i + k) l.length →
          m.lastSuccess id ≤ m.inspected (shuffled a k i l) j) ∨
        ∃ j, m.FirstStalest (shuffled a k i l) i k j ∧ nPos = drawnPlace a l.length j ∧
          ∀ o, oldest = some o → m.inspected (shuffled a k i l) j < m.lastSuccess o.1) := by
  induction k generalizing i l oldest with
  | zero =>
    cases oldest with
    | none => have := (hne rfl).1; omega
    | some o => exact ⟨o.2, rfl, (ho o rfl).2, .inl ⟨o.1, rfl, fun j _ _ => by omega⟩⟩
  | succ k ih =>
    by_cases hi : i < l.length
    · have hperm := swapped_perm (a := a) hi
      obtain ⟨o, hround, hin, hor⟩ := selectTried_round (a := a) (k := k) hi hl ho
      obtain ⟨p, hsel, hp, hcases⟩ := ih (i + 1) (some o)
        (fun id hid => hl id (hperm.mem_iff.mp hid))
        (by rintro _ ⟨⟩; exact ⟨hperm.mem_iff.mpr hin.1, by simpa [hperm.length_eq] using hin.2⟩)
        (fun e => by cases e)
      have hshuf : shuffled a (k + 1) i l =
          shuffled a k (i + 1) (swapped l (drawnPlace a l.length i) i) := by
        rw [shuffled, if_pos hi]
      have hlen : (shuffled a (k + 1) i l).length = l.length := shuffled_perm.length_eq
      have hat : m.inspected (shuffled a (k + 1) i l) i
          = m.inspected l (drawnPlace a l.length i) := by
        rw [inspected, getD_eq_getElem?_getD, shuffled_getElem? hi]
        rfl
      rw [hperm.length_eq] at hp
      rw [← hshuf, hperm.length_eq] at hcases
      rw [← hshuf] at hsel
      refine ⟨p, hround.trans hsel, hp, ?_⟩
      simp only [FirstStalest, hlen] at hcases ⊢
      -- the rounds from `i` on are round `i` and those after it
      have hrounds : ∀ j, i ≤ j → j < min (i + (k + 1)) l.length →
          j = i ∨ i + 1 ≤ j ∧ j < min (i + 1 + k) l.length := by
        omega
      rcases hcases with ⟨id, ho', hle⟩ | ⟨j, ⟨hij, hj, hfirst⟩, hplace, hlt⟩
      · cases ho'
        rcases hor with ⟨hold, hdrawn⟩ | ⟨hdrawn, hlt⟩
        · refine .inl ⟨_, hold, fun j hj hj' => ?_⟩
          rcases hrounds j hj hj' with rfl | ⟨h1, h2⟩
          · exact hat ▸ hdrawn
          · exact hle j h1 h2
        · cases hdrawn
          refine .inr ⟨i, ⟨le_rfl, by omega, fun j hj hj' => ⟨?_, by omega⟩⟩, rfl, ?_⟩
          · rcases hrounds j hj hj' with rfl | ⟨h1, h2⟩
            · exact le_rfl
            · exact hat ▸ hle j h1 h2
          · exact hat ▸ hlt
      · have hdrawn : m.lastSuccess o.1 ≤ m.inspected l (drawnPlace a l.length i) := by
          rcases hor with ⟨-, hdrawn⟩ | ⟨rfl, -⟩
          · exact hdrawn
          · exact le_rfl
        have hless := hlt o rfl
        refine .inr ⟨j, ⟨by omega, by omega, fun j' hj1 hj2 => ?_⟩, hplace, fun o' ho' => ?_⟩
        · rcases hrounds j' hj1 hj2 with rfl | ⟨h1, h2⟩
          · rw [hat]
            exact ⟨by omega, fun _ => by omega⟩
          · exact hfirst j' h1 h2
        · rcases hor with ⟨hold, -⟩ | ⟨-, hlt'⟩
          · cases ho'.symm.trans hold
            exact hless
          · exact hless.trans (hlt' o' ho')
    · cases oldest with
      | none => have := (hne rfl).2; omega
      | some o =>
        exact ⟨o.2, by simp [selectTried, shuffled, hi], (ho o rfl).2,
          .inl ⟨o.1, rfl, fun j _ _ => by omega⟩⟩

variable {vvNew : Fin 256 → Finset Nat}

theorem refsIn_erase (id j : Nat) :
    refsIn (fun b => (vvNew b).erase id) j = if j = id then 0 else refsIn vvNew j := by
  by_cases hj : j = id <;> simp [refsIn, hj]

theorem refsIn_evict {idOld : Nat} (hne : idOld ≠ nId)
    (hnone : ∀ b, idOld ∉ vvNew b) (target : Fin 256) (j : Nat) :
    refsIn (update (fun b => (vvNew b).erase nId) target
      (insert idOld ((vvNew target).erase nId))) j =
        (if j = nId then 0 else refsIn vvNew j) + if j = idOld then 1 else 0 := by
  rw [refsIn_update, refsIn_erase]
  by_cases hj : j = idOld
  · simp [hj, hne, hnone]
  · simp [hj]

theorem slotsIn_replace {vvTried : Fin 64 → List Nat} {b : Fin 64} {nPos : Nat}
    (hperm : l.Perm (vvTried b)) (hlt : nPos < l.length) (nId j : Nat) :
    slotsIn (update vvTried b (l.set nPos nId)) j =
      slotsIn vvTried j - (if j = l[nPos] then 1 else 0) + if j = nId then 1 else 0 := by
  rw [slotsIn_update]
  grind

theorem makeTried_spec {nOrigin : Fin 256} (hc : Consistent none m) (hi : m.mapInfo nId = some info)
    (hnew : info.fInTried = false) (hpos : 0 < info.nLastSuccess) (ho : nId ∈ m.vvNew nOrigin) :
    Kept (m.makeTried h a info nId nOrigin) := by
  have he := hc.entry hi
  have hcount : info.nRefCount - refsIn m.vvNew nId = 0 := by
    have := he.refs
    simp only [owed, reduceCtorEq, if_false] at this
    omega
  have hslot0 : slotsIn m.vvTried nId = 0 := by simpa [hnew] using he.slots
  let infoTried : CAddrInfo := { info with nRefCount := 0, fInTried := true }
  have hx : Indexed (m.setInfo nId infoTried) := hc.toIndexed.setInfo hi rfl rfl
  -- The entry is out of every new bucket and holds one place of the tried ones.
  have hmoved : EntryOk 0 1 infoTried :=
    { he with refs := rfl, slots := rfl, tried := fun _ => ⟨rfl, hpos⟩, new := by simp }
  have hless : ∀ b, ((m.vvNew b).erase nId).card ≤ 64 := fun b =>
    card_erase_le.trans (hc.newCap b)
  have hsize := hc.size
  simp only [makeTried, ho, hcount, not_true, ne_eq, or_self, if_false]
  generalize info.getTriedBucket h = b
  have hlen := fun l => sum_update m.vvTried (fun l => (l.length : Int)) b l
  have hcap : ∀ l : List Nat, l.length ≤ 64 → ∀ b', (update m.vvTried b l b').length ≤ 64 :=
    fun l hl => (forall_update_iff m.vvTried fun _ l => l.length ≤ 64).mpr
      ⟨hl, fun b _ => hc.triedCap b⟩
  split
  next hroom =>
    refine ⟨_, rfl, { hx with }, ?_, ?_, ?_, hless, hcap _ (by simp; omega)⟩
    · refine placed_update (fun j _ => hc.placed j) (fun j hj => ?_) (fun j hj => ?_) ?_
      · simp [refsIn_erase, hj]
      · simp [slotsIn_update, Ne.symm hj, setInfo]
      · simp only [refsIn_erase, setInfo, slotsIn_update]
        simpa [owed, hslot0, Placed] using hmoved
    · simp only [setInfo, hlen, hc.nTried, length_append, length_singleton]
      omega
    · simp only [setInfo]
      omega
  next hfull =>
    have hknown : ∀ id ∈ m.vvTried b, ∃ i,
        (m.setInfo nId infoTried).mapInfo id = some i := by
      intro id hid
      by_cases e : id = nId
      · exact ⟨_, by rw [e]; exact update_self ..⟩
      · obtain ⟨i, hi', -⟩ := hc.mem_tried hid
        exact ⟨i, by simpa [setInfo, e] using hi'⟩
    obtain ⟨nPos, hsel, hlt, -⟩ := selectTried_spec (a := a) 4 0 none hknown (by simp)
      (fun _ => ⟨by omega, by omega⟩)
    generalize hl : shuffled a 4 0 (m.vvTried b) = l at hsel
    have hperm : l.Perm (m.vvTried b) := hl ▸ shuffled_perm
    rw [← hperm.length_eq] at hlt
    have hmem : l[nPos] ∈ m.vvTried b := hperm.mem_iff.mp (getElem_mem hlt)
    have hget : l.getD nPos 0 = l[nPos] := by simp [getD_eq_getElem?_getD, hlt]
    have hslots := slotsIn_replace hperm hlt nId
    generalize l[nPos] = idOld at hmem hget hslots
    obtain ⟨infoOld, hiOld, htOld⟩ := hc.mem_tried hmem
    have hne : idOld ≠ nId := fun e => by
      rw [e, hi] at hiOld
      cases hiOld
      simp [hnew] at htOld
    have hiOld' : (m.setInfo nId infoTried).mapInfo idOld = some infoOld := by
      simpa [setInfo, hne] using hiOld
    have heOld := hc.entry hiOld
    have hnone : ∀ b, idOld ∉ m.vvNew b := fun b hb => by
      obtain ⟨i, hi', hf⟩ := hc.mem_new hb
      rw [hiOld] at hi'
      cases hi'
      simp [htOld] at hf
    dsimp only [infoTried] at hsel hiOld'
    simp only [hsel, Option.bind_some, hget, hiOld', Option.map_some]
    generalize ht : (if ((m.vvNew (infoOld.getNewBucket h infoOld.source)).erase nId).card < 64
      then infoOld.getNewBucket h infoOld.source else nOrigin) = target
    -- "there is certainly place there": `nId` has just left the bucket it came from.
    have hplace : ((m.vvNew target).erase nId).card < 64 := by
      subst ht
      split
      next hroom => exact hroom
      next => exact (card_erase_lt_of_mem ho).trans_le (hc.newCap nOrigin)
    have hrefsOld := heOld.refs
    have hslotsOld := heOld.slots
    have hz := (heOld.tried htOld).1
    simp only [owed, reduceCtorEq, if_false, htOld, if_true] at hrefsOld hslotsOld
    have hx' : Indexed ((m.setInfo nId infoTried).setInfo idOld
        { infoOld with fInTried := false, nRefCount := 1 }) := hx.setInfo hiOld' rfl rfl
    refine ⟨_, rfl, { hx' with }, ?_, ?_, ?_, ?_, hcap _ ?_⟩
    · simp only [setInfo, refsIn_evict hne hnone, hslots]
      refine placed_update (fun j hj => ?_) (fun _ _ => rfl) (fun _ _ => rfl) ?_
      · by_cases hjn : j = nId
        · simpa [hjn, Ne.symm hne, owed, hslot0, Placed] using hmoved
        · simpa [hj, hjn, owed] using hc.placed j
      simp only [hne, if_false, if_true, owed, reduceCtorEq]
      exact { heOld with
        refs := by dsimp only; omega
        slots := by simp; omega
        tried := by simp
        new := by simp }
    · simp only [setInfo, hlen, hc.nTried, length_set, hperm.length_eq]
      omega
    · simp only [setInfo]
      omega
    · exact (forall_update_iff _ fun _ (s : Finset Nat) => s.card ≤ 64).mpr
        ⟨(card_insert_le ..).trans (Nat.succ_le_of_lt hplace), fun b _ => hless b⟩
    · simpa [hperm.length_eq] using hc.triedCap _

end MakeTried

/-! ## The calls -/

section Calls

variable {m : CAddrMan} {h : Hashes} {a : Ambient} {addr port : Nat} {nTime : Int}

theorem Consistent.find_spec (hc : Consistent none m) (addr : Nat) :
    (m.find addr = none ∧ m.mapAddr addr = none) ∨
      ∃ nId info, m.find addr = some (nId, info) ∧ m.mapInfo nId = some info := by
  unfold CAddrMan.find
  cases hid : m.mapAddr addr with
  | none => exact .inl ⟨rfl, rfl⟩
  | some nId =>
    obtain ⟨info, hi, -⟩ := Option.map_eq_some_iff.mp ((hc.address addr nId).mp hid)
    exact .inr ⟨nId, info, by simp [hi], hi⟩

theorem withEntry_spec {f : Nat → CAddrInfo → Option CAddrMan} (hc : Consistent none m)
    (hf : ∀ nId info, m.mapInfo nId = some info → Kept (f nId info)) :
    Kept (m.withEntry addr port f) := by
  unfold withEntry
  obtain ⟨hf', -⟩ | ⟨nId, info, hf', hi⟩ := hc.find_spec addr
  · exact ⟨m, by rw [hf'], hc⟩
  rw [hf']
  dsimp only
  split
  · exact ⟨m, rfl, hc⟩
  · exact hf nId info hi

section

variable (hc : Consistent none m)
include hc

theorem good_spec (ht : 0 < nTime) : Kept (m.good h a addr port nTime) := by
  refine withEntry_spec hc fun nId info hi => ?_
  have he := hc.entry hi
  have hc' : Consistent none (m.setInfo nId { info with
      nLastSuccess := nTime, nLastTry := nTime, nTime := toUInt nTime, nAttempts := 0 }) :=
    hc.setInfo hi (fun _ _ => rfl) rfl rfl { he with
        tried := fun h => ⟨(he.tried h).1, ht⟩
        nLastTry := ht.le
        nLastSuccess := ht.le }
  dsimp only
  split
  · exact ⟨_, rfl, hc'⟩
  next hnew =>
    split
    · exact ⟨_, rfl, hc'⟩
    next n hn =>
      exact makeTried_spec hc' (update_self ..) (Bool.eq_false_iff.mpr hnew) ht
        (by simpa using find?_some hn)

theorem add_spec (address : CAddress) (source : Nat) (nTimePenalty : Int) :
    Kept (m.add h a address source nTimePenalty) := by
  unfold CAddrMan.add
  split
  · exact ⟨m, rfl, hc⟩
  obtain ⟨hf, hnone⟩ | ⟨nId, info, hf, hi⟩ := hc.find_spec address.addr
  · rw [hf]
    refine addRef_spec (fun hmem => ?_) (created hc hnone rfl rfl rfl rfl rfl)
    -- the new id stands in no bucket yet
    obtain ⟨info, hi, -⟩ := hc.mem_new hmem
    simp [hc.fresh _ le_rfl] at hi
  · rw [hf]
    have he := hc.entry hi
    have hc' : Consistent none (m.setInfo nId (refresh info a address nTimePenalty)) :=
      hc.setInfo hi (fun _ _ => rfl) rfl rfl { he with }
    dsimp only
    split
    · exact ⟨_, rfl, hc'⟩
    split
    · exact ⟨_, rfl, hc'⟩
    next hok =>
      split
      · exact ⟨_, rfl, hc'⟩
      refine addRef_spec (fun _ => hc') (hc'.setInfo (update_self ..) (fun j hj => ?_) rfl rfl ?_)
      · simp [owed, Ne.symm hj]
      push Not at hok
      have hnew := Bool.eq_false_iff.mpr hok.1
      have he' := hc'.entry (update_self ..)
      have hb := he'.new hnew
      have hr := he'.refs
      simp only [owed, reduceCtorEq, if_false] at hr
      exact { he' with
        refs := by simp only [owed, if_true]; omega
        tried := fun ht => absurd ht hok.1
        new := fun _ => by dsimp only; omega }

theorem attempt_spec (ht : 0 ≤ nTime) : Kept (m.attempt addr port nTime) :=
  withEntry_spec hc fun _ _ hi =>
    ⟨_, rfl, hc.setInfo hi (fun _ _ => rfl) rfl rfl { hc.entry hi with nLastTry := ht }⟩

theorem connected_spec : Kept (m.connected addr port nTime) := by
  refine withEntry_spec hc fun nId info hi => ?_
  split
  · exact ⟨_, rfl, hc.setInfo hi (fun _ _ => rfl) rfl rfl { hc.entry hi with }⟩
  · exact ⟨m, rfl, hc⟩

end

theorem getAddrLoop_spec {k n : Nat} (vAddr : List CAddrInfo) (hc : Consistent none m)
    (hn : n + k ≤ m.vRandom.length) :
    ∃ r, getAddrLoop a k n m vAddr = some r ∧ Consistent none r.1 := by
  induction k generalizing m n vAddr with
  | zero => exact ⟨(m, vAddr), rfl, hc⟩
  | succ k ih =>
    have hlt : a.rand n % (m.vRandom.length - n) + n < m.vRandom.length := by
      have := Nat.mod_lt (a.rand n) (show 0 < m.vRandom.length - n by omega)
      omega
    obtain ⟨f, l, hswap, hf, hl, hrand, -⟩ := swapRandom_spec hc.random (show n < _ by omega) hlt
    have hc' := hc.reindex hf hl hrand
    have hn' : l[n]? = some l[n] := getElem?_eq_getElem (by omega)
    obtain ⟨info, hi, -⟩ := Option.map_eq_some_iff.mp ((hrand n l[n]).mp hn')
    obtain ⟨r, hr, hcr⟩ := ih (n := n + 1) (vAddr ++ [info]) hc' (by simp only [hl]; omega)
    exact ⟨r, by simp only [getAddrLoop, hswap, Option.bind_some, hn', hi, hr], hcr⟩

theorem selectLoop_spec {bucket : Nat → List Nat} (draws : List (Nat × Nat × Bool))
    (hb : ∀ n, ∀ id ∈ bucket n, ∃ info, m.mapInfo id = some info) :
    ∃ r, m.selectLoop bucket draws = some r := by
  induction draws with
  | nil => exact ⟨none, rfl⟩
  | cons d rest ih =>
    obtain ⟨n, nPos, _⟩ := d
    unfold selectLoop
    dsimp only
    split
    · exact ih
    next hlen =>
      have hlt : nPos % (bucket n).length < (bucket n).length := Nat.mod_lt _ (by omega)
      obtain ⟨info, hi⟩ := hb n _ (getElem_mem hlt)
      rw [getD_eq_getElem?_getD, getElem?_eq_getElem hlt, Option.getD_some, hi]
      split
      · exact ⟨_, rfl⟩
      · exact ih

/-- The times that `Check_` can accept: `Good` records a time after the epoch, `Attempt` one that
is not before it. -/
def Call.TimeOk : Call → Prop
  | .good _ _ nTime => 0 < nTime
  | .attempt _ _ nTime => 0 ≤ nTime
  | _ => True

theorem step_spec (hc : Consistent none m) {c : Ambient × Call} (ht : c.2.TimeOk) :
    Kept (step h m c) := by
  obtain ⟨a, c⟩ := c
  cases c with
  | add address source nTimePenalty => exact add_spec hc address source nTimePenalty
  | good addr port nTime => exact good_spec hc ht
  | attempt addr port nTime => exact attempt_spec hc ht
  | connected addr port nTime => exact connected_spec hc
  | getAddr =>
    obtain ⟨r, hr, hcr⟩ := getAddrLoop_spec (a := a) (n := 0) [] hc
      (k := min (23 * m.vRandom.length / 100) 2500) (by omega)
    exact ⟨r.1, by simp [step, getAddr, hr], hcr⟩
  | select fTried draws =>
    have hsel : ∃ r, m.select fTried draws = some r := by
      unfold CAddrMan.select
      split
      · exact ⟨_, rfl⟩
      split
      · exact selectLoop_spec draws fun n id hid => (hc.mem_tried hid).imp fun _ h => h.1
      · exact selectLoop_spec draws fun n id hid =>
          (hc.mem_new (by simpa using hid)).imp fun _ h => h.1
    obtain ⟨r, hr⟩ := hsel
    exact ⟨m, by simp [step, hr], hc⟩

theorem run_spec {calls : List (Ambient × Call)} (hc : Consistent none m)
    (ht : ∀ c ∈ calls, c.2.TimeOk) :
    Kept (calls.foldlM (step h) m) := by
  induction calls generalizing m with
  | nil => exact ⟨m, rfl, hc⟩
  | cons c rest ih =>
    obtain ⟨_, h1, hc1⟩ := step_spec hc (ht c (by simp))
    obtain ⟨m2, h2, hc2⟩ := ih hc1 fun c hc => ht c (by simp [hc])
    exact ⟨m2, by rw [foldlM_cons, h1]; exact h2, hc2⟩

end Calls

/-! ## The counters -/

def CAddrMan.isTried (m : CAddrMan) (id : Nat) : Bool :=
  ((m.mapInfo id).map (·.fInTried)).getD false

section Counters

variable {m : CAddrMan}

theorem RandomOk.nodup (hr : RandomOk f l) : l.Nodup := by
  rw [nodup_iff_getElem?_ne_getElem?]
  intro i j hij hj he
  have hx := (hr j l[j]).mp (getElem?_eq_getElem hj)
  have hy := (hr i l[j]).mp (he.trans (getElem?_eq_getElem hj))
  have := Option.some.inj (hx.symm.trans hy)
  omega

theorem Consistent.mem_vRandom (hc : Consistent none m) :
    id ∈ m.vRandom ↔ ∃ info, m.mapInfo id = some info := by
  constructor
  · intro hid
    obtain ⟨p, hp⟩ := mem_iff_getElem?.mp hid
    exact (Option.map_eq_some_iff.mp ((hc.random p id).mp hp)).imp fun _ h => h.1
  · rintro ⟨info, hi⟩
    exact mem_of_getElem? ((hc.random info.nRandomPos id).mpr (by simp [hi]))

theorem Consistent.nTried_eq (hc : Consistent none m) :
    m.nTried = ((m.vRandom.toFinset.filter (m.isTried ·)).card : Int) := by
  have hlen : ∀ b, ((m.vvTried b).length : Int) =
      ∑ id ∈ m.vRandom.toFinset, ((m.vvTried b).count id : Int) := by
    intro b
    rw [← sum_toFinset_count_eq_length, Nat.cast_sum]
    refine sum_subset (fun id hid => ?_) (fun id _ hid => by simpa [count_eq_zero] using hid)
    obtain ⟨info, hi, -⟩ := hc.mem_tried (mem_toFinset.mp hid)
    exact mem_toFinset.mpr (hc.mem_vRandom.mpr ⟨info, hi⟩)
  rw [hc.nTried, sum_congr rfl fun b _ => hlen b, sum_comm, card_filter, Nat.cast_sum]
  refine sum_congr rfl fun id hid => ?_
  obtain ⟨info, hi⟩ := hc.mem_vRandom.mp (mem_toFinset.mp hid)
  have hs := (hc.entry hi).slots
  simp only [isTried, hi]
  exact hs.trans (by simp)

theorem Consistent.nNew_eq (hc : Consistent none m) :
    m.nNew = ((m.vRandom.toFinset.filter fun id => ¬ m.isTried id).card : Int) := by
  have hsplit := card_filter_add_card_filter_not (s := m.vRandom.toFinset) (m.isTried ·)
  rw [toFinset_card_of_nodup hc.random.nodup] at hsplit
  have := hc.nTried_eq
  have := hc.size
  omega

end Counters

/-- **The address manager invariant.** No `assert` fails and all that `Check_` tests holds, as long
as `Good` and `Attempt` record real times. -/
theorem run_consistent (h : Hashes) (calls : List (Ambient × Call)) (ht : ∀ c ∈ calls, c.2.TimeOk) :
    ∃ m, run h calls = some m ∧ Consistent none m ∧
      m.nTried = ((m.vRandom.toFinset.filter (m.isTried ·)).card : Int) ∧
      m.nNew = ((m.vRandom.toFinset.filter fun id => ¬ m.isTried id).card : Int) := by
  obtain ⟨m, hm, hc⟩ := run_spec Consistent.empty ht
  exact ⟨m, hm, hc, hc.nTried_eq, hc.nNew_eq⟩

def sampleHashes : Hashes := ⟨fun _ _ => 0, fun _ _ => 0, fun _ => true⟩

def sampleCalls (nTime : Int) : List (Ambient × Call) :=
  [(⟨1000, fun _ => 0⟩, .add ⟨7, 7372, 1, 900⟩ 3 0), (⟨1000, fun _ => 0⟩, .good 7 7372 nTime)]

theorem run_consistent_sample : (sampleCalls 1000).length = 2 ∧
    ∃ m, run sampleHashes (sampleCalls 1000) = some m ∧ Consistent none m ∧
      m.nTried = ((m.vRandom.toFinset.filter (m.isTried ·)).card : Int) ∧
      m.nNew = ((m.vRandom.toFinset.filter fun id => ¬ m.isTried id).card : Int) :=
  ⟨rfl, run_consistent sampleHashes (sampleCalls 1000) (by simp [sampleCalls, Call.TimeOk])⟩

/-- `Good` at time 0 makes a tried entry that was never connected to, which `Check_` refuses. -/
theorem good_at_zero : ¬ ∃ m, run sampleHashes (sampleCalls 0) = some m ∧ Consistent none m := by
  rintro ⟨m, hm, hc⟩
  have hrun : ((run sampleHashes (sampleCalls 0)).bind (·.mapInfo 0)).map
      (fun i => (i.fInTried, i.nLastSuccess)) = some (true, 0) := by decide +kernel
  rw [hm] at hrun
  obtain ⟨_, hi, he⟩ := Option.map_eq_some_iff.mp hrun
  have := ((hc.entry hi).tried (by simpa using congrArg Prod.fst he)).2
  simp only [Prod.mk.injEq] at he
  omega

end HoboNickels.AddrMan

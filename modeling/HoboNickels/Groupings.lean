import HoboNickels.CreditCache

/-!
# Address groupings

`GetAddressGroupings` first collects the addresses that go together. It looks previous transactions
up with `mapWallet[hash]`, which inserts an empty one where there is none, and reads an output of
what it got. Only the first input is known to be of the wallet.
-/

namespace HoboNickels

open Function List

abbrev CTxDestination := Nat

def MapWallet.prevOut (mapWallet : MapWallet) (txin : CTxIn) : Option CTxOut :=
  (mapWallet txin.prevout.hash).bind (·.vout[txin.prevout.n]?)

namespace OwnerWallet

variable (pwallet : OwnerWallet) (destination : CScript → Option CTxDestination)

def isMineIn (mapWallet : MapWallet) (txin : CTxIn) : Bool :=
  (mapWallet.prevOut txin).any fun txout => pwallet.isMine txout.scriptPubKey ≠ .no

def addresses (vout : List CTxOut) : List CTxDestination :=
  vout.filterMap fun txout => destination txout.scriptPubKey

/-- The outputs behind the inputs, and `mapWallet` afterwards; `none` if one does not exist. -/
def readInputs : MapWallet → List CTxIn → Option (MapWallet × List CTxOut)
  | mapWallet, [] => some (mapWallet, [])
  | mapWallet, txin :: rest => do
    let prev := (mapWallet txin.prevout.hash).getD default
    let txout ← prev.vout[txin.prevout.n]?
    let (mapWallet, vout) ← readInputs (update mapWallet txin.prevout.hash prev) rest
    return (mapWallet, txout :: vout)

def groupEntry (mapWallet : MapWallet) (wtx : CWalletTx) :
    Option (MapWallet × List (List CTxDestination)) :=
  let lone := (addresses destination (wtx.vout.filter fun txout =>
    pwallet.isMine txout.scriptPubKey ≠ .no)).map ([·])
  if wtx.vin.head?.any (pwallet.isMineIn mapWallet) then
    -- each change output looks the transaction of `vin[0]` up again, which is there by now
    (readInputs mapWallet wtx.vin).map fun (mapWallet, vout) =>
      (mapWallet, addresses destination (vout ++ wtx.vout.filter pwallet.isChange) :: lone)
  else some (mapWallet, lone)

/-- The first loop. An entry inserted on the way would add nothing when it is met. -/
def collectGroupings : MapWallet → List CWalletTx → Option (MapWallet × List (List CTxDestination))
  | mapWallet, [] => some (mapWallet, [])
  | mapWallet, wtx :: rest => do
    let (mapWallet, own) ← groupEntry pwallet destination mapWallet wtx
    let (mapWallet, groupings) ← collectGroupings mapWallet rest
    return (mapWallet, own ++ groupings)

variable {pwallet destination} {mapWallet : MapWallet}

theorem readInputs_cons (txin : CTxIn) (rest : List CTxIn) :
    readInputs mapWallet (txin :: rest) = (mapWallet.prevOut txin).bind fun txout =>
      (readInputs mapWallet rest).map fun r => (r.1, txout :: r.2) := by
  rw [readInputs, MapWallet.prevOut]
  cases hprev : mapWallet txin.prevout.hash with
  | none => rfl
  | some prev =>
    have hsame : update mapWallet txin.prevout.hash (some prev) = mapWallet := by
      rw [← hprev, update_eq_self]
    simp [hsame, Option.map_eq_bind]

theorem readInputs_fst {vin : List CTxIn} {r : MapWallet × List CTxOut}
    (h : readInputs mapWallet vin = some r) : r.1 = mapWallet := by
  induction vin generalizing r with
  | nil => cases h; rfl
  | cons txin rest ih =>
    rw [readInputs_cons] at h
    obtain ⟨_, -, h⟩ := Option.bind_eq_some_iff.mp h
    obtain ⟨r', hr, rfl⟩ := Option.map_eq_some_iff.mp h
    exact ih (r := r') hr

theorem isSome_readInputs {vin : List CTxIn} : (readInputs mapWallet vin).isSome ↔
    ∀ txin ∈ vin, (mapWallet.prevOut txin).isSome := by
  induction vin with
  | nil => simp [readInputs]
  | cons txin rest ih =>
    rw [readInputs_cons, forall_mem_cons, ← ih]
    cases mapWallet.prevOut txin <;> simp

/-- **The wallet is only read**, and no output that does not exist, exactly if the wallet has what
every input of its own transactions spends. -/
theorem collectGroupings_readOnly_iff (mapWallet : MapWallet) (entries : List CWalletTx) :
    (∃ groupings, collectGroupings pwallet destination mapWallet entries =
        some (mapWallet, groupings)) ↔
      ∀ wtx ∈ entries, wtx.vin.head?.any (pwallet.isMineIn mapWallet) →
        ∀ txin ∈ wtx.vin, (mapWallet.prevOut txin).isSome := by
  induction entries with
  | nil => simp [collectGroupings]
  | cons wtx rest ih =>
    rw [forall_mem_cons, ← ih, ← isSome_readInputs, collectGroupings, groupEntry]
    rcases hrest : collectGroupings pwallet destination mapWallet rest with _ | ⟨m, groupings⟩
    all_goals
      split
      case isTrue hown =>
        rcases h : readInputs mapWallet wtx.vin with _ | ⟨m', _⟩
        · simp [hown]
        · obtain rfl : m' = mapWallet := readInputs_fst h
          simp [hrest]
      case isFalse hown => simp [hrest, hown]

def ownPayment : CWalletTx := { (default : CWalletTx) with vout := [⟨1, []⟩] }

/-- The first input is the wallet's own, the second spends a transaction it does not have. -/
def jointPayment : CWalletTx :=
  { (default : CWalletTx) with vin := [⟨⟨1, 0⟩, [], 0⟩, ⟨⟨2, 0⟩, [], 0⟩] }

def jointWallet : MapWallet := fun hash =>
  if hash = 1 then some ownPayment else if hash = 3 then some jointPayment else none

theorem collectGroupings_foreign_input :
    collectGroupings ⟨fun _ => .spendable, fun _ => false, jointWallet⟩ (fun _ => none) jointWallet
      [ownPayment, jointPayment] = none := rfl

end OwnerWallet

end HoboNickels

import Mathlib

/-!
# Copies of a key

A `CKey` holds its form of public key twice, in the OpenSSL object and in `fCompressedPubKey`. The
copy constructor and `operator=` copy the first and forget the second: a constructed copy keeps
whatever the flag's memory held, an assigned one the flag that it had before.
-/

namespace HoboNickels.KeyCopy

abbrev Bytes := List UInt8

/-- The calls of OpenSSL on an `EC_KEY`; `none` is a failure. -/
structure OpenSSL (EcKey : Type) where
  newByCurveName : EcKey
  /-- `EC_KEY_generate_key`, with the random number drawn. -/
  generateKey : EcKey → Nat → Option EcKey
  /-- `d2i_ECPrivateKey` followed by `EC_KEY_check_key`. -/
  readPrivateKey : EcKey → Bytes → Option EcKey
  regenerateKey : EcKey → Bytes → Option EcKey
  readPublicKey : EcKey → Bytes → Option EcKey
  setCompressedForm : EcKey → EcKey
  /-- `EC_KEY_get0_private_key`, written out in 32 bytes. -/
  privateKey : EcKey → Option Bytes
  publicKey : EcKey → Bytes

structure CKey (EcKey : Type) where
  pkey : EcKey
  fSet : Bool
  fCompressedPubKey : Bool

variable {EcKey : Type} (ssl : OpenSSL EcKey)

namespace CKey

section

variable (key : CKey EcKey)

def setCompressedPubKey : CKey EcKey :=
  { key with pkey := ssl.setCompressedForm key.pkey, fCompressedPubKey := true }

def reset : CKey EcKey := ⟨ssl.newByCurveName, false, false⟩

def isNull : Bool := !key.fSet

def isCompressed : Bool := key.fCompressedPubKey

/-- The four setters; `none` is an exception. -/
def makeNewKey (random : Nat) (fCompressed : Bool) : Option (CKey EcKey) := do
  let pkey ← ssl.generateKey key.pkey random
  let key := { key with pkey }
  some { if fCompressed then key.setCompressedPubKey ssl else key with fSet := true }

def setPrivKey (vchPrivKey : Bytes) : CKey EcKey :=
  match ssl.readPrivateKey key.pkey vchPrivKey with
  | some pkey => { key with pkey, fSet := true }
  | none => reset ssl

def setSecret (vchSecret : Bytes) (fCompressed : Bool) : Option (CKey EcKey) := do
  if vchSecret.length ≠ 32 then none
  let pkey ← ssl.regenerateKey ssl.newByCurveName vchSecret
  let key := { key with pkey, fSet := true }
  some (if fCompressed || key.fCompressedPubKey then key.setCompressedPubKey ssl else key)

def setPubKey (vchPubKey : Bytes) : CKey EcKey :=
  match ssl.readPublicKey key.pkey vchPubKey with
  | some pkey =>
    let key := { key with pkey, fSet := true }
    if vchPubKey.length = 33 then key.setCompressedPubKey ssl else key
  | none => reset ssl

def getSecret : Option (Bytes × Bool) :=
  (ssl.privateKey key.pkey).map (·, key.fCompressedPubKey)

def getPubKey : Bytes := ssl.publicKey key.pkey

end

/-- `CKey(const CKey&)` over memory whose flag byte is `fUninitialised`. -/
def copyConstruct (fUninitialised : Bool) (b : CKey EcKey) : CKey EcKey :=
  ⟨b.pkey, b.fSet, fUninitialised⟩

/-- `operator=`. -/
def assign (this b : CKey EcKey) : CKey EcKey := { this with pkey := b.pkey, fSet := b.fSet }

end CKey

/-- A call that gives an object its key. -/
inductive Setter
  | makeNewKey (random : Nat) (fCompressed : Bool)
  | setPrivKey (vchPrivKey : Bytes)
  | setSecret (vchSecret : Bytes) (fCompressed : Bool)
  | setPubKey (vchPubKey : Bytes)

def Setter.run (key : CKey EcKey) : Setter → Option (CKey EcKey)
  | makeNewKey random fCompressed => key.makeNewKey ssl random fCompressed
  | setPrivKey vchPrivKey => some (key.setPrivKey ssl vchPrivKey)
  | setSecret vchSecret fCompressed => key.setSecret ssl vchSecret fCompressed
  | setPubKey vchPubKey => some (key.setPubKey ssl vchPubKey)

/-- The flag after a setter, as its arguments and the object before it give it. -/
def Setter.flag (key : CKey EcKey) : Setter → Bool
  | makeNewKey _ fCompressed | setSecret _ fCompressed => key.fCompressedPubKey || fCompressed
  | setPrivKey vch => key.fCompressedPubKey && (ssl.readPrivateKey key.pkey vch).isSome
  | setPubKey vch =>
    (key.fCompressedPubKey || vch.length = 33) && (ssl.readPublicKey key.pkey vch).isSome

theorem Setter.flag_run {this key : CKey EcKey} {setter : Setter}
    (hkey : setter.run ssl this = some key) : key.fCompressedPubKey = setter.flag ssl this := by
  cases setter with
  | makeNewKey random fCompressed =>
    obtain ⟨pkey, -, hkey⟩ := Option.bind_eq_some_iff.mp hkey
    cases hkey
    cases fCompressed <;> simp [flag, CKey.setCompressedPubKey]
  | setPrivKey vchPrivKey =>
    cases hkey
    unfold CKey.setPrivKey
    split <;> simp [flag, CKey.reset, *]
  | setSecret vchSecret fCompressed =>
    simp only [run, CKey.setSecret] at hkey
    split at hkey
    · cases hkey
    · obtain ⟨pkey, -, hkey⟩ := Option.bind_eq_some_iff.mp hkey
      cases hkey
      simp only [flag]
      split <;> simp_all [CKey.setCompressedPubKey, Bool.or_comm]
  | setPubKey vchPubKey =>
    cases hkey
    unfold CKey.setPubKey
    split
    · split <;> simp [flag, CKey.setCompressedPubKey, *]
    · simp [flag, CKey.reset, *]

/-- One copy of a chain: into new memory, or over an object. -/
inductive Copy (EcKey : Type)
  | construct (fUninitialised : Bool)
  | assign (this : CKey EcKey)

namespace Copy

def run (b : CKey EcKey) : Copy EcKey → CKey EcKey
  | construct fUninitialised => b.copyConstruct fUninitialised
  | assign this => this.assign b

/-- The flag that the place of the copy has before it. -/
def flagBefore : Copy EcKey → Bool
  | construct fUninitialised => fUninitialised
  | assign this => this.fCompressedPubKey

def runAll (key : CKey EcKey) (copies : List (Copy EcKey)) : CKey EcKey := copies.foldl run key

theorem run_eq (b : CKey EcKey) (copy : Copy EcKey) :
    copy.run b = ⟨b.pkey, b.fSet, copy.flagBefore⟩ := by
  cases copy <;> rfl

/-- Of a chain of copies only the last one's place shows. -/
theorem runAll_eq (key : CKey EcKey) (copies : List (Copy EcKey)) :
    runAll key copies = { key with
      fCompressedPubKey := (copies.getLast?.map flagBefore).getD key.fCompressedPubKey } := by
  induction copies using List.reverseRecOn with
  | nil => rfl
  | append_singleton copies copy ih =>
    rw [runAll, List.foldl_append, List.foldl_cons, List.foldl_nil, ← runAll, ih, run_eq]
    simp

end Copy

/-- What a caller sees of two keys is the same. -/
def SameKey (key copy : CKey EcKey) : Prop :=
  copy.isNull = key.isNull ∧ copy.isCompressed = key.isCompressed ∧
    copy.getPubKey ssl = key.getPubKey ssl ∧ copy.getSecret ssl = key.getSecret ssl

/-- Copies keep the key exactly when the place of the last one held the key's flag already. -/
theorem sameKey_runAll_iff (this key : CKey EcKey) (setter : Setter)
    (hkey : setter.run ssl this = some key) (copies : List (Copy EcKey)) :
    SameKey ssl key (Copy.runAll key copies) ↔
      ∀ last ∈ copies.getLast?, last.flagBefore = setter.flag ssl this := by
  rw [Copy.runAll_eq, ← setter.flag_run ssl hkey]
  cases copies.getLast? <;>
    simp +contextual [SameKey, CKey.isNull, CKey.isCompressed, CKey.getPubKey, CKey.getSecret]

/-- An `EC_KEY` of which only the form of the public key is kept. -/
def formOnly : OpenSSL Bool where
  newByCurveName := false
  generateKey form _ := some form
  readPrivateKey form _ := some form
  regenerateKey form _ := some form
  readPublicKey form _ := some form
  setCompressedForm _ := true
  privateKey _ := some (.replicate 32 1)
  publicKey form := .replicate (if form then 33 else 65) 2

theorem sameKey_runAll_uncompressed :
    SameKey formOnly ⟨false, true, false⟩
      (Copy.runAll ⟨false, true, false⟩ [.construct true, .assign (.reset formOnly)]) :=
  (sameKey_runAll_iff formOnly (.reset formOnly) ⟨false, true, false⟩ (.makeNewKey 0 false) rfl
    [.construct true, .assign (.reset formOnly)]).mpr (by decide)

/-- A compressed key assigned to a new object keeps its public key and loses its flag. -/
theorem assigned_key_uncompressed :
    ∃ key, (Setter.makeNewKey 0 true).run formOnly (.reset formOnly) = some key ∧
      key.isCompressed = true ∧ ((CKey.reset formOnly).assign key).isCompressed = false ∧
      ((CKey.reset formOnly).assign key).getPubKey formOnly = key.getPubKey formOnly ∧
      ((CKey.reset formOnly).assign key).getSecret formOnly ≠ key.getSecret formOnly :=
  ⟨⟨true, true, true⟩, rfl, rfl, rfl, rfl, by decide⟩

end HoboNickels.KeyCopy

import HoboNickels.Lib.OrdMap
import HoboNickels.Primitives

/-!
# Key stores

`CBasicKeyStore` keeps secrets in the clear, `CCryptoKeyStore` encrypted under a master key once
`EncryptKeys` has run. Unlocked, the second should answer as the first that was given the same keys;
locked, it should give out no key. `Refines` is the relation, kept by `Lock`, `Unlock` and `AddKey`,
and rests on the keys being added in the form their own flag names.

The plain store resets the `CKey` it is given before it writes to it; the encrypted store does not,
and a flag that was set turns an uncompressed key into a compressed one (`getKey_into_used_key`).
-/

namespace HoboNickels.KeyStores

open List OrdMap

abbrev CKeyID := Nat

abbrev CPubKey := List UInt8

abbrev CKeyingMaterial := List UInt8

abbrev CSecret := { bytes : List UInt8 // bytes.length = 32 }

/-- What the key stores use of OpenSSL and of the hash functions. -/
structure KeyCrypto where
  /-- `i2o_ECPublicKey` for a secret, in the compressed or the uncompressed form. -/
  pubKeyOf : CSecret → Bool → CPubKey
  length_pubKeyOf : ∀ s f, (pubKeyOf s f).length = if f then 33 else 65
  isPoint : CPubKey → Bool
  isPoint_pubKeyOf : ∀ s f, isPoint (pubKeyOf s f) = true
  getID : CPubKey → CKeyID
  getHash : CPubKey → Uint256
  /-- `CCrypter::Encrypt` and `CCrypter::Decrypt` after `SetKey`. -/
  encrypt : CKeyingMaterial → Uint256 → List UInt8 → Option (List UInt8)
  decrypt : CKeyingMaterial → Uint256 → List UInt8 → Option (List UInt8)
  scriptOf : CKeyID → CScript

namespace KeyCrypto

variable (c : KeyCrypto)

/-- `EncryptSecret`; `SetKey` refuses a master key of another size. -/
def encryptSecret (vMasterKey : CKeyingMaterial) (vchPlaintext : List UInt8) (nIV : Uint256) :
    Option (List UInt8) :=
  if vMasterKey.length ≠ 32 then none else c.encrypt vMasterKey nIV vchPlaintext

def decryptSecret (vMasterKey : CKeyingMaterial) (vchCiphertext : List UInt8) (nIV : Uint256) :
    Option (List UInt8) :=
  if vMasterKey.length ≠ 32 then none else c.decrypt vMasterKey nIV vchCiphertext

/-- Decryption undoes encryption, and under another master key it gives no secret of the same public
key. -/
structure Laws : Prop where
  inverse : ∀ m iv plain ct, c.encryptSecret m plain iv = some ct →
    c.decryptSecret m ct iv = some plain
  other : ∀ m v (s s' : CSecret) f ct, v ≠ m →
    c.encryptSecret m s (c.getHash (c.pubKeyOf s f)) = some ct →
    c.decryptSecret v ct (c.getHash (c.pubKeyOf s f)) = some s' → c.pubKeyOf s' f ≠ c.pubKeyOf s f

end KeyCrypto

/-- A `CKey`: the secret and the serialized public key of its `EC_KEY`, and the flag. -/
structure CKey where
  secret : Option CSecret
  pub : Option CPubKey
  fCompressedPubKey : Bool
  deriving DecidableEq

namespace CKey

variable (c : KeyCrypto)

def reset : CKey := ⟨none, none, false⟩

def setSecret (key : CKey) (vchSecret : CSecret) (fCompressed : Bool) : CKey :=
  let fCompressedPubKey := fCompressed || key.fCompressedPubKey
  ⟨some vchSecret, some (c.pubKeyOf vchSecret fCompressedPubKey), fCompressedPubKey⟩

/-- `SetPubKey`: only a compressed key changes the flag. -/
def setPubKey (key : CKey) (vchPubKey : CPubKey) : CKey :=
  if c.isPoint vchPubKey then
    ⟨key.secret, some vchPubKey, key.fCompressedPubKey || vchPubKey.length == 33⟩
  else reset

def Proper (key : CKey) : Prop :=
  ∀ s p, key.secret = some s → key.pub = some p → p = c.pubKeyOf s key.fCompressedPubKey

variable {c}

theorem setSecret_setPubKey (key : CKey) (s : CSecret) (f : Bool) (s' : CSecret) :
    (key.setPubKey c (c.pubKeyOf s f)).setSecret c s' false =
      ⟨some s', some (c.pubKeyOf s' (key.fCompressedPubKey || f)), key.fCompressedPubKey || f⟩ := by
  have hform : ((c.pubKeyOf s f).length == 33) = f := by
    rw [c.length_pubKeyOf]
    cases f <;> rfl
  simp [setPubKey, setSecret, c.isPoint_pubKeyOf, hform]

end CKey

structure CBasicKeyStore where
  mapKeys : OrdMap CKeyID (CSecret × Bool)
  setWatchOnly : List CScript

namespace CBasicKeyStore

variable (c : KeyCrypto)

def new : CBasicKeyStore := ⟨empty, []⟩

variable (ks : CBasicKeyStore)

/-- `AddKey`; `none` when the key has no secret and an exception is thrown. -/
def addKey (key : CKey) : Option CBasicKeyStore :=
  match key.secret, key.pub with
  | some secret, some pub =>
    some { ks with mapKeys := ks.mapKeys.insert (c.getID pub) (secret, key.fCompressedPubKey) }
  | _, _ => none

def haveKey (address : CKeyID) : Bool := ks.mapKeys.contains address

def getKey (address : CKeyID) (_keyOut : CKey) : Option CKey :=
  match ks.mapKeys.find? address with
  | some (secret, fCompressed) => some (CKey.reset.setSecret c secret fCompressed)
  | none => none

def getPubKey (address : CKeyID) : Option CPubKey :=
  (ks.getKey c address CKey.reset).bind CKey.pub

def haveWatchOnly (dest : CScript) : Bool := ks.setWatchOnly.contains dest

end CBasicKeyStore

/-! ## The encrypted store -/

structure CCryptoKeyStore extends CBasicKeyStore where
  mapCryptedKeys : OrdMap CKeyID (CPubKey × List UInt8)
  vMasterKey : CKeyingMaterial
  fUseCrypto : Bool

namespace CCryptoKeyStore

variable (c : KeyCrypto)

def new : CCryptoKeyStore := ⟨CBasicKeyStore.new, empty, [], false⟩

variable (ks : CCryptoKeyStore)

def isLocked : Bool := ks.fUseCrypto && ks.vMasterKey.isEmpty

def setCrypted : CCryptoKeyStore × Bool :=
  if ks.fUseCrypto then (ks, true)
  else if !ks.mapKeys.isEmpty then (ks, false)
  else ({ ks with fUseCrypto := true }, true)

def lock : CCryptoKeyStore × Bool :=
  match ks.setCrypted with
  | (ks, false) => (ks, false)
  | (ks, true) => ({ ks with vMasterKey := [] }, true)

variable (vMasterKeyIn : CKeyingMaterial)

def opens (entry : CPubKey × List UInt8) : Bool :=
  match c.decryptSecret vMasterKeyIn entry.2 (c.getHash entry.1) with
  | none => false
  | some vchSecret =>
    if h : vchSecret.length = 32 then
      ((CKey.reset.setPubKey c entry.1).setSecret c ⟨vchSecret, h⟩ false).pub == some entry.1
    else false

/-- `Unlock`. The loop ends in its first round: it breaks or returns. -/
def unlock : CCryptoKeyStore × Bool :=
  match ks.setCrypted with
  | (ks, false) => (ks, false)
  | (ks, true) =>
    match ks.mapCryptedKeys.entries with
    | [] => ({ ks with vMasterKey := vMasterKeyIn }, true)
    | (_, entry) :: _ =>
      if opens c vMasterKeyIn entry then ({ ks with vMasterKey := vMasterKeyIn }, true)
      else (ks, false)

def addCryptedKey (vchPubKey : CPubKey) (vchCryptedSecret : List UInt8) : CCryptoKeyStore × Bool :=
  match ks.setCrypted with
  | (ks, false) => (ks, false)
  | (ks, true) =>
    ({ ks with mapCryptedKeys :=
        ks.mapCryptedKeys.insert (c.getID vchPubKey) (vchPubKey, vchCryptedSecret) }, true)

def addKey (ks : CCryptoKeyStore) (key : CKey) : CCryptoKeyStore × Bool :=
  match key.secret, key.pub with
  | some secret, some pub =>
    if ks.haveWatchOnly (c.scriptOf (c.getID pub)) then (ks, false)
    else if !ks.fUseCrypto then
      match ks.toCBasicKeyStore.addKey c key with
      | some basic => ({ ks with toCBasicKeyStore := basic }, true)
      | none => (ks, false)
    else if ks.isLocked then (ks, false)
    else
      match c.encryptSecret ks.vMasterKey secret (c.getHash pub) with
      | none => (ks, false)
      | some vchCryptedSecret => ks.addCryptedKey c pub vchCryptedSecret
  | _, _ => (ks, false)

def haveKey (ks : CCryptoKeyStore) (address : CKeyID) : Bool :=
  if !ks.fUseCrypto then ks.toCBasicKeyStore.haveKey address
  else ks.mapCryptedKeys.contains address

/-- `GetKey` into `keyOut`, which is not reset. -/
def getKey (ks : CCryptoKeyStore) (address : CKeyID) (keyOut : CKey) : Option CKey :=
  if !ks.fUseCrypto then ks.toCBasicKeyStore.getKey c address keyOut
  else
    match ks.mapCryptedKeys.find? address with
    | none => none
    | some (vchPubKey, vchCryptedSecret) =>
      match c.decryptSecret ks.vMasterKey vchCryptedSecret (c.getHash vchPubKey) with
      | none => none
      | some vchSecret =>
        if h : vchSecret.length = 32 then
          some ((keyOut.setPubKey c vchPubKey).setSecret c ⟨vchSecret, h⟩ false)
        else none

def getPubKey (address : CKeyID) : Option CPubKey :=
  if !ks.fUseCrypto then (ks.getKey c address CKey.reset).bind CKey.pub
  else (ks.mapCryptedKeys.find? address).map Prod.fst

/-- The loop of `EncryptKeys`; a failure leaves the entries written so far. -/
def encryptEntries (vMasterKeyIn : CKeyingMaterial) : List (CKeyID × CSecret × Bool) →
    OrdMap CKeyID (CPubKey × List UInt8) → OrdMap CKeyID (CPubKey × List UInt8) × Bool
  | [], done => (done, true)
  | (_, secret, fCompressed) :: rest, done =>
    let vchPubKey := c.pubKeyOf secret fCompressed
    match c.encryptSecret vMasterKeyIn secret (c.getHash vchPubKey) with
    | none => (done, false)
    | some vchCryptedSecret =>
      encryptEntries vMasterKeyIn rest
        (done.insert (c.getID vchPubKey) (vchPubKey, vchCryptedSecret))

def encryptKeys : CCryptoKeyStore × Bool :=
  if !ks.mapCryptedKeys.isEmpty || ks.fUseCrypto then (ks, false)
  else
    match encryptEntries c vMasterKeyIn ks.mapKeys.entries ks.mapCryptedKeys with
    | (crypted, false) => ({ ks with fUseCrypto := true, mapCryptedKeys := crypted }, false)
    | (crypted, true) =>
      ({ ks with fUseCrypto := true, mapCryptedKeys := crypted, mapKeys := empty }, true)

end CCryptoKeyStore

/-! ## The relation between the two stores -/

variable {c : KeyCrypto} {m : CKeyingMaterial}

/-- The encrypted store holds the keys of the plain one, encrypted under `m`. -/
structure Refines (c : KeyCrypto) (m : CKeyingMaterial) (ks : CCryptoKeyStore)
    (plain : CBasicKeyStore) : Prop where
  crypted : ks.fUseCrypto = true
  noWatchOnly : ks.setWatchOnly = []
  size : m.length = 32
  master : ks.vMasterKey = [] ∨ ks.vMasterKey = m
  absent : ∀ id, plain.mapKeys.find? id = none → ks.mapCryptedKeys.find? id = none
  present : ∀ id s f, plain.mapKeys.find? id = some (s, f) → ∃ ct,
    c.encryptSecret m s (c.getHash (c.pubKeyOf s f)) = some ct ∧
      ks.mapCryptedKeys.find? id = some (c.pubKeyOf s f, ct)
  nonempty : ∃ id e, plain.mapKeys.find? id = some e

namespace Refines

variable {ks : CCryptoKeyStore} {plain : CBasicKeyStore} {entry : CPubKey × List UInt8}

section

variable (h : Refines c m ks plain)
include h

open CCryptoKeyStore

theorem setCrypted : ks.setCrypted = (ks, true) := by
  simp [CCryptoKeyStore.setCrypted, h.crypted]

theorem exists_plain {id : CKeyID} (hentry : ks.mapCryptedKeys.find? id = some entry) : ∃ s f,
      plain.mapKeys.find? id = some (s, f) ∧ entry.1 = c.pubKeyOf s f ∧
        c.encryptSecret m s (c.getHash (c.pubKeyOf s f)) = some entry.2 := by
  cases hplain : plain.mapKeys.find? id with
  | none =>
    rw [h.absent id hplain] at hentry
    cases hentry
  | some e =>
    obtain ⟨s, f⟩ := e
    obtain ⟨_, hct, hfound⟩ := h.present id s f hplain
    rw [hfound] at hentry
    cases hentry
    exact ⟨s, f, rfl, rfl, hct⟩

theorem haveKey_eq (id : CKeyID) : ks.haveKey id = plain.haveKey id := by
  simp only [haveKey, h.crypted, CBasicKeyStore.haveKey, OrdMap.contains]
  cases hplain : plain.mapKeys.find? id with
  | none => simp [h.absent id hplain]
  | some e =>
    obtain ⟨_, -, hfound⟩ := h.present id e.1 e.2 hplain
    simp [hfound]

theorem getPubKey_eq (id : CKeyID) : ks.getPubKey c id = plain.getPubKey c id := by
  simp only [getPubKey, h.crypted, CBasicKeyStore.getPubKey, CBasicKeyStore.getKey]
  cases hplain : plain.mapKeys.find? id with
  | none => simp [h.absent id hplain]
  | some e =>
    obtain ⟨_, -, hfound⟩ := h.present id e.1 e.2 hplain
    simp [hfound, CKey.setSecret, CKey.reset]

theorem getKey_locked (hlocked : ks.isLocked = true) (id : CKeyID)
    (keyOut : CKey) : ks.getKey c id keyOut = none := by
  have hempty : ks.vMasterKey = [] := by
    simpa [isLocked, h.crypted] using hlocked
  simp only [getKey, h.crypted, hempty]
  cases ks.mapCryptedKeys.find? id with
  | none => simp
  | some e => simp [KeyCrypto.decryptSecret]

theorem vMasterKey_eq (hunlocked : ks.isLocked = false) : ks.vMasterKey = m := by
  refine h.master.resolve_left ?_
  intro hempty
  simp [isLocked, h.crypted, hempty] at hunlocked

end

section

variable (laws : c.Laws) (h : Refines c m ks plain)
include laws h

/-- `GetKey` answers as the plain store, unless it writes an uncompressed key over one that has the
flag set. -/
theorem getKey_eq_iff (hunlocked : ks.isLocked = false) (id : CKeyID) (keyOut : CKey) :
    ks.getKey c id keyOut = plain.getKey c id keyOut ↔
      (∀ s, plain.mapKeys.find? id = some (s, false) → keyOut.fCompressedPubKey = false) := by
  simp only [CCryptoKeyStore.getKey, h.crypted, h.vMasterKey_eq hunlocked, CBasicKeyStore.getKey]
  cases hplain : plain.mapKeys.find? id with
  | none => simp [h.absent id hplain]
  | some e =>
    obtain ⟨s, f⟩ := e
    obtain ⟨_, hct, hfound⟩ := h.present id s f hplain
    simp only [hfound, laws.inverse _ _ _ _ hct, s.2, CKey.setSecret_setPubKey]
    cases f <;> cases keyOut.fCompressedPubKey <;> simp [CKey.setSecret, CKey.reset]

theorem opens_iff {id : CKeyID} (hentry : ks.mapCryptedKeys.find? id = some entry)
    (v : CKeyingMaterial) : CCryptoKeyStore.opens c v entry = true ↔ v = m := by
  obtain ⟨s, f, -, hpub, hct⟩ := h.exists_plain hentry
  simp only [CCryptoKeyStore.opens, hpub]
  constructor
  · intro hopens
    by_contra hne
    split at hopens
    · cases hopens
    rename_i s' hs'
    split at hopens
    next hlen =>
      rw [CKey.setSecret_setPubKey] at hopens
      refine laws.other m v s ⟨s', hlen⟩ f entry.2 hne hct hs' ?_
      simpa [CKey.reset] using hopens
    · cases hopens
  · rintro rfl
    simp only [laws.inverse _ _ _ _ hct, s.2, CKey.setSecret_setPubKey]
    simp [CKey.reset]

/-- **Unlock** returns true exactly for the master key. -/
theorem unlock_iff (v : CKeyingMaterial) : (ks.unlock c v).2 = true ↔ v = m := by
  obtain ⟨id, e, hplain⟩ := h.nonempty
  obtain ⟨_, -, hfound⟩ := h.present id e.1 e.2 hplain
  simp only [CCryptoKeyStore.unlock, h.setCrypted]
  cases hentries : ks.mapCryptedKeys.entries with
  | nil =>
    rw [← mem_entries_iff, hentries] at hfound
    cases hfound
  | cons first rest =>
    have hfirst : ks.mapCryptedKeys.find? first.1 = some first.2 := by
      rw [← mem_entries_iff, hentries]
      exact mem_cons_self
    rw [← h.opens_iff laws hfirst v]
    by_cases hopens : CCryptoKeyStore.opens c v first.2 = true <;> simp [hopens]

end

theorem withMasterKey (h : Refines c m ks plain) {v : CKeyingMaterial} (hv : v = [] ∨ v = m) :
    Refines c m { ks with vMasterKey := v } plain :=
  { h with master := hv }

theorem lock (h : Refines c m ks plain) : Refines c m ks.lock.1 plain := by
  simp only [CCryptoKeyStore.lock, h.setCrypted]
  exact h.withMasterKey (.inl rfl)

theorem unlock (laws : c.Laws) (h : Refines c m ks plain) (v : CKeyingMaterial) :
    Refines c m (ks.unlock c v).1 plain := by
  have hiff := h.unlock_iff laws v
  simp only [CCryptoKeyStore.unlock, h.setCrypted] at hiff ⊢
  split at hiff
  · exact h.withMasterKey (.inr (hiff.mp rfl))
  split at hiff
  next hopens =>
    rw [if_pos hopens]
    exact h.withMasterKey (.inr (hiff.mp rfl))
  next hopens =>
    rw [if_neg hopens]
    exact h

/-- **AddKey** fails and changes nothing, or adds the key to both stores. -/
theorem addKey (h : Refines c m ks plain) {key : CKey} (hkey : key.Proper c)
    {ks' : CCryptoKeyStore} {ok : Bool} (hadd : ks.addKey c key = (ks', ok)) :
    (ok = false ∧ ks' = ks) ∨
      (ok = true ∧ ∃ plain', plain.addKey c key = some plain' ∧ Refines c m ks' plain') := by
  have hwatch : ∀ dest, ks.haveWatchOnly dest = false := by
    simp [CBasicKeyStore.haveWatchOnly, h.noWatchOnly]
  simp only [CCryptoKeyStore.addKey, hwatch, h.crypted] at hadd
  split at hadd
  next s p hs hp =>
    obtain rfl := hkey s p hs hp
    simp only [Bool.false_eq_true, if_false, Bool.not_true] at hadd
    split at hadd
    · cases hadd
      exact .inl ⟨rfl, rfl⟩
    rename_i hunlocked
    rw [h.vMasterKey_eq (by simpa using hunlocked)] at hadd
    split at hadd
    · cases hadd
      exact .inl ⟨rfl, rfl⟩
    rename_i ct hct
    simp only [CCryptoKeyStore.addCryptedKey, h.setCrypted] at hadd
    cases hadd
    have hplain : plain.addKey c key = some { plain with
        mapKeys := plain.mapKeys.insert (c.getID (c.pubKeyOf s key.fCompressedPubKey))
          (s, key.fCompressedPubKey) } := by
      simp [CBasicKeyStore.addKey, hs, hp]
    refine .inr ⟨rfl, _, hplain, ?_⟩
    refine ⟨h.crypted, h.noWatchOnly, h.size, h.master, ?_, ?_, ?_⟩
    · intro id hid
      simp only [find?_insert] at hid ⊢
      split at hid
      · cases hid
      next hne =>
        rw [if_neg hne]
        exact h.absent id hid
    · intro id s' f' hid
      simp only [find?_insert] at hid ⊢
      split at hid
      next heq =>
        cases hid
        exact ⟨ct, hct, if_pos heq⟩
      next hne => simpa only [if_neg hne] using h.present id s' f' hid
    · exact ⟨_, _, (find?_insert _ _ _ _).trans (if_pos rfl)⟩
  · cases hadd
    exact .inl ⟨rfl, rfl⟩

end Refines

/-! ## Before the encryption -/

structure Unencrypted (c : KeyCrypto) (ks : CCryptoKeyStore) (plain : CBasicKeyStore) : Prop where
  plainKeys : ks.fUseCrypto = false
  noCrypted : ks.mapCryptedKeys = empty
  noMaster : ks.vMasterKey = []
  noWatchOnly : ks.setWatchOnly = []
  same : ks.mapKeys = plain.mapKeys
  ids : ∀ id s f, plain.mapKeys.find? id = some (s, f) → c.getID (c.pubKeyOf s f) = id

namespace Unencrypted

variable {ks : CCryptoKeyStore} {plain : CBasicKeyStore}

theorem new : Unencrypted c CCryptoKeyStore.new CBasicKeyStore.new where
  plainKeys := rfl
  noCrypted := rfl
  noMaster := rfl
  noWatchOnly := rfl
  same := rfl
  ids := by rintro _ _ _ ⟨⟩

theorem addKey (h : Unencrypted c ks plain) {key : CKey} (hkey : key.Proper c)
    {ks' : CCryptoKeyStore} {ok : Bool} (hadd : ks.addKey c key = (ks', ok)) :
    (ok = false ∧ ks' = ks) ∨
      (ok = true ∧ ∃ plain', plain.addKey c key = some plain' ∧ Unencrypted c ks' plain') := by
  have hwatch : ∀ dest, ks.haveWatchOnly dest = false := by
    simp [CBasicKeyStore.haveWatchOnly, h.noWatchOnly]
  simp only [CCryptoKeyStore.addKey, hwatch, h.plainKeys] at hadd
  split at hadd
  next s p hs hp =>
    obtain rfl := hkey s p hs hp
    simp only [CBasicKeyStore.addKey, hs, hp, Bool.false_eq_true, if_false, Bool.not_false,
      if_true] at hadd ⊢
    cases hadd
    refine .inr ⟨rfl, _, rfl, rfl, h.noCrypted, h.noMaster, h.noWatchOnly, ?_, ?_⟩
    · simp only [h.same]
    intro id s' f' hid
    simp only [find?_insert] at hid
    split at hid
    next heq =>
      cases hid
      exact heq.symm
    · exact h.ids id s' f' hid
  · cases hadd
    exact .inl ⟨rfl, rfl⟩

end Unencrypted

def sealedEntry (c : KeyCrypto) (m : CKeyingMaterial) (e : CKeyID × CSecret × Bool) :
    CPubKey × List UInt8 :=
  let vchPubKey := c.pubKeyOf e.2.1 e.2.2
  (vchPubKey, (c.encryptSecret m e.2.1 (c.getHash vchPubKey)).getD [])

theorem encryptEntries_eq (l : List (CKeyID × CSecret × Bool))
    (start r : OrdMap CKeyID (CPubKey × List UInt8))
    (hids : (∀ e ∈ l, c.getID (c.pubKeyOf e.2.1 e.2.2) = e.1))
    (h : CCryptoKeyStore.encryptEntries c m l start = (r, true)) :
    (∀ e ∈ l, (c.encryptSecret m e.2.1 (c.getHash (c.pubKeyOf e.2.1 e.2.2))).isSome = true) ∧ r =
      l.foldl (fun r e => r.insert e.1 (sealedEntry c m e)) start := by
  induction l generalizing start r with
  | nil =>
    cases h
    simp
  | cons e rest ih =>
    obtain ⟨id, s, f⟩ := e
    have hid : c.getID (c.pubKeyOf s f) = id := hids _ mem_cons_self
    simp only [CCryptoKeyStore.encryptEntries] at h
    split at h
    · cases h
    rename_i ct hct
    obtain ⟨hall, hr⟩ := ih _ r (fun e he => hids e (mem_cons_of_mem _ he)) h
    constructor
    · intro e he
      rcases mem_cons.mp he with rfl | he
      · simp [hct]
      · exact hall e he
    · rw [hr, hid]
      simp [sealedEntry, hct]

/-- **EncryptKeys** turns the plain store into one that refines it. -/
theorem Unencrypted.encryptKeys {ks : CCryptoKeyStore} {plain : CBasicKeyStore}
    (h : Unencrypted c ks plain) (hne : ks.mapKeys.isEmpty = false)
    (henc : (ks.encryptKeys c m).2 = true) : Refines c m (ks.encryptKeys c m).1 plain := by
  have hids : ∀ e ∈ ks.mapKeys.entries, c.getID (c.pubKeyOf e.2.1 e.2.2) = e.1 := by
    rintro ⟨id, s, f⟩ he
    rw [mem_entries_iff, h.same] at he
    exact h.ids id s f he
  obtain ⟨id0, e0, hfound⟩ : ∃ id e, plain.mapKeys.find? id = some e := by
    by_contra hnone
    have hempty : ks.mapKeys.isEmpty = true := by
      rw [OrdMap.isEmpty_iff, h.same]
      intro id
      by_contra hsome
      exact hnone ⟨id, Option.ne_none_iff_exists'.mp hsome⟩
    rw [hempty] at hne
    cases hne
  have hempty : ks.mapCryptedKeys.isEmpty = true := by rw [h.noCrypted]; rfl
  simp only [CCryptoKeyStore.encryptKeys, hempty, h.plainKeys] at henc ⊢
  rcases hloop : CCryptoKeyStore.encryptEntries c m ks.mapKeys.entries ks.mapCryptedKeys
    with ⟨r, _ | _⟩
  · simp [hloop] at henc
  obtain ⟨hall, hr⟩ := encryptEntries_eq _ _ _ hids hloop
  have hfind := find?_foldl_insert ks.mapKeys (sealedEntry c m) ks.mapCryptedKeys
  rw [← hr, h.same, h.noCrypted] at hfind
  have hsealed : ∀ id s f, plain.mapKeys.find? id = some (s, f) → ∃ ct,
      c.encryptSecret m s (c.getHash (c.pubKeyOf s f)) = some ct := by
    intro id s f hid
    rw [← h.same, ← mem_entries_iff] at hid
    exact Option.isSome_iff_exists.mp (hall _ hid)
  refine ⟨rfl, h.noWatchOnly, ?_, .inl h.noMaster, ?_, ?_, id0, e0, hfound⟩
  · -- the master key has the size that encryption asks for
    obtain ⟨ct, hct⟩ := hsealed id0 e0.1 e0.2 hfound
    by_contra hsize
    simp [KeyCrypto.encryptSecret, hsize] at hct
  · intro id hid
    simp [hfind, hid]
  · intro id s f hid
    obtain ⟨ct, hct⟩ := hsealed id s f hid
    exact ⟨ct, hct, by simp [hfind, hid, sealedEntry, hct]⟩

/-! ## Runs -/

inductive KeyCall where
  | addKey (key : CKey)
  | lock
  | unlock (vMasterKeyIn : CKeyingMaterial)

structure StorePair where
  store : CCryptoKeyStore
  plain : CBasicKeyStore

namespace StorePair

def call (c : KeyCrypto) (t : StorePair) : KeyCall → StorePair
  | .addKey key =>
    match t.store.addKey c key with
    | (store, true) => ⟨store, (t.plain.addKey c key).getD t.plain⟩
    | (store, false) => ⟨store, t.plain⟩
  | .lock => ⟨t.store.lock.1, t.plain⟩
  | .unlock v => ⟨(t.store.unlock c v).1, t.plain⟩

def withKeys (c : KeyCrypto) (keys : List CKey) : StorePair :=
  keys.foldl (fun t key => t.call c (.addKey key)) ⟨CCryptoKeyStore.new, CBasicKeyStore.new⟩

def encryptKeys (c : KeyCrypto) (m : CKeyingMaterial) (t : StorePair) : StorePair :=
  ⟨(t.store.encryptKeys c m).1, t.plain⟩

theorem unencrypted_withKeys (keys : List CKey) (hkeys : ∀ key ∈ keys, key.Proper c) :
    Unencrypted c (withKeys c keys).store (withKeys c keys).plain := by
  refine foldlRecOn keys _ (motive := fun t : StorePair => Unencrypted c t.store t.plain)
    Unencrypted.new fun t ht key hkey => ?_
  rcases hadd : t.store.addKey c key with ⟨store, _⟩
  simp only [call, hadd]
  rcases ht.addKey (hkeys key hkey) hadd with ⟨rfl, rfl⟩ | ⟨rfl, plain, hp, ht'⟩
  · exact ht
  · simpa [hp] using ht'

theorem refines_call (laws : c.Laws) {t : StorePair} (ht : Refines c m t.store t.plain)
    {k : KeyCall} (hk : ∀ key, k = .addKey key → key.Proper c) :
    Refines c m (t.call c k).store (t.call c k).plain := by
  cases k with
  | addKey key =>
    rcases hadd : t.store.addKey c key with ⟨store, _⟩
    simp only [call, hadd]
    rcases ht.addKey (hk key rfl) hadd with ⟨rfl, rfl⟩ | ⟨rfl, plain, hp, ht'⟩
    · exact ht
    · simpa [hp] using ht'
  | lock => exact ht.lock
  | unlock v => exact ht.unlock laws v

end StorePair

/-- **The encrypted key store refines the plain one.** After `EncryptKeys(m)` and any calls of
`Lock`, `Unlock` and `AddKey`, it answers as the plain store, gives out nothing while it is locked,
and is unlocked by `m` only; `GetKey` agrees exactly where it does not write an uncompressed key
into a `CKey` with the flag set. -/
theorem cryptoKeyStore_refines_iff (laws : c.Laws) (before : List CKey) (after : List KeyCall)
    (hbefore : ∀ key ∈ before, key.Proper c) (hafter : ∀ key, .addKey key ∈ after → key.Proper c)
    (hne : (StorePair.withKeys c before).store.mapKeys.isEmpty = false)
    (henc : ((StorePair.withKeys c before).store.encryptKeys c m).2 = true) :
    let t := after.foldl (StorePair.call c) ((StorePair.withKeys c before).encryptKeys c m)
    (∀ address, t.store.haveKey address = t.plain.haveKey address) ∧
    (∀ address, t.store.getPubKey c address = t.plain.getPubKey c address) ∧
    (t.store.isLocked = true → ∀ address keyOut, t.store.getKey c address keyOut = none) ∧
    (t.store.isLocked = false → ∀ address keyOut,
      (t.store.getKey c address keyOut = t.plain.getKey c address keyOut ↔
        ∀ secret, t.plain.mapKeys.find? address = some (secret, false) →
          keyOut.fCompressedPubKey = false)) ∧
    ∀ v, (t.store.unlock c v).2 = true ↔ v = m := by
  intro t
  have hstart := (StorePair.unencrypted_withKeys before hbefore).encryptKeys hne henc
  have ht : Refines c m t.store t.plain :=
    foldlRecOn after _ (motive := fun t : StorePair => Refines c m t.store t.plain) hstart
      fun _ ht _ hk => StorePair.refines_call laws ht fun key heq => hafter key (heq ▸ hk)
  exact ⟨ht.haveKey_eq, ht.getPubKey_eq, ht.getKey_locked, ht.getKey_eq_iff laws,
    ht.unlock_iff laws⟩

/-! ## A key written over another -/

def sampleKeyCrypto : KeyCrypto where
  pubKeyOf := fun s f => if f then 2 :: s.1 else 4 :: (s.1 ++ s.1)
  length_pubKeyOf := by
    intro s f
    cases f <;> simp [s.2]
  isPoint := fun p => p.length == 33 || p.length == 65
  isPoint_pubKeyOf := by
    intro s f
    cases f <;> simp [s.2]
  getID := fun p => p.length * 256 + (p.getLastD 0).toNat
  getHash := fun p => p.length
  encrypt := fun m _ plain => some (m ++ plain)
  decrypt := fun m _ ct => if ct.take 32 = m then some (ct.drop 32) else none
  scriptOf := fun _ => []

theorem sampleKeyCrypto_laws : sampleKeyCrypto.Laws where
  inverse := by
    intro m iv plain ct h
    simp only [KeyCrypto.encryptSecret, KeyCrypto.decryptSecret, sampleKeyCrypto] at h ⊢
    split at h
    · cases h
    rename_i hlen
    cases h
    have hm : m.length = 32 := not_not.mp hlen
    rw [if_neg hlen, take_left' hm, if_pos rfl, drop_left' hm]
  other := by
    intro m v s s' f ct hne henc hdec
    simp only [KeyCrypto.encryptSecret, KeyCrypto.decryptSecret, sampleKeyCrypto] at henc hdec
    split at henc
    · cases henc
    rename_i hlen
    cases henc
    have hm : m.length = 32 := not_not.mp hlen
    rw [take_left' hm, if_neg (Ne.symm hne)] at hdec
    simp at hdec

def sampleSecret (b : UInt8) : CSecret := ⟨List.replicate 32 b, by simp⟩

def sampleKey (b : UInt8) (fCompressed : Bool) : CKey :=
  CKey.reset.setSecret sampleKeyCrypto (sampleSecret b) fCompressed

def sampleMaster : CKeyingMaterial := List.replicate 32 7

def samplePair : StorePair :=
  ((StorePair.withKeys sampleKeyCrypto [sampleKey 1 true, sampleKey 2 false]).encryptKeys
    sampleKeyCrypto sampleMaster).call sampleKeyCrypto (.unlock sampleMaster)

/-- Read into the `CKey` of a compressed key, the uncompressed key becomes a compressed one. -/
theorem getKey_into_used_key :
    let c := sampleKeyCrypto
    let id₁ := c.getID (c.pubKeyOf (sampleSecret 1) true)
    let id₂ := c.getID (c.pubKeyOf (sampleSecret 2) false)
    samplePair.store.isLocked = false ∧
    (samplePair.store.getKey c id₁ CKey.reset).bind (samplePair.store.getKey c id₂)
      = some (sampleKey 2 true) ∧
    (samplePair.plain.getKey c id₁ CKey.reset).bind (samplePair.plain.getKey c id₂)
      = some (sampleKey 2 false) ∧
    ((sampleKey 2 true).pub.map c.getID) ≠ some id₂ := by
  decide +kernel

theorem proper_sampleKey (b : UInt8) (f : Bool) : (sampleKey b f).Proper sampleKeyCrypto := by
  intro s p hs hp
  simp only [sampleKey, CKey.setSecret, Option.some.injEq] at hs hp ⊢
  rw [← hp, hs]

theorem cryptoKeyStore_refines_sample :
    let c := sampleKeyCrypto
    samplePair.store.getKey c (c.getID (c.pubKeyOf (sampleSecret 2) false)) CKey.reset
        = samplePair.plain.getKey c (c.getID (c.pubKeyOf (sampleSecret 2) false)) CKey.reset ∧
      (samplePair.store.unlock c (List.replicate 32 8)).2 = false := by
  obtain ⟨-, -, -, hget, hunlock⟩ := cryptoKeyStore_refines_iff (m := sampleMaster)
    sampleKeyCrypto_laws [sampleKey 1 true, sampleKey 2 false] [.unlock sampleMaster]
    (by
      intro key hkey
      rcases mem_cons.mp hkey with rfl | hkey
      · exact proper_sampleKey 1 true
      · rw [mem_singleton.mp hkey]
        exact proper_sampleKey 2 false)
    (by
      intro key hkey
      cases mem_singleton.mp hkey)
    (by decide +kernel) (by decide +kernel)
  refine ⟨(hget (by decide +kernel) _ _).mpr (fun _ _ => rfl), ?_⟩
  rw [← Bool.not_eq_true]
  intro h
  exact absurd ((hunlock _).mp h) (by decide)

end HoboNickels.KeyStores

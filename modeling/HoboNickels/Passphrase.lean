import HoboNickels.KeyStores

/-!
# Changing the passphrase of a wallet

`CWallet::ChangeWalletPassphrase` locks the wallet, looks for the first record of `mapMasterKeys`
that the old passphrase opens, and encrypts the master key again under the new passphrase. A call
that fails should change nothing, and after one that succeeds the new passphrase should open the
wallet, in memory and after the next start (`ChangesAllOrNothing`).

The lock is put back only before the one successful return; the record in memory is written while
later calls may still fail; and the result of the write to the wallet file is not looked at.
`changeWalletPassphrase_allOrNothing_iff` says exactly when that does no harm.
-/

namespace HoboNickels.Passphrase

open KeyStores CCryptoKeyStore

abbrev SecureString := List UInt8

/-- What a `CCrypter` holds once its key is set: `chKey` and `chIV`. -/
abbrev CrypterKey := List UInt8 × List UInt8

structure CMasterKey where
  vchCryptedKey : List UInt8
  vchSalt : List UInt8
  nDerivationMethod : Nat
  nDeriveIterations : Nat
  vchOtherDerivationParameters : List UInt8
  deriving DecidableEq

/-- OpenSSL as `CCrypter` uses it for the master key, while no call fails. -/
structure PassphraseCrypto extends KeyCrypto where
  /-- `EVP_BytesToKey` of a salt, a passphrase and a number of rounds. -/
  bytesToKey : List UInt8 → SecureString → Nat → CrypterKey
  encryptKey : CrypterKey → CKeyingMaterial → List UInt8
  /-- `none` when the padding is wrong. -/
  decryptKey : CrypterKey → List UInt8 → Option CKeyingMaterial
  decryptKey_encryptKey : ∀ key plain, decryptKey key (encryptKey key plain) = some plain

/-- What happens outside the wallet during one `ChangeWalletPassphrase`. -/
structure Calls where
  deriveOk : Nat → Bool
  decryptOk : Nat → Bool
  /-- The number of rounds that the two timed derivations lead to. -/
  nTimed : Nat
  deriveNewOk : Bool
  encryptOk : Bool
  /-- The bytes that a failed `Encrypt` leaves behind; it has resized the output already. -/
  vchLeft : List UInt8
  writeOk : Bool

def Calls.nDeriveIterations (calls : Calls) : Nat :=
  if calls.nTimed < 25000 then 25000 else calls.nTimed

/-- The parts of a `CWallet` that locking and unlocking use, and the `mkey` records of its file. -/
structure EncryptedWallet where
  keyStore : CCryptoKeyStore
  mapMasterKeys : OrdMap Nat CMasterKey
  dbMasterKeys : OrdMap Nat CMasterKey

/-! ## The wallet's functions -/

section Functions

variable (c : PassphraseCrypto)

/-- `CCrypter::SetKeyFromPassphrase` with the parameters of a record. Only derivation method 0 is
known. -/
def setKeyFromPassphrase (ok : Bool) (strKeyData : SecureString) (key : CMasterKey) :
    Option CrypterKey :=
  if key.nDeriveIterations < 1 ∨ key.vchSalt.length ≠ 8 then none
  else if key.nDerivationMethod = 0 ∧ ok = true then
    some (c.bytesToKey key.vchSalt strKeyData key.nDeriveIterations)
  else none

def decrypt (ok : Bool) (key : CrypterKey) (vchCiphertext : List UInt8) :
    Option CKeyingMaterial :=
  if ok then c.decryptKey key vchCiphertext else none

namespace EncryptedWallet

def isLocked (w : EncryptedWallet) : Bool := w.keyStore.isLocked

/-- `CCryptoKeyStore::Lock`; its result is not looked at. -/
def lock (w : EncryptedWallet) : EncryptedWallet := { w with keyStore := w.keyStore.lock.1 }

def unlockWith (strWalletPassphrase : SecureString) :
    EncryptedWallet → List (Nat × CMasterKey) → EncryptedWallet × Bool
  | w, [] => (w, false)
  | w, (_, key) :: rest =>
    match setKeyFromPassphrase c true strWalletPassphrase key with
    | none => (w, false)
    | some crypter =>
      match decrypt c true crypter key.vchCryptedKey with
      | none => (w, false)
      | some vMasterKey =>
        match w.keyStore.unlock c.toKeyCrypto vMasterKey with
        | (keyStore, true) => ({ w with keyStore }, true)
        | (keyStore, false) => unlockWith strWalletPassphrase { w with keyStore } rest

def unlock (w : EncryptedWallet) (strWalletPassphrase : SecureString) : EncryptedWallet × Bool :=
  if !w.isLocked then (w, false)
  else unlockWith c strWalletPassphrase w w.mapMasterKeys.entries

variable (calls : Calls)

/-- What is done with the record that the old passphrase opened, where it lies in the map. -/
def rekey (fWasLocked : Bool) (strNewWalletPassphrase : SecureString) (w : EncryptedWallet)
    (nID : Nat) (key : CMasterKey) (vMasterKey : CKeyingMaterial) : EncryptedWallet × Bool :=
  let key := { key with nDeriveIterations := calls.nDeriveIterations }
  match setKeyFromPassphrase c calls.deriveNewOk strNewWalletPassphrase key with
  | none => ({ w with mapMasterKeys := w.mapMasterKeys.insert nID key }, false)
  | some crypter =>
    if !calls.encryptOk then
      ({ w with
          mapMasterKeys :=
            w.mapMasterKeys.insert nID { key with vchCryptedKey := calls.vchLeft } }, false)
    else
      let key := { key with vchCryptedKey := c.encryptKey crypter vMasterKey }
      let w := { w with
        mapMasterKeys := w.mapMasterKeys.insert nID key
        dbMasterKeys :=
          if calls.writeOk then w.dbMasterKeys.insert nID key else w.dbMasterKeys }
      (if fWasLocked then w.lock else w, true)

def changeWith (fWasLocked : Bool) (strOldWalletPassphrase strNewWalletPassphrase : SecureString) :
    EncryptedWallet → List (Nat × CMasterKey) → EncryptedWallet × Bool
  | w, [] => (w, false)
  | w, (nID, key) :: rest =>
    match setKeyFromPassphrase c (calls.deriveOk nID) strOldWalletPassphrase key with
    | none => (w, false)
    | some crypter =>
      match decrypt c (calls.decryptOk nID) crypter key.vchCryptedKey with
      | none => (w, false)
      | some vMasterKey =>
        match w.keyStore.unlock c.toKeyCrypto vMasterKey with
        | (keyStore, true) =>
          rekey c calls fWasLocked strNewWalletPassphrase { w with keyStore } nID key vMasterKey
        | (keyStore, false) =>
          changeWith fWasLocked strOldWalletPassphrase strNewWalletPassphrase
            { w with keyStore } rest

variable (w : EncryptedWallet) (strOldWalletPassphrase strNewWalletPassphrase : SecureString)

def changeWalletPassphrase : EncryptedWallet × Bool :=
  changeWith c calls w.isLocked strOldWalletPassphrase strNewWalletPassphrase w.lock
    w.mapMasterKeys.entries

/-- The wallet that the next start loads. It is locked, and it has the records of the file. -/
def reload : EncryptedWallet :=
  { w with keyStore := { w.keyStore with vMasterKey := [] }, mapMasterKeys := w.dbMasterKeys }

/-- The passphrase unlocks the wallet, once it is locked and while OpenSSL does not fail. -/
def UnlockedBy (strWalletPassphrase : SecureString) : Prop :=
  (w.lock.unlock c strWalletPassphrase).2 = true

/-- What a change of the passphrase should do: nothing, or what its name says. -/
def ChangesAllOrNothing : Prop :=
  match w.changeWalletPassphrase c calls strOldWalletPassphrase strNewWalletPassphrase with
  | (w', false) => w'.mapMasterKeys = w.mapMasterKeys ∧ w'.dbMasterKeys = w.dbMasterKeys ∧
      w'.isLocked = w.isLocked
  | (w', true) => w'.UnlockedBy c strNewWalletPassphrase ∧
      w'.reload.UnlockedBy c strNewWalletPassphrase

end EncryptedWallet

end Functions

/-! ## Walking over the master keys

`Unlock` and `ChangeWalletPassphrase` walk over the records in the same way. The walk stops at the
first record that cannot be decrypted, even if a later one could be. -/

inductive Walk where
  | refused
  | exhausted
  | opened (nID : Nat) (key : CMasterKey) (vMasterKey : CKeyingMaterial)
  deriving DecidableEq

variable {pass : SecureString} {nID : Nat} {key : CMasterKey} {vMasterKey : CKeyingMaterial}

section Walks

variable (c : PassphraseCrypto) (stored : OrdMap CKeyID (CPubKey × List UInt8))

/-- The test that `CCryptoKeyStore::Unlock` makes on the first of the encrypted keys. -/
def opensStore (vMasterKey : CKeyingMaterial) : Bool :=
  match stored.entries with
  | [] => true
  | (_, entry) :: _ => CCryptoKeyStore.opens c.toKeyCrypto vMasterKey entry

def masterKeyOf (deriveOk decryptOk : Bool) (pass : SecureString) (key : CMasterKey) :
    Option CKeyingMaterial :=
  (setKeyFromPassphrase c deriveOk pass key).bind
    (fun crypter => decrypt c decryptOk crypter key.vchCryptedKey)

def walk (deriveOk decryptOk : Nat → Bool) (pass : SecureString) :
    List (Nat × CMasterKey) → Walk
  | [] => .exhausted
  | (nID, key) :: rest =>
    match masterKeyOf c (deriveOk nID) (decryptOk nID) pass key with
    | none => .refused
    | some vMasterKey =>
      if opensStore c stored vMasterKey then .opened nID key vMasterKey
      else walk deriveOk decryptOk pass rest

def soundWalk (pass : SecureString) (keys : List (Nat × CMasterKey)) : Walk :=
  walk c stored (fun _ => true) (fun _ => true) pass keys

def Walk.isOpened : Walk → Bool
  | .opened _ _ _ => true
  | _ => false

variable {c stored}

theorem walk_append {deriveOk decryptOk : Nat → Bool} (l l' : List (Nat × CMasterKey)) :
    walk c stored deriveOk decryptOk pass (l ++ l') =
      match walk c stored deriveOk decryptOk pass l with
      | .exhausted => walk c stored deriveOk decryptOk pass l'
      | result => result := by
  induction l with
  | nil => rfl
  | cons x rest ih =>
    obtain ⟨nID, key⟩ := x
    rw [List.cons_append]
    simp only [walk]
    cases masterKeyOf c (deriveOk nID) (decryptOk nID) pass key with
    | none => rfl
    | some vMasterKey =>
      dsimp only
      split
      · rfl
      · exact ih

theorem walk_opened {deriveOk decryptOk : Nat → Bool} {l : List (Nat × CMasterKey)}
    (h : walk c stored deriveOk decryptOk pass l = .opened nID key vMasterKey) :
    (nID, key) ∈ l ∧ masterKeyOf c (deriveOk nID) (decryptOk nID) pass key = some vMasterKey ∧
      opensStore c stored vMasterKey = true := by
  induction l with
  | nil => cases h
  | cons x rest ih =>
    simp only [walk] at h
    split at h
    · cases h
    rename_i v hv
    split at h
    next hopens =>
      cases h
      exact ⟨List.mem_cons_self, hv, hopens⟩
    · obtain ⟨hin, hrest⟩ := ih h
      exact ⟨List.mem_cons_of_mem _ hin, hrest⟩

theorem unlock_eq {ks : CCryptoKeyStore} (hcrypted : ks.fUseCrypto = true)
    (vMasterKey : CKeyingMaterial) :
    ks.unlock c.toKeyCrypto vMasterKey =
      if opensStore c ks.mapCryptedKeys vMasterKey then ({ ks with vMasterKey }, true)
      else (ks, false) := by
  have hset : ks.setCrypted = (ks, true) := by
    unfold setCrypted
    rw [if_pos hcrypted]
  unfold unlock opensStore
  rw [hset]
  dsimp only
  cases ks.mapCryptedKeys.entries with
  | nil => rfl
  | cons entry rest => rfl

end Walks

namespace EncryptedWallet

variable {c : PassphraseCrypto} {calls : Calls} {w : EncryptedWallet}

section

variable (hcrypted : w.keyStore.fUseCrypto = true)
include hcrypted

theorem lock_wallet : w.lock = { w with keyStore := { w.keyStore with vMasterKey := [] } } := by
  unfold lock CCryptoKeyStore.lock setCrypted
  rw [if_pos hcrypted]

theorem unlockWith_eq (pass : SecureString) (l : List (Nat × CMasterKey)) :
    (unlockWith c pass w l).2 = (soundWalk c w.keyStore.mapCryptedKeys pass l).isOpened := by
  unfold soundWalk
  induction l with
  | nil => rfl
  | cons x rest ih =>
    obtain ⟨_, key⟩ := x
    simp only [unlockWith, walk, masterKeyOf]
    cases setKeyFromPassphrase c true pass key with
    | none => rfl
    | some crypter =>
      simp only [Option.bind_some]
      cases decrypt c true crypter key.vchCryptedKey with
      | none => rfl
      | some vMasterKey =>
        simp only [unlock_eq hcrypted]
        by_cases hopens : opensStore c w.keyStore.mapCryptedKeys vMasterKey = true
        · simp only [if_pos hopens]
          rfl
        · simp only [if_neg hopens]
          exact ih

theorem unlockedBy_iff (pass : SecureString) : w.UnlockedBy c pass ↔
      (soundWalk c w.keyStore.mapCryptedKeys pass w.mapMasterKeys.entries).isOpened = true := by
  unfold UnlockedBy unlock isLocked
  rw [lock_wallet hcrypted]
  have hlocked : CCryptoKeyStore.isLocked { w.keyStore with vMasterKey := [] } = true := by
    simp [CCryptoKeyStore.isLocked, hcrypted]
  simp only [hlocked, Bool.not_true, Bool.false_eq_true, if_false]
  rw [unlockWith_eq (by exact hcrypted)]

theorem changeWith_eq (fWasLocked : Bool) (old new : SecureString) (l : List (Nat × CMasterKey)) :
    changeWith c calls fWasLocked old new w l =
      match walk c w.keyStore.mapCryptedKeys calls.deriveOk calls.decryptOk old l with
      | .opened nID key vMasterKey =>
        rekey c calls fWasLocked new { w with keyStore := { w.keyStore with vMasterKey } }
          nID key vMasterKey
      | _ => (w, false) := by
  induction l with
  | nil => rfl
  | cons x rest ih =>
    obtain ⟨nID, key⟩ := x
    simp only [changeWith, walk, masterKeyOf]
    cases setKeyFromPassphrase c (calls.deriveOk nID) old key with
    | none => rfl
    | some crypter =>
      simp only [Option.bind_some]
      cases decrypt c (calls.decryptOk nID) crypter key.vchCryptedKey with
      | none => rfl
      | some vMasterKey =>
        simp only [unlock_eq hcrypted]
        by_cases hopens : opensStore c w.keyStore.mapCryptedKeys vMasterKey = true
        · simp only [if_pos hopens]
        · simp only [if_neg hopens]
          exact ih

end

theorem isOpened_insert {stored : OrdMap CKeyID (CPubKey × List UInt8)}

    (hkey : masterKeyOf c true true pass key = some vMasterKey)
    (hopens : opensStore c stored vMasterKey = true) (m : OrdMap Nat CMasterKey) (nID : Nat) :
    (soundWalk c stored pass (m.insert nID key).entries).isOpened = true ↔
      soundWalk c stored pass (m.entries.filter (fun e => e.1 < nID)) ≠ .refused := by
  unfold soundWalk
  rw [m.entries_insert, walk_append]
  cases walk c stored (fun _ => true) (fun _ => true) pass (m.entries.filter _) with
  | refused => simp [Walk.isOpened]
  | exhausted => simp [walk, hkey, hopens, Walk.isOpened]
  | opened nID' key' v => simp [Walk.isOpened]

/-! ## When a change is all or nothing -/

def Reaches (c : PassphraseCrypto) (w : EncryptedWallet) (new : SecureString)
    (m : OrdMap Nat CMasterKey) (nID : Nat) : Prop :=
  soundWalk c w.keyStore.mapCryptedKeys new (m.entries.filter (fun e => e.1 < nID)) ≠ .refused

/-- No record is found, and the wallet was locked before; or all calls but the write succeed, no
earlier record stops the new passphrase, and the write succeeds or is not needed; or a call fails,
the wallet was unlocked before, and what was written was there already. -/
def ChangeHarmless (c : PassphraseCrypto) (calls : Calls) (w : EncryptedWallet)
    (old new : SecureString) : Prop :=
  match walk c w.keyStore.mapCryptedKeys calls.deriveOk calls.decryptOk old
      w.mapMasterKeys.entries with
  | .opened nID key vMasterKey =>
    if calls.deriveNewOk ∧ calls.encryptOk then
      w.Reaches c new w.mapMasterKeys nID ∧
        if calls.writeOk then w.Reaches c new w.dbMasterKeys nID
        else (soundWalk c w.keyStore.mapCryptedKeys new w.dbMasterKeys.entries).isOpened
    else
      w.isLocked = vMasterKey.isEmpty ∧
        key.nDeriveIterations = calls.nDeriveIterations ∧
        (calls.deriveNewOk → key.vchCryptedKey = calls.vchLeft)
  | _ => w.isLocked

section Change

variable {old new : SecureString} {key : CMasterKey} {vMasterKey : CKeyingMaterial}

theorem setKeyFromPassphrase_new {deriveOk decryptOk : Bool}
    (h : masterKeyOf c deriveOk decryptOk old key = some vMasterKey) (ok : Bool)
    (vchCryptedKey : List UInt8) :
    setKeyFromPassphrase c ok new
        { key with nDeriveIterations := calls.nDeriveIterations, vchCryptedKey } =
      if ok then some (c.bytesToKey key.vchSalt new calls.nDeriveIterations) else none := by
  have hrounds : ¬calls.nDeriveIterations < 1 := by
    unfold Calls.nDeriveIterations
    split <;> omega
  obtain ⟨_, hset, -⟩ := Option.bind_eq_some_iff.mp h
  unfold setKeyFromPassphrase at hset ⊢
  split at hset
  · cases hset
  rename_i hparams
  split at hset
  next hmethod =>
    rw [if_neg (not_or.mpr ⟨hrounds, (not_or.mp hparams).2⟩)]
    cases ok <;> simp [hmethod.1]
  · cases hset

def rekeyed (c : PassphraseCrypto) (calls : Calls) (new : SecureString) (key : CMasterKey)
    (vMasterKey : CKeyingMaterial) : CMasterKey :=
  { key with
    nDeriveIterations := calls.nDeriveIterations
    vchCryptedKey :=
      c.encryptKey (c.bytesToKey key.vchSalt new calls.nDeriveIterations) vMasterKey }

section

variable {deriveOk decryptOk : Bool}
    (h : masterKeyOf c deriveOk decryptOk old key = some vMasterKey)
include h

theorem masterKeyOf_rekeyed :
    masterKeyOf c true true new (rekeyed c calls new key vMasterKey) = some vMasterKey := by
  unfold masterKeyOf decrypt rekeyed
  rw [setKeyFromPassphrase_new h]
  exact c.decryptKey_encryptKey _ _

theorem rekey_eq (fWasLocked : Bool) (nID : Nat) :
    rekey c calls fWasLocked new w nID key vMasterKey =
      if ¬calls.deriveNewOk then
        ({ w with
            mapMasterKeys := w.mapMasterKeys.insert nID
              { key with nDeriveIterations := calls.nDeriveIterations } }, false)
      else if ¬calls.encryptOk then
        ({ w with
            mapMasterKeys := w.mapMasterKeys.insert nID
              { key with
                nDeriveIterations := calls.nDeriveIterations
                vchCryptedKey := calls.vchLeft } }, false)
      else
        let key := rekeyed c calls new key vMasterKey
        let w := { w with
          mapMasterKeys := w.mapMasterKeys.insert nID key
          dbMasterKeys :=
            if calls.writeOk then w.dbMasterKeys.insert nID key else w.dbMasterKeys }
        (if fWasLocked then w.lock else w, true) := by
  unfold rekey
  dsimp only
  rw [setKeyFromPassphrase_new h]
  cases calls.deriveNewOk with
  | false => rfl
  | true =>
    cases calls.encryptOk with
    | false => rfl
    | true => rfl

end

theorem isLocked_withMasterKey (hcrypted : w.keyStore.fUseCrypto = true)
    (vMasterKey : CKeyingMaterial) (m m' : OrdMap Nat CMasterKey) :
    isLocked ⟨{ w.keyStore with vMasterKey }, m, m'⟩ = vMasterKey.isEmpty := by
  simp [isLocked, CCryptoKeyStore.isLocked, hcrypted]

theorem failed_iff (hcrypted : w.keyStore.fUseCrypto = true) {key' : CMasterKey}
    (hfind : w.mapMasterKeys.find? nID = some key) :
    (w.mapMasterKeys.insert nID key' = w.mapMasterKeys ∧ w.dbMasterKeys = w.dbMasterKeys ∧
      isLocked ⟨{ w.keyStore with vMasterKey }, w.mapMasterKeys.insert nID key', w.dbMasterKeys⟩ =
        w.isLocked) ↔
      w.isLocked = vMasterKey.isEmpty ∧ key = key' := by
  rw [OrdMap.insert_eq_self_iff, hfind, isLocked_withMasterKey hcrypted, Option.some.injEq]
  constructor
  · rintro ⟨hkey, -, hlocked⟩
    exact ⟨hlocked.symm, hkey⟩
  · rintro ⟨hlocked, hkey⟩
    exact ⟨hkey, rfl, hlocked.symm⟩

theorem succeeded_iff {deriveOk decryptOk : Bool}
    (hkey : masterKeyOf c deriveOk decryptOk old key = some vMasterKey)
    (hopens : opensStore c w.keyStore.mapCryptedKeys vMasterKey = true)
    {w' : EncryptedWallet} (hcrypted' : w'.keyStore.fUseCrypto = true)
    (hstore : w'.keyStore.mapCryptedKeys = w.keyStore.mapCryptedKeys)
    (hmap : w'.mapMasterKeys = w.mapMasterKeys.insert nID (rekeyed c calls new key vMasterKey))
    (hdb : w'.dbMasterKeys =
      if calls.writeOk then w.dbMasterKeys.insert nID (rekeyed c calls new key vMasterKey)
      else w.dbMasterKeys) :
    (w'.UnlockedBy c new ∧ w'.reload.UnlockedBy c new) ↔
      w.Reaches c new w.mapMasterKeys nID ∧
        if calls.writeOk then w.Reaches c new w.dbMasterKeys nID
        else (soundWalk c w.keyStore.mapCryptedKeys new w.dbMasterKeys.entries).isOpened := by
  have hopened (m : OrdMap Nat CMasterKey) : (soundWalk c w.keyStore.mapCryptedKeys new
        (m.insert nID (rekeyed c calls new key vMasterKey)).entries).isOpened = true ↔
        w.Reaches c new m nID :=
    isOpened_insert (masterKeyOf_rekeyed hkey) hopens m nID
  have hreload : w'.reload.UnlockedBy c new ↔
      (soundWalk c w'.keyStore.mapCryptedKeys new w'.dbMasterKeys.entries).isOpened = true := by
    rw [unlockedBy_iff (by exact hcrypted')]
    rfl
  rw [unlockedBy_iff hcrypted', hreload, hstore, hmap, hdb, hopened]
  apply and_congr_right'
  split
  · exact hopened w.dbMasterKeys
  · rfl

end Change

theorem changeWalletPassphrase_allOrNothing_iff (c : PassphraseCrypto) (calls : Calls)
    (w : EncryptedWallet) (hcrypted : w.keyStore.fUseCrypto = true) (old new : SecureString) :
    w.ChangesAllOrNothing c calls old new ↔ w.ChangeHarmless c calls old new := by
  unfold ChangesAllOrNothing changeWalletPassphrase ChangeHarmless
  rw [lock_wallet hcrypted, changeWith_eq (by exact hcrypted)]
  -- The wallet is left locked, and nothing else has changed.
  have hunopened : (w.mapMasterKeys = w.mapMasterKeys ∧ w.dbMasterKeys = w.dbMasterKeys ∧
      isLocked ⟨{ w.keyStore with vMasterKey := [] }, w.mapMasterKeys, w.dbMasterKeys⟩ =
        w.isLocked) ↔ w.isLocked = true := by
    rw [isLocked_withMasterKey hcrypted]
    constructor
    · rintro ⟨-, -, hlocked⟩
      exact hlocked.symm
    · intro hlocked
      exact ⟨rfl, rfl, hlocked.symm⟩
  cases hwalk : walk c w.keyStore.mapCryptedKeys calls.deriveOk calls.decryptOk old
      w.mapMasterKeys.entries with
  | refused => exact hunopened
  | exhausted => exact hunopened
  | opened nID key vMasterKey =>
    obtain ⟨hin, hkey, hopens⟩ := walk_opened hwalk
    have hfind : w.mapMasterKeys.find? nID = some key := w.mapMasterKeys.mem_entries_iff.mp hin
    dsimp only
    rw [rekey_eq hkey]
    cases calls.deriveNewOk with
    | false =>
      refine (failed_iff hcrypted hfind).trans ?_
      cases key
      simp
    | true =>
      cases calls.encryptOk with
      | false =>
        refine (failed_iff hcrypted hfind).trans ?_
        cases key
        simp [and_comm]
      | true =>
        dsimp only
        by_cases hlocked : w.isLocked = true
        · rw [if_pos hlocked, lock_wallet (by exact hcrypted)]
          exact succeeded_iff hkey hopens hcrypted rfl rfl rfl
        · rw [if_neg hlocked]
          exact succeeded_iff hkey hopens hcrypted rfl rfl rfl

/-! ## A wallet -/

def samplePassphraseCrypto : PassphraseCrypto where
  toKeyCrypto := sampleKeyCrypto
  bytesToKey := fun _ pass _ => (pass, [])
  encryptKey := fun key plain => key.1 ++ plain
  decryptKey := fun key ct =>
    if ct.take key.1.length = key.1 then some (ct.drop key.1.length) else none
  decryptKey_encryptKey := by
    intro key plain
    simp

def sampleWallet : EncryptedWallet :=
  let key : CMasterKey :=
    ⟨samplePassphraseCrypto.encryptKey ([1], []) sampleMaster, List.replicate 8 0, 0, 25000, []⟩
  ⟨samplePair.store, OrdMap.empty.insert 1 key, OrdMap.empty.insert 1 key⟩

def sampleCalls : Calls where
  deriveOk := fun _ => true
  decryptOk := fun _ => true
  nTimed := 40000
  deriveNewOk := true
  encryptOk := true
  vchLeft := []
  writeOk := true

theorem changeWalletPassphrase_allOrNothing_sample :
    sampleWallet.isLocked = false ∧
      (sampleWallet.changeWalletPassphrase samplePassphraseCrypto sampleCalls [1] [2]).2 = true ∧
      sampleWallet.ChangesAllOrNothing samplePassphraseCrypto sampleCalls [1] [2] := by
  refine ⟨by decide +kernel, by decide +kernel, ?_⟩
  rw [changeWalletPassphrase_allOrNothing_iff _ _ _ (by decide +kernel)]
  have hreaches : sampleWallet.Reaches samplePassphraseCrypto [2] sampleWallet.mapMasterKeys 1 := by
    unfold Reaches
    decide +kernel
  exact ⟨hreaches, hreaches⟩

/-- A wrong old passphrase locks a wallet that was unlocked. If the record is not written, the new
passphrase does not open the wallet after the next start. If `Encrypt` fails, a locked wallet is
left unlocked, with a record that the old passphrase does not open. -/
theorem changeWalletPassphrase_half_done :
    let c := samplePassphraseCrypto
    let wrong := sampleWallet.changeWalletPassphrase c sampleCalls [3] [2]
    let unwritten :=
      sampleWallet.changeWalletPassphrase c { sampleCalls with writeOk := false } [1] [2]
    let unencrypted :=
      sampleWallet.lock.changeWalletPassphrase c { sampleCalls with encryptOk := false } [1] [2]
    sampleWallet.keyStore.fUseCrypto = true ∧
    (wrong.2 = false ∧ sampleWallet.isLocked = false ∧ wrong.1.isLocked = true) ∧
    (unwritten.2 = true ∧ ¬unwritten.1.reload.UnlockedBy c [2]) ∧
    (unencrypted.2 = false ∧ unencrypted.1.isLocked = false ∧
      sampleWallet.UnlockedBy c [1] ∧ ¬unencrypted.1.UnlockedBy c [1]) := by
  unfold UnlockedBy
  decide +kernel

end EncryptedWallet

end HoboNickels.Passphrase

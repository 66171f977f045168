import HoboNickels.BlockCheck
import HoboNickels.KeyStores
import HoboNickels.SpentFlags
import HoboNickels.WalletZap

/-!
# Loading a wallet

`CWalletDB::LoadWallet` reads the records of a wallet file one by one and finds out the wallet's
birthday `nTimeFirstKey`: the smallest creation time among the `keymeta` records, one second if
there are watch-only scripts, and one second if the number of keys is not that of the `keymeta`
records. Zero stands both for "no birthday yet" and for a key whose creation time is unknown.
`Birthday` collects what the birthday says of a file all of whose creation times are positive.
-/

namespace HoboNickels.WalletLoad

open Fallible KeyStores List

abbrev CScriptID := Nat

inductive Solution where
  | none
  /-- `TX_PUBKEY` and `TX_PUBKEYHASH`. -/
  | key (keyID : CKeyID)
  | scriptHash (scriptID : CScriptID)
  /-- `TX_MULTISIG`; it has at least one key. -/
  | multisig (keyID : CKeyID) (keyIDs : List CKeyID)

structure ScriptCalls where
  solver : CScript → Solution
  setDestination : CKeyID → CScript
  getID : CScript → CScriptID

/-! ## The file -/

inductive WalletRecord where
  | key (keyID : CKeyID)
  | wkey (keyID : CKeyID)
  | ckey (keyID : CKeyID)
  | keymeta (keyID : CKeyID) (nCreateTime : Int)
  /-- A watch-only script, and whether the value is `'1'`. -/
  | watchs (script : CScript) (fYes : Bool)
  | cscript (script : CScript)
  /-- A transaction, and whether the whole record could be read. -/
  | tx (hash : Uint256) (wtx : CWalletTx) (fRead : Bool)
  /-- A record of one of the types that hold keys that is refused. -/
  | badKey
  | other (fRead : Bool)

namespace WalletRecord

/-- `IsKeyType` of the type of the record; the readable records of type `mkey` are among the
others. -/
def isKeyType : WalletRecord → Bool
  | key _ | wkey _ | ckey _ | badKey => true
  | _ => false

def isKey : WalletRecord → Bool
  | key _ => true
  | _ => false

def isCKey : WalletRecord → Bool
  | ckey _ => true
  | _ => false

def isKeyMeta : WalletRecord → Bool
  | keymeta _ _ => true
  | _ => false

def keyID? : WalletRecord → Option CKeyID
  | key keyID | wkey keyID | ckey keyID => some keyID
  | _ => none

end WalletRecord

/-- The wallet, as far as it is loaded here, and the counters of `CWalletScanState`. -/
structure LoadState where
  /-- `mapKeys`, or `mapCryptedKeys` once `fUseCrypto` is set. -/
  keys : List CKeyID
  fUseCrypto : Bool
  setWatchOnly : List CScript
  mapScripts : List (CScriptID × CScript)
  mapWallet : MapWallet
  nTimeFirstKey : Int
  nKeys : Nat
  nCKeys : Nat
  nKeyMeta : Nat

def LoadState.empty : LoadState := ⟨[], false, [], [], fun _ => none, 0, 0, 0, 0⟩

def maxScriptElementSize : Nat := 520

namespace LoadState

variable (calls : ScriptCalls)

variable (c : Crypto) (nAdjustedTime : Int) (acc : LoadState × Bool × Bool)

/-- `CCryptoKeyStore::AddKey` on a store that has no master key yet. -/
def loadKey (keyID : CKeyID) (s : LoadState) : LoadState × Bool :=
  if s.setWatchOnly.contains (calls.setDestination keyID) then (s, false)
  else if s.fUseCrypto then (s, false)
  else ({ s with keys := keyID :: s.keys }, true)

def loadCryptedKey (keyID : CKeyID) (s : LoadState) : LoadState × Bool :=
  if !s.fUseCrypto && !s.keys.isEmpty then (s, false)
  else ({ s with fUseCrypto := true, keys := keyID :: s.keys }, true)

/-- The key that `CBasicKeyStore::AddWatchOnly` looks for: the destination's, and zero when the
destination is no key. -/
def destinationKey (script : CScript) : Option CKeyID :=
  match calls.solver script with
  | .key keyID => some keyID
  | .scriptHash _ => some 0
  | .none | .multisig _ _ => none

/-- `CBasicKeyStore::AddWatchOnly`; `ReadKeyValue` does not look at the answer. -/
def loadWatchOnly (script : CScript) (s : LoadState) : LoadState :=
  if (destinationKey calls script).any s.keys.contains then s
  else { s with setWatchOnly := script :: s.setWatchOnly }

/-- `CWallet::LoadCScript`: a script that is too large is left out without an error. -/
def loadCScript (script : CScript) (s : LoadState) : LoadState :=
  if script.length > maxScriptElementSize then s
  else { s with mapScripts := (calls.getID script, script) :: s.mapScripts }

def loadKeyMetadata (nCreateTime nTimeFirstKey : Int) : Int :=
  if nCreateTime ≠ 0 ∧ (nTimeFirstKey = 0 ∨ nCreateTime < nTimeFirstKey) then nCreateTime
  else nTimeFirstKey

/-- The update of the birthday in `ReadKeyValue` that follows, and that `GenerateNewKey` makes. -/
def earliest (nCreateTime nTimeFirstKey : Int) : Int :=
  if nTimeFirstKey = 0 ∨ nCreateTime < nTimeFirstKey then nCreateTime else nTimeFirstKey

def txOk (hash : Uint256) (wtx : CWalletTx) : Bool :=
  (match wtx.toCTransaction.checkTransaction nAdjustedTime with
    | .ok _ => true
    | .error _ => false) &&
  decide (c.txHash wtx.toCTransaction = hash)

def readKeyValue (s : LoadState) : WalletRecord → LoadState × Bool
  | .key keyID => loadKey calls keyID { s with nKeys := s.nKeys + 1 }
  | .wkey keyID => loadKey calls keyID s
  | .ckey keyID => loadCryptedKey keyID { s with nCKeys := s.nCKeys + 1 }
  | .keymeta _ nCreateTime =>
    ({ s with
        nKeyMeta := s.nKeyMeta + 1
        nTimeFirstKey := earliest nCreateTime (loadKeyMetadata nCreateTime s.nTimeFirstKey) }, true)
  | .watchs script fYes =>
    ({ (if fYes then loadWatchOnly calls script s else s) with nTimeFirstKey := 1 }, true)
  | .cscript script => (loadCScript calls script s, true)
  -- `mapWallet[hash]` is there before the record is read, and stays when reading it throws
  | .tx hash wtx false => ({ s with mapWallet := s.mapWallet.put hash wtx }, false)
  | .tx hash wtx true =>
    if txOk c nAdjustedTime hash wtx then ({ s with mapWallet := s.mapWallet.put hash wtx }, true)
    else ({ s with mapWallet := Function.update s.mapWallet hash none }, false)
  | .badKey => (s, false)
  | .other fRead => (s, fRead)

/-- One record in `LoadWallet`, with the errors so far: whether a key was lost, and whether there
was any other error. -/
def readRecord (record : WalletRecord) : LoadState × Bool × Bool :=
  let (s, fOk) := readKeyValue calls c nAdjustedTime acc.1 record
  (s, acc.2.1 || (!fOk && record.isKeyType), acc.2.2 || (!fOk && !record.isKeyType))

/-- The state after the loop of `LoadWallet`, and the errors it met. -/
def readAll (records : List WalletRecord) : LoadState × Bool × Bool :=
  records.foldl (readRecord calls c nAdjustedTime) (.empty, false, false)

end LoadState

/-- `CWalletDB::LoadWallet`. The rewriting of the file changes nothing of what is kept here; the
answers about a rewrite or the order of transactions are left out. -/
def loadWallet (calls : ScriptCalls) (c : Crypto) (nAdjustedTime : Int)
    (records : List WalletRecord) : LoadState × DBErrors :=
  let (s, fCorrupt, fNoncriticalErrors) := LoadState.readAll calls c nAdjustedTime records
  if fCorrupt then (s, .DB_CORRUPT)
  else if fNoncriticalErrors then (s, .DB_NONCRITICAL_ERROR)
  -- the counters are unsigned
  else if (s.nKeys + s.nCKeys) % 2 ^ 32 ≠ s.nKeyMeta % 2 ^ 32 then
    ({ s with nTimeFirstKey := 1 }, .DB_LOAD_OK)
  else (s, .DB_LOAD_OK)

/-! ## What is the wallet's -/

inductive IsMineType where
  | MINE_NO
  | MINE_WATCH_ONLY
  | MINE_SPENDABLE
  deriving DecidableEq

namespace LoadState

variable (calls : ScriptCalls) (s : LoadState)

def getCScript (scriptID : CScriptID) : Option CScript :=
  (s.mapScripts.find? (fun entry => entry.1 == scriptID)).map Prod.snd

def watchOnly (script : CScript) : IsMineType :=
  if s.setWatchOnly.contains script then .MINE_WATCH_ONLY else .MINE_NO

/-- The body of `::IsMine`. The calls nest at most once for each of the wallet's scripts. -/
def isMineIn : Nat → CScript → IsMineType
  | 0, _ => .MINE_NO
  | fuel + 1, script =>
    match calls.solver script with
    | .none => s.watchOnly script
    | .key keyID => if s.keys.contains keyID then .MINE_SPENDABLE else s.watchOnly script
    | .scriptHash scriptID =>
      match s.getCScript scriptID with
      | none => s.watchOnly script
      | some subscript =>
        if isMineIn fuel subscript = .MINE_SPENDABLE then .MINE_SPENDABLE else s.watchOnly script
    | .multisig keyID keyIDs =>
      if (keyID :: keyIDs).all s.keys.contains then .MINE_SPENDABLE else s.watchOnly script

def isMine (script : CScript) : IsMineType :=
  s.isMineIn calls (s.mapScripts.length + 1) script

/-- The keys a payment to the script uses, through the wallet's scripts. -/
def scriptKeysIn : Nat → CScript → List CKeyID
  | 0, _ => []
  | fuel + 1, script =>
    match calls.solver script with
    | .none => []
    | .key keyID => [keyID]
    | .scriptHash scriptID => (s.getCScript scriptID).elim [] (scriptKeysIn fuel)
    | .multisig keyID keyIDs => keyID :: keyIDs

def scriptKeys (script : CScript) : List CKeyID :=
  s.scriptKeysIn calls (s.mapScripts.length + 1) script

/-- The wallet as the routines of `wallet.cpp` see it; `nMinimumInputValue` is `-mininput`. -/
def keyStore (nMinimumInputValue : Int) : KeyStore where
  isMine script := decide (s.isMine calls script ≠ .MINE_NO)
  nMinimumInputValue := nMinimumInputValue

variable {calls s}

theorem watchOnly_ne_spendable (script : CScript) : s.watchOnly script ≠ .MINE_SPENDABLE := by
  rw [watchOnly]
  split <;> exact nofun

variable {script : CScript}

theorem exists_key_of_spendable {fuel : Nat} (h : s.isMineIn calls fuel script = .MINE_SPENDABLE) :
    ∃ keyID ∈ s.scriptKeysIn calls fuel script, keyID ∈ s.keys := by
  fun_induction isMineIn with
  | case1 => cases h
  | case3 _ _ keyID hsolved hhave =>
    rw [scriptKeysIn, hsolved]
    exact ⟨keyID, mem_singleton_self keyID, contains_iff_mem.mp hhave⟩
  | case6 _ _ _ hsolved _ hscript hsub ih =>
    rw [scriptKeysIn, hsolved]
    simpa [hscript] using ih hsub
  | case8 _ _ keyID _ hsolved hall =>
    rw [scriptKeysIn, hsolved]
    have hhave := all_eq_true.mp hall keyID mem_cons_self
    exact ⟨keyID, mem_cons_self, contains_iff_mem.mp hhave⟩
  | _ => exact absurd h (watchOnly_ne_spendable _)

theorem mem_of_watchOnly (h : s.watchOnly script ≠ .MINE_NO) : script ∈ s.setWatchOnly := by
  rw [watchOnly] at h
  split at h
  next hmem => exact contains_iff_mem.mp hmem
  · exact absurd rfl h

theorem isMineIn_succ (fuel : Nat) (script : CScript) :
    s.isMineIn calls (fuel + 1) script = .MINE_SPENDABLE ∨
      s.isMineIn calls (fuel + 1) script = s.watchOnly script := by
  rw [isMineIn]
  repeat' split
  all_goals first | exact .inl rfl | exact .inr rfl

theorem isMine_cases (h : s.isMine calls script ≠ .MINE_NO) :
    (∃ keyID ∈ s.scriptKeys calls script, keyID ∈ s.keys) ∨ script ∈ s.setWatchOnly := by
  rw [isMine] at h
  rcases isMineIn_succ s.mapScripts.length script with hspend | hwatch
  · exact .inl (exists_key_of_spendable hspend)
  · rw [hwatch] at h
    exact .inr (mem_of_watchOnly h)

end LoadState

/-! ## The birthday -/

namespace LoadState

variable {calls : ScriptCalls} {c : Crypto} {nAdjustedTime : Int} {s : LoadState}

def birthdayAfter (n : Int) : WalletRecord → Int
  | .keymeta _ t => earliest t (loadKeyMetadata t n)
  | .watchs _ _ => 1
  | _ => n

theorem earliest_known {t n : Int} (ht : 0 < t) (hn : 0 ≤ n) :
    0 < earliest t (loadKeyMetadata t n) ∧ earliest t (loadKeyMetadata t n) ≤ t ∧
      (0 < n → earliest t (loadKeyMetadata t n) ≤ n) := by
  unfold earliest loadKeyMetadata
  split <;> split <;> omega

variable {record : WalletRecord}

theorem birthdayAfter_le {n : Int} (hn : 0 ≤ n)
    (hknown : ∀ keyID t, record = .keymeta keyID t → 0 < t) :
    0 ≤ birthdayAfter n record ∧
      (0 < n → 0 < birthdayAfter n record ∧ birthdayAfter n record ≤ n) := by
  cases record with
  | keymeta keyID t =>
    obtain ⟨hpos, -, hle⟩ := earliest_known (hknown keyID t rfl) hn
    exact ⟨Int.le_of_lt hpos, fun h => ⟨hpos, hle h⟩⟩
  | watchs script fYes =>
    simp only [birthdayAfter]
    omega
  | _ => exact ⟨hn, fun h => ⟨h, Int.le_refl n⟩⟩

/-- What reading a record can have done. -/
structure ReadBy (c : Crypto) (nAdjustedTime : Int) (record : WalletRecord) (s s' : LoadState) :
    Prop where
  keys : ∀ keyID ∈ s'.keys, keyID ∈ s.keys ∨ record.keyID? = some keyID
  watched : ∀ script ∈ s'.setWatchOnly,
    script ∈ s.setWatchOnly ∨ ∃ fYes, record = .watchs script fYes
  birthday : s'.nTimeFirstKey = birthdayAfter s.nTimeFirstKey record
  nKeys : s'.nKeys = s.nKeys + record.isKey.toNat
  nCKeys : s'.nCKeys = s.nCKeys + record.isCKey.toNat
  nKeyMeta : s'.nKeyMeta = s.nKeyMeta + record.isKeyMeta.toNat
  txs : ∀ hash wtx, s'.mapWallet hash = some wtx → s.mapWallet hash = some wtx ∨
    ∃ fRead, record = .tx hash wtx fRead ∧ (fRead = true → txOk c nAdjustedTime hash wtx = true)

theorem loadKey_fst (keyID : CKeyID) (s : LoadState) : (loadKey calls keyID s).1 = s ∨
    (loadKey calls keyID s).1 = { s with keys := keyID :: s.keys } := by
  fun_cases loadKey with
  | case3 => exact .inr rfl
  | _ => exact .inl rfl

theorem ReadBy.keyLoaded {keyID : CKeyID} {t s' : LoadState}
    (h : ReadBy c nAdjustedTime record s t) (hid : record.keyID? = some keyID)
    (hs' : s' = t ∨ s' = { t with keys := keyID :: t.keys }) :
    ReadBy c nAdjustedTime record s s' := by
  rcases hs' with rfl | rfl
  · exact h
  · refine { h with keys := fun k hk => ?_ }
    rcases mem_cons.mp hk with rfl | hk
    · exact .inr hid
    · exact h.keys k hk

theorem ReadBy.txLoaded {hash : Uint256} {wtx : CWalletTx} {fRead : Bool} (entry : Option CWalletTx)
    (h : ∀ wtx', entry = some wtx' →
      wtx' = wtx ∧ (fRead = true → txOk c nAdjustedTime hash wtx = true)) :
    ReadBy c nAdjustedTime (.tx hash wtx fRead) s
      { s with mapWallet := Function.update s.mapWallet hash entry } := by
  refine ⟨fun _ => .inl, fun _ => .inl, rfl, rfl, rfl, rfl, fun hash' wtx' hget => ?_⟩
  by_cases heq : hash' = hash
  · subst heq
    obtain ⟨rfl, hok⟩ := h wtx' ((Function.update_self hash' ..).symm.trans hget)
    exact .inr ⟨fRead, rfl, hok⟩
  · exact .inl ((Function.update_of_ne heq ..).symm.trans hget)

theorem readKeyValue_readBy (record : WalletRecord) :
    ReadBy c nAdjustedTime record s (readKeyValue calls c nAdjustedTime s record).1 := by
  cases record with
  | key keyID | wkey keyID =>
    refine .keyLoaded ?_ rfl (loadKey_fst keyID _)
    exact ⟨fun _ => .inl, fun _ => .inl, rfl, rfl, rfl, rfl, fun _ _ => .inl⟩
  | ckey keyID =>
    unfold readKeyValue loadCryptedKey
    dsimp only
    split
    · exact ⟨fun _ => .inl, fun _ => .inl, rfl, rfl, rfl, rfl, fun _ _ => .inl⟩
    · refine .keyLoaded (t := { s with nCKeys := s.nCKeys + 1, fUseCrypto := true }) ?_ rfl
        (.inr rfl)
      exact ⟨fun _ => .inl, fun _ => .inl, rfl, rfl, rfl, rfl, fun _ _ => .inl⟩
  | watchs script fYes =>
    unfold readKeyValue loadWatchOnly
    dsimp only
    split
    · split
      · exact ⟨fun _ => .inl, fun _ => .inl, rfl, rfl, rfl, rfl, fun _ _ => .inl⟩
      · refine ⟨fun _ => .inl, fun script' hmem => ?_, rfl, rfl, rfl, rfl, fun _ _ => .inl⟩
        rcases mem_cons.mp hmem with rfl | hmem
        · exact .inr ⟨fYes, rfl⟩
        · exact .inl hmem
    · exact ⟨fun _ => .inl, fun _ => .inl, rfl, rfl, rfl, rfl, fun _ _ => .inl⟩
  | cscript script =>
    unfold readKeyValue loadCScript
    dsimp only
    split <;> exact ⟨fun _ => .inl, fun _ => .inl, rfl, rfl, rfl, rfl, fun _ _ => .inl⟩
  | tx hash wtx fRead =>
    cases fRead with
    | false => exact .txLoaded (some wtx) fun _ h => ⟨(Option.some.inj h).symm, nofun⟩
    | true =>
      unfold readKeyValue
      dsimp only
      split
      next hok => exact .txLoaded (some wtx) fun _ h => ⟨(Option.some.inj h).symm, fun _ => hok⟩
      · exact .txLoaded none nofun
  | keymeta | badKey | other =>
    exact ⟨fun _ => .inl, fun _ => .inl, rfl, rfl, rfl, rfl, fun _ _ => .inl⟩

/-- Keys and scripts come from the records, and the birthday is not after any time they name. -/
structure Birthday (records : List WalletRecord) (s : LoadState) : Prop where
  keys : ∀ keyID ∈ s.keys, ∃ record ∈ records, record.keyID? = some keyID
  watched : ∀ script ∈ s.setWatchOnly, ∃ fYes, .watchs script fYes ∈ records
  nonneg : 0 ≤ s.nTimeFirstKey
  keymeta : ∀ keyID t, .keymeta keyID t ∈ records → 0 < s.nTimeFirstKey ∧ s.nTimeFirstKey ≤ t
  watchs : ∀ script fYes, .watchs script fYes ∈ records → s.nTimeFirstKey = 1

theorem Birthday.empty : Birthday [] LoadState.empty :=
  ⟨nofun, nofun, Int.le_refl 0, nofun, nofun⟩

theorem Birthday.read {done : List WalletRecord} {s' : LoadState}
    (h : Birthday done s) (hread : ReadBy c nAdjustedTime record s s')
    (hknown : ∀ keyID t, record = .keymeta keyID t → 0 < t) :
    Birthday (done ++ [record]) s' := by
  obtain ⟨hkeys, hwatched, hbirthday, -⟩ := hread
  obtain ⟨hnonneg, hle⟩ := birthdayAfter_le h.nonneg hknown
  rw [← hbirthday] at hnonneg hle
  refine ⟨fun keyID hmem => ?_, fun script hmem => ?_, hnonneg, fun keyID t hmem => ?_,
    fun script fYes hmem => ?_⟩
  · rcases hkeys keyID hmem with hmem | hself
    · obtain ⟨r, hr, hkey⟩ := h.keys keyID hmem
      exact ⟨r, mem_append_left _ hr, hkey⟩
    · exact ⟨record, mem_append_right _ (mem_singleton_self record), hself⟩
  · rcases hwatched script hmem with hmem | ⟨fYes, rfl⟩
    · obtain ⟨fYes, hr⟩ := h.watched script hmem
      exact ⟨fYes, mem_append_left _ hr⟩
    · exact ⟨fYes, mem_append_right _ (mem_singleton_self _)⟩
  · rcases mem_append.mp hmem with hmem | hmem
    · obtain ⟨hpos, ht⟩ := h.keymeta keyID t hmem
      exact ⟨(hle hpos).1, Int.le_trans (hle hpos).2 ht⟩
    · obtain rfl := mem_singleton.mp hmem
      obtain ⟨hpos, ht, -⟩ := earliest_known (hknown keyID t rfl) h.nonneg
      rw [hbirthday]
      exact ⟨hpos, ht⟩
  · rcases mem_append.mp hmem with hmem | hmem
    · have hone := h.watchs script fYes hmem
      omega
    · obtain rfl := mem_singleton.mp hmem
      exact hbirthday

theorem readAll_induct {P : List WalletRecord → LoadState → Prop} {records : List WalletRecord}
    (hempty : P [] .empty) (hstep : ∀ done record s, record ∈ records → P done s →
      P (done ++ [record]) (readKeyValue calls c nAdjustedTime s record).1) :
    P records (readAll calls c nAdjustedTime records).1 := by
  suffices h : ∀ rest done acc, rest ⊆ records → P done acc.1 →
      P (done ++ rest) (rest.foldl (readRecord calls c nAdjustedTime) acc).1 from
    h records [] _ (List.Subset.refl records) hempty
  intro rest
  induction rest with
  | nil =>
    intro done acc _ hP
    rwa [append_nil]
  | cons record rest ih =>
    intro done acc hsub hP
    have hnext := hstep done record acc.1 (hsub mem_cons_self) hP
    have hrest := ih (done ++ [record]) (readRecord calls c nAdjustedTime acc record)
      (fun r hr => hsub (mem_cons_of_mem record hr)) hnext
    rwa [append_assoc] at hrest

end LoadState

section Loaded

open WalletLoad.LoadState

variable {calls : ScriptCalls} {c : Crypto} {nAdjustedTime : Int} {records : List WalletRecord}

section

variable (calls : ScriptCalls) (c : Crypto) (nAdjustedTime : Int) (records : List WalletRecord)

theorem loadWallet_cases : (loadWallet calls c nAdjustedTime records).1 =
    (readAll calls c nAdjustedTime records).1 ∨ (loadWallet calls c nAdjustedTime records).1 =
    { (readAll calls c nAdjustedTime records).1 with nTimeFirstKey := 1 } := by
  fun_cases loadWallet with
  | case3 => exact .inr (by simp_all)
  | _ => exact .inl (by simp_all)

structure Dated : Prop where
  known : ∀ keyID t, .keymeta keyID t ∈ records → 0 < t
  complete : ∀ record ∈ records, ∀ keyID, record.keyID? = some keyID →
    ∃ t, .keymeta keyID t ∈ records

/-- The numbers of key and `keymeta` records differ; the code counts modulo `2 ^ 32`. -/
def Uncounted : Prop :=
  (records.countP WalletRecord.isKey + records.countP WalletRecord.isCKey) % 2 ^ 32 ≠
    records.countP WalletRecord.isKeyMeta % 2 ^ 32

/-- The birthday is the beginning of time, or nothing is watched and it is at most a recorded
creation time of every key. -/
def SoundBirthday (s : LoadState) : Prop :=
  0 < s.nTimeFirstKey ∧ (s.nTimeFirstKey ≤ 1 ∨ s.setWatchOnly = [] ∧
    ∀ keyID ∈ s.keys, ∃ t, .keymeta keyID t ∈ records ∧ 0 < t ∧ s.nTimeFirstKey ≤ t)

end

theorem birthday_readAll (hdated : Dated records) :
    Birthday records (readAll calls c nAdjustedTime records).1 := by
  refine readAll_induct Birthday.empty fun done record s hmem h => ?_
  refine h.read (readKeyValue_readBy record) fun keyID t heq => ?_
  exact hdated.known keyID t (heq ▸ hmem)

theorem soundBirthday_of_dated (hdated : Dated records)
    (hany : (loadWallet calls c nAdjustedTime records).1.keys ≠ [] ∨
      (loadWallet calls c nAdjustedTime records).1.setWatchOnly ≠ []) :
    SoundBirthday records (loadWallet calls c nAdjustedTime records).1 := by
  rcases loadWallet_cases calls c nAdjustedTime records with hload | hload
  · rw [hload] at hany ⊢
    have hb : Birthday records (readAll calls c nAdjustedTime records).1 := birthday_readAll hdated
    generalize (readAll calls c nAdjustedTime records).1 = s at hany hb
    by_cases hwatch : s.setWatchOnly = []
    · have hkeys : ∀ keyID ∈ s.keys, ∃ t, .keymeta keyID t ∈ records := by
        intro keyID hmem
        obtain ⟨record, hrecord, hkey⟩ := hb.keys keyID hmem
        exact hdated.complete record hrecord keyID hkey
      obtain ⟨keyID, hmem⟩ := exists_mem_of_ne_nil _ (hany.resolve_right (· hwatch))
      obtain ⟨t, hmeta⟩ := hkeys keyID hmem
      refine ⟨(hb.keymeta keyID t hmeta).1, .inr ⟨hwatch, fun keyID' hmem' => ?_⟩⟩
      obtain ⟨t', hmeta'⟩ := hkeys keyID' hmem'
      exact ⟨t', hmeta', hdated.known keyID' t' hmeta', (hb.keymeta keyID' t' hmeta').2⟩
    · obtain ⟨script, hmem⟩ := exists_mem_of_ne_nil _ hwatch
      obtain ⟨fYes, hrecord⟩ := hb.watched script hmem
      have hone := hb.watchs script fYes hrecord
      exact ⟨by omega, .inl (by omega)⟩
  · rw [hload]
    exact ⟨Int.zero_lt_one, .inl (Int.le_refl 1)⟩

/-- The counters are the numbers of the records. -/
structure Counted (records : List WalletRecord) (s : LoadState) : Prop where
  nKeys : s.nKeys = records.countP WalletRecord.isKey
  nCKeys : s.nCKeys = records.countP WalletRecord.isCKey
  nKeyMeta : s.nKeyMeta = records.countP WalletRecord.isKeyMeta

theorem counted_readAll : Counted records (readAll calls c nAdjustedTime records).1 := by
  refine readAll_induct ⟨rfl, rfl, rfl⟩ fun done record s _ h => ?_
  have hread : ReadBy c nAdjustedTime record s (readKeyValue calls c nAdjustedTime s record).1 :=
    readKeyValue_readBy record
  obtain ⟨-, -, -, hkeys, hckeys, hmeta, -⟩ := hread
  refine ⟨?_, ?_, ?_⟩
  · rw [hkeys, h.nKeys, countP_append, countP_singleton]
    cases record.isKey <;> rfl
  · rw [hckeys, h.nCKeys, countP_append, countP_singleton]
    cases record.isCKey <;> rfl
  · rw [hmeta, h.nKeyMeta, countP_append, countP_singleton]
    cases record.isKeyMeta <;> rfl

theorem soundBirthday_of_uncounted (hcount : Uncounted records)
    (hok : (loadWallet calls c nAdjustedTime records).2 = .DB_LOAD_OK) :
    SoundBirthday records (loadWallet calls c nAdjustedTime records).1 := by
  have hcounted : Counted records (readAll calls c nAdjustedTime records).1 := counted_readAll
  unfold Uncounted at hcount
  rw [← hcounted.nKeys, ← hcounted.nCKeys, ← hcounted.nKeyMeta] at hcount
  unfold loadWallet at hok ⊢
  dsimp only at hok ⊢
  split at hok
  · cases hok
  split at hok
  · cases hok
  rename_i hcorrupt hnoncritical
  rw [if_neg hcorrupt, if_neg hnoncritical, if_pos hcount]
  exact ⟨Int.zero_lt_one, .inl (Int.le_refl 1)⟩

def Readable (records : List WalletRecord) : Prop :=
  ∀ hash wtx, .tx hash wtx false ∉ records

theorem txOk_of_loaded (hread : Readable records) {hash : Uint256} {wtx : CWalletTx}
    (h : (loadWallet calls c nAdjustedTime records).1.mapWallet hash = some wtx) :
    txOk c nAdjustedTime hash wtx = true := by
  have hmap : (loadWallet calls c nAdjustedTime records).1.mapWallet =
      (readAll calls c nAdjustedTime records).1.mapWallet := by
    rcases loadWallet_cases calls c nAdjustedTime records with hload | hload
    · rw [hload]
    · rw [hload]
  rw [hmap] at h
  refine readAll_induct (P := fun _ s => ∀ hash wtx, s.mapWallet hash = some wtx →
    txOk c nAdjustedTime hash wtx = true) (fun _ _ h => nomatch h) ?_ hash wtx h
  intro done record s hmem ih hash wtx hwtx
  rcases (readKeyValue_readBy record).txs hash wtx hwtx with hold | ⟨fRead, rfl, hok⟩
  · exact ih hash wtx hold
  · cases fRead with
    | false => exact absurd hmem (hread hash wtx)
    | true => exact hok rfl

end Loaded

end HoboNickels.WalletLoad

import HoboNickels.WalletRewrite

/-!
# Zapping the transactions of a wallet file

`ZapWalletTx` erases the transaction records of a wallet file and has the file rewritten.
`CWalletDB::ZapWalletTx` returns `DB_NEED_REWRITE` when all went well, and `CWallet::ZapWalletTx`
hands that on, so that it never returns `DB_LOAD_OK` (`zapWalletTx_ne_ok`). The rewrite leaves out
the records of the key pool; `zapWalletTx_file` says what is left.
-/

namespace HoboNickels

open List RewriteCalls

inductive DBErrors where
  | DB_LOAD_OK
  | DB_CORRUPT
  | DB_NONCRITICAL_ERROR
  | DB_TOO_NEW
  | DB_LOAD_FAIL
  | DB_NEED_REWRITE
  deriving DecidableEq

def readBytes (n : Nat) (s : Bytes) : Option (Bytes × Bytes) :=
  if n ≤ s.length then some (s.take n, s.drop n) else none

def littleEndian (b : Bytes) : Nat := b.foldr (fun d acc => d.toNat + 256 * acc) 0

def readUInt (n : Nat) (s : Bytes) : Option (Nat × Bytes) :=
  (readBytes n s).map fun (b, rest) => (littleEndian b, rest)

def readLongSize (n bound : Nat) (s : Bytes) : Option (Nat × Bytes) :=
  match readUInt n s with
  | some (xSize, rest) => if xSize < bound then none else some (xSize, rest)
  | none => none

def MAX_SIZE : Nat := 0x02000000

def readCompactSize (s : Bytes) : Option (Nat × Bytes) :=
  match readUInt 1 s with
  | none => none
  | some (chSize, rest) =>
    let size :=
      if chSize < 253 then some (chSize, rest)
      else if chSize = 253 then readLongSize 2 253 rest
      else if chSize = 254 then readLongSize 4 0x10000 rest
      else readLongSize 8 0x100000000 rest
    size.filter fun r => r.1 ≤ MAX_SIZE

def readString (s : Bytes) : Option (Bytes × Bytes) :=
  match readCompactSize s with
  | some (nSize, rest) => readBytes nSize rest
  | none => none

def txType : Bytes := [116, 120]

def txKey (hash : Bytes) : Bytes := [2, 116, 120] ++ hash

def minVersionKey : Bytes := [10, 109, 105, 110, 118, 101, 114, 115, 105, 111, 110]

def poolPrefix : Bytes := [4, 112, 111, 111, 108]

/-! ## The zap -/

/-- What the calls of a zap return. Reads and erases are told apart by key and hash. -/
structure ZapCalls where
  openDb : Bool
  writeVersionOk : Bool
  cursorOk : Bool
  readOk : Bytes → Bool
  endOk : Bool
  eraseOk : Bytes → Bool
  rewrite : RewriteCalls

namespace ZapCalls

variable (calls : ZapCalls)

variable (files : RewriteFiles)

/-- The constructor of `CWalletDB` with mode `"cr+"`: the file is created, and it is given a version
if it has none. -/
def openWalletDb : Records :=
  let records := files.strFile.getD OrdMap.empty
  if records.contains versionKey = false ∧ calls.writeVersionOk = true then
    records.insert versionKey clientVersion
  else records

/-- The file asks for a later version than `CLIENT_VERSION`. -/
def tooNew (records : Records) : Bool :=
  match (records.find? minVersionKey).bind (readUInt 4) with
  | some (nMinVersion, _) => 2030600 < nMinVersion && nMinVersion < 2 ^ 31
  | none => false

/-- The loop of `FindWalletTx`. An exception is caught and makes the file corrupt. -/
def findTx : List (Bytes × Bytes) → List Bytes → DBErrors × List Bytes
  | [], vTxHash => (if calls.endOk then .DB_LOAD_OK else .DB_CORRUPT, vTxHash)
  | (ssKey, _) :: rest, vTxHash =>
    if calls.readOk ssKey = false then (.DB_CORRUPT, vTxHash)
    else match readString ssKey with
      | none => (.DB_CORRUPT, vTxHash)
      | some (strType, ssKey) =>
        if strType = txType then
          match readBytes 32 ssKey with
          | none => (.DB_CORRUPT, vTxHash)
          | some (hash, _) => findTx rest (vTxHash ++ [hash])
        else findTx rest vTxHash

def findWalletTx (records : Records) : DBErrors × List Bytes :=
  if tooNew records then (.DB_TOO_NEW, [])
  else if calls.cursorOk = false then (.DB_CORRUPT, [])
  else calls.findTx records.entries []

/-- The loop that erases the records; it stops at the first error. -/
def eraseTxs : List Bytes → Records → Records × Bool
  | [], records => (records, true)
  | hash :: rest, records =>
    if calls.eraseOk hash then eraseTxs rest (records.erase (txKey hash)) else (records, false)

def zapRecords (records : Records) : Records × DBErrors :=
  let (err, vTxHash) := calls.findWalletTx records
  if err ≠ .DB_LOAD_OK then (records, err)
  else
    let (records, fErased) := calls.eraseTxs vTxHash records
    (records, if fErased then .DB_NEED_REWRITE else .DB_CORRUPT)

/-- `CWallet::ZapWalletTx`; no result stands for an exception. -/
def zapWalletTx : RewriteFiles × Option DBErrors :=
  if calls.openDb = false then (files, none)
  else
    let (records, nZapWalletTxRet) := calls.zapRecords (calls.openWalletDb files)
    let files := { files with strFile := some records }
    if nZapWalletTxRet = .DB_NEED_REWRITE then
      match calls.rewrite.rewrite (some poolPrefix) files with
      | (files, none) => (files, none)
      | (files, some _) => (files, some nZapWalletTxRet)
    else (files, some nZapWalletTxRet)

variable {calls}

theorem zapRecords_ne_ok (records : Records) : (calls.zapRecords records).2 ≠ .DB_LOAD_OK := by
  simp only [zapRecords]
  split
  · assumption
  · split <;> simp

/-- **ZapWalletTx** never returns `DB_LOAD_OK`. -/
theorem zapWalletTx_ne_ok : (calls.zapWalletTx files).2 ≠ some .DB_LOAD_OK := by
  have hne : (calls.zapRecords (calls.openWalletDb files)).2 ≠ .DB_LOAD_OK := zapRecords_ne_ok _
  simp only [zapWalletTx]
  split
  · simp
  split
  · split
    · simp
    · simpa using hne
  · simpa using hne

def Throws (calls : ZapCalls) (files : RewriteFiles) : Prop :=
  calls.openDb = false ∨
    ((calls.zapRecords (calls.openWalletDb files)).2 = .DB_NEED_REWRITE ∧
      calls.rewrite.fShutdown = false ∧ calls.rewrite.openFile = false)

theorem rewrite_throws_iff (rw : RewriteCalls) (pszSkip : Option Bytes) (records : Records)
    (strFileRes : Option Records) :
    (rw.rewrite pszSkip ⟨some records, strFileRes⟩).2 = none ↔
      rw.fShutdown = false ∧ rw.openFile = false := by
  cases hshutdown : rw.fShutdown with
  | true => simp [RewriteCalls.rewrite, hshutdown]
  | false =>
    cases hopen : rw.openFile with
    | false => simp [RewriteCalls.rewrite, hshutdown, hopen]
    | true =>
      rw [rewrite_eq hshutdown hopen]
      split <;> simp

theorem zapWalletTx_throws_iff : (calls.zapWalletTx files).2 = none ↔ calls.Throws files := by
  cases hopen : calls.openDb with
  | false => simp [zapWalletTx, Throws, hopen]
  | true =>
    simp only [zapWalletTx, Throws, hopen, Bool.true_eq_false, if_false, false_or]
    by_cases hneed : (calls.zapRecords (calls.openWalletDb files)).2 = .DB_NEED_REWRITE
    · rw [if_pos hneed, ← rewrite_throws_iff calls.rewrite (some poolPrefix)
        (calls.zapRecords (calls.openWalletDb files)).1 files.strFileRes]
      split <;> simp_all
    · simp [hneed]

variable {files}

/-! ## What is left of the file -/

structure Succeed (calls : ZapCalls) : Prop where
  openDb : calls.openDb = true
  cursorOk : calls.cursorOk = true
  readOk : ∀ key, calls.readOk key = true
  endOk : calls.endOk = true
  eraseOk : ∀ hash, calls.eraseOk hash = true
  rewrite : calls.rewrite.Succeed

structure Readable (records : Records) : Prop where
  types : ∀ key value, records.find? key = some value → ∃ strType rest,
    readString key = some (strType, rest) ∧ (strType = txType → 32 ≤ rest.length)
  version : tooNew records = false

def IsTxKey (key : Bytes) : Prop := ∃ hash : Bytes, hash.length = 32 ∧ key = txKey hash

theorem readString_txKey (hash : Bytes) : readString (txKey hash) = some (txType, hash) := by
  simp [readString, readCompactSize, readUInt, readBytes, littleEndian, txKey, txType, MAX_SIZE,
    Option.filter]

theorem findTx_spec (h : calls.Succeed) (l : List (Bytes × Bytes))
    (hread : ∀ e ∈ l, ∃ strType rest, readString e.1 = some (strType, rest) ∧
      (strType = txType → 32 ≤ rest.length)) :
    ∀ found, ∃ hashes, calls.findTx l found = (.DB_LOAD_OK, found ++ hashes) ∧
      (∀ hash ∈ hashes, hash.length = 32) ∧
      ∀ e ∈ l, ∀ hash : Bytes, hash.length = 32 → e.1 = txKey hash → hash ∈ hashes := by
  induction l with
  | nil =>
    intro found
    exact ⟨[], by simp [findTx, h.endOk], by simp, by simp⟩
  | cons e rest ih =>
    intro found
    obtain ⟨key, value⟩ := e
    obtain ⟨strType, ssKey, hkey, hlen⟩ := hread (key, value) mem_cons_self
    have hrest := ih fun e he => hread e (mem_cons_of_mem _ he)
    by_cases htype : strType = txType
    · have hbytes : readBytes 32 ssKey = some (ssKey.take 32, ssKey.drop 32) :=
        if_pos (hlen htype)
      obtain ⟨hashes, heq, hsizes, hall⟩ := hrest (found ++ [ssKey.take 32])
      refine ⟨ssKey.take 32 :: hashes, ?_, ?_, ?_⟩
      · simp [findTx, h.readOk, hkey, htype, hbytes, heq]
      · simpa [hlen htype] using hsizes
      intro e he hash hsize hk
      rcases mem_cons.mp he with rfl | he
      · obtain rfl : key = txKey hash := hk
        rw [readString_txKey] at hkey
        cases hkey
        simp [← hsize]
      · exact mem_cons_of_mem _ (hall e he hash hsize hk)
    · obtain ⟨hashes, heq, hsizes, hall⟩ := hrest found
      refine ⟨hashes, by simp [findTx, h.readOk, hkey, htype, heq], hsizes, ?_⟩
      intro e he hash hsize hk
      rcases mem_cons.mp he with rfl | he
      · obtain rfl : key = txKey hash := hk
        cases hkey
        exact absurd rfl htype
      · exact hall e he hash hsize hk

theorem eraseTxs_spec (h : calls.Succeed) (hashes : List Bytes) (key : Bytes) :
    ∀ records, (calls.eraseTxs hashes records).2 = true ∧
      (calls.eraseTxs hashes records).1.find? key =
        if ∃ hash ∈ hashes, key = txKey hash then none else records.find? key := by
  induction hashes with
  | nil => simp [eraseTxs]
  | cons hash rest ih =>
    intro records
    obtain ⟨hok, hfind⟩ := ih (records.erase (txKey hash))
    refine ⟨by simpa [eraseTxs, h.eraseOk] using hok, ?_⟩
    simp only [eraseTxs, h.eraseOk, if_true, hfind, OrdMap.find?_erase, exists_mem_cons_iff]
    by_cases hkey : key = txKey hash <;> simp [hkey]

variable {records : Records} {key : Bytes} {r : Bytes × Bytes}

theorem zapRecords_spec (h : calls.Succeed) (hread : Readable records) :
    (calls.zapRecords records).2 = .DB_NEED_REWRITE ∧
      ∀ key, (IsTxKey key → (calls.zapRecords records).1.find? key = none) ∧
        (¬ IsTxKey key → (calls.zapRecords records).1.find? key = records.find? key) := by
  obtain ⟨hashes, heq, hsizes, hall⟩ := findTx_spec h records.entries
    (fun e he => hread.types e.1 e.2 (records.mem_entries_iff.mp he)) []
  have hfind : calls.findWalletTx records = (.DB_LOAD_OK, hashes) := by
    simp [findWalletTx, hread.version, h.cursorOk, heq]
  refine ⟨by simp [zapRecords, hfind, (eraseTxs_spec h hashes [] records).1], fun key => ?_⟩
  have hkey : (calls.zapRecords records).1.find? key =
      if ∃ hash ∈ hashes, key = txKey hash then none else records.find? key := by
    simp [zapRecords, hfind, (eraseTxs_spec h hashes key records).2]
  rw [hkey]
  constructor
  · rintro ⟨hash, hsize, rfl⟩
    split
    · rfl
    rename_i hnot
    cases hrecord : records.find? (txKey hash) with
    | none => rfl
    | some value =>
      have hmem := records.mem_entries_iff.mpr hrecord
      exact absurd ⟨hash, hall _ hmem hash hsize rfl, rfl⟩ hnot
  · intro hnot
    rw [if_neg]
    rintro ⟨hash, hmem, rfl⟩
    exact hnot ⟨hash, hsizes hash hmem, rfl⟩

theorem prefix_of_agree {c : UInt8} {body : Bytes} (hc : c.toNat < 253)
    (hbody : body.length = c.toNat) (hread : readString key = some r)
    (hagree : key.take (min key.length (c :: body).length) =
      (c :: body).take (min key.length (c :: body).length)) : c :: body <+: key := by
  rcases le_or_gt (c :: body).length key.length with hle | hlt
  · rw [min_eq_right hle, take_length] at hagree
    rw [← hagree]
    exact take_prefix _ _
  cases key with
  | nil => simp [readString, readCompactSize, readUInt, readBytes] at hread
  | cons d rest =>
    obtain rfl : d = c := by simpa using congrArg head? hagree
    have hrest : rest.length < d.toNat := by
      simpa [hbody] using hlt
    have hle : d.toNat ≤ MAX_SIZE := by
      simp only [MAX_SIZE]
      omega
    have hsize : readCompactSize (d :: rest) = some (d.toNat, rest) := by
      simp [readCompactSize, readUInt, readBytes, littleEndian, hc, Option.filter, hle]
    simp only [readString, hsize, readBytes, if_neg (not_le.mpr hrest)] at hread
    cases hread

theorem versionKey_of_isVersion {rw : RewriteCalls}
    (hread : readString key = some r) (hversion : rw.isVersion key = true) :
    versionKey <+: key := by
  refine prefix_of_agree (by decide) rfl hread ?_
  have heq : (key ++ rw.beyond key).take 8 = versionKey := by
    simpa [isVersion, strncmpEq, versionKey] using hversion
  have htake := congrArg (take (min key.length versionKey.length)) heq
  rw [take_take, take_append_of_le_length (by omega)] at htake
  simpa [versionKey] using htake

theorem Readable.openWalletDb
    (h : Readable records) (hfile : files.strFile = some records) :
    Readable (calls.openWalletDb files) := by
  simp only [ZapCalls.openWalletDb, hfile, Option.getD_some]
  split
  · constructor
    · intro key value hfind
      rw [OrdMap.find?_insert] at hfind
      by_cases hkey : key = versionKey
      · subst hkey
        exact ⟨[118, 101, 114, 115, 105, 111, 110], [], by decide +kernel, by decide⟩
      · rw [if_neg hkey] at hfind
        exact h.types key value hfind
    · have hsame := h.version
      simp only [tooNew] at hsame ⊢
      rwa [OrdMap.find?_insert]
  · exact h

/-- A zap that goes well: the transactions are gone, the key pool is too, and the other records are
kept. -/
theorem zapWalletTx_file (h : calls.Succeed) (hread : Readable records) :
    ∃ file, calls.zapWalletTx ⟨some records, none⟩ =
        (⟨some file, none⟩, some .DB_NEED_REWRITE) ∧
      ∀ key, (IsTxKey key → file.find? key = none) ∧
        (StartsWith (some poolPrefix) key → file.find? key = none) ∧
        (¬ IsTxKey key → ¬ StartsWith (some poolPrefix) key → ¬ versionKey <+: key →
          file.find? key = records.find? key) := by
  have hopened : Readable (calls.openWalletDb ⟨some records, none⟩) := hread.openWalletDb rfl
  obtain ⟨hneed, hfind⟩ := zapRecords_spec h hopened
  obtain ⟨file, heq, hfile⟩ := h.rewrite.rewrite (some poolPrefix)
    (calls.zapRecords (calls.openWalletDb ⟨some records, none⟩)).1
  refine ⟨file, ?_, fun key => ⟨fun htx => ?_, fun hpool => ?_, fun htx hpool hversion => ?_⟩⟩
  · simp [zapWalletTx, h.openDb, hneed, heq]
  · simp [hfile, (hfind key).1 htx]
  · simp [hfile, skips_of_startsWith hpool]
  have hne : key ≠ versionKey := by
    rintro rfl
    exact hversion (prefix_refl _)
  have hsame : (calls.openWalletDb ⟨some records, none⟩).find? key = records.find? key := by
    simp only [openWalletDb, Option.getD_some]
    split
    · rw [OrdMap.find?_insert, if_neg hne]
    · rfl
  rw [hfile, (hfind key).2 htx, hsame]
  cases hrecord : records.find? key with
  | none => simp
  | some value =>
    obtain ⟨_, _, hkey, -⟩ := hread.types key value hrecord
    have hskip : skips (some poolPrefix) key = false := by
      by_contra hskip
      refine hpool ⟨poolPrefix, rfl, prefix_of_agree (by decide) rfl hkey ?_⟩
      simpa [skips, strncmpEq, poolPrefix] using hskip
    have hnot : calls.rewrite.isVersion key = false := by
      simpa using fun hv => hversion (versionKey_of_isVersion hkey hv)
    simp [hskip, newValue, hnot]

end ZapCalls

end HoboNickels

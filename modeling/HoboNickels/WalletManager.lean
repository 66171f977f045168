import HoboNickels.WalletZap

/-!
# The wallet manager

`CWalletManager::LoadWallet` and `LoadWalletFromFile` enter `cs_WalletManager` by hand and leave it
before each return, put the wallet into `wallets` and register it for notifications. With
`fZapWallet` both give up when `ZapWalletTx` does not return `DB_LOAD_OK`, which it never does: they
return false and keep the critical section (`zap_keeps_lock`). On every other return the load was
all or nothing (`loadWallet_allOrNothing_iff`), so a wallet is never loaded with its transactions
zapped (`zapped_wallet_not_loaded`).
-/

namespace HoboNickels

open Function ZapCalls

/-- The manager, the registered wallets and the objects, as far as one thread sees them, with the
files of the wallet at hand and the block of the last rescan. -/
structure ManagerState where
  lockCount : Nat
  wallets : String → Option Nat
  registered : Nat → Bool
  live : Nat → Bool
  nextWallet : Nat
  files : RewriteFiles
  strErrors : String
  rescannedFrom : Option Nat

structure LoadFlags where
  fRescan : Bool
  fUpgrade : Bool
  fZapWallet : Bool
  nMaxVersion : Int

/-- What the calls of one load return. A value that is missing stands for an exception. -/
structure LoadCalls where
  zap : ZapCalls
  /-- `CWallet::LoadWallet`, or the exception with its text, if it has one. -/
  load : Except (Option String) DBErrors
  loadedFiles : RewriteFiles
  fDefaultKeyValid : Bool
  setMinVersion : Option Unit
  nWalletVersion : Int
  getKeyFromPool : Option Bool
  setDefaultKey : Option Unit
  setAddressBookName : Option Bool
  /-- `ReadBestBlock` with the block of the locator. -/
  readBestBlock : Option (Option Nat)
  scan : Option Unit
  pindexBest : Option Nat
  pindexGenesisBlock : Option Nat

namespace ManagerState

variable (s : ManagerState)

def enter : ManagerState := { s with lockCount := s.lockCount + 1 }

def leave : ManagerState := { s with lockCount := s.lockCount - 1 }

def say (text : String) : ManagerState :=
  { s with strErrors := s.strErrors ++ text }

def newWallet : ManagerState :=
  { s with live := update s.live s.nextWallet true, nextWallet := s.nextWallet + 1 }

def deleteWallet (pWallet : Nat) : ManagerState :=
  { s with live := update s.live pWallet false }

def addWallet (strName : String) (pWallet : Nat) : ManagerState :=
  { s with
    wallets := update s.wallets strName (some pWallet)
    registered := update s.registered pWallet true }

end ManagerState

/-! ## The parts that both functions have -/

abbrev Loaded := ManagerState × Option Bool

def CLIENT_VERSION : Int := 2030600

variable (fl : LoadFlags) (calls : LoadCalls)

section

variable (strName : String) (pWallet : Nat) (first : ManagerState → Option ManagerState)
  (fFirstRun : Bool) (s : ManagerState)

def upgradeWallet : Option ManagerState :=
  if fFirstRun || fl.fUpgrade then
    let check (nMaxVersion : Int) :=
      if nMaxVersion < calls.nWalletVersion then s.say "Cannot downgrade wallet\n" else s
    if fl.nMaxVersion = 0 then calls.setMinVersion.map fun _ => check CLIENT_VERSION
    else some (check fl.nMaxVersion)
  else some s

def rescanWallet : Option ManagerState :=
  let pindexRescan :=
    if fl.fRescan then some calls.pindexGenesisBlock
    else calls.readBestBlock.map fun
      | some pindex => some pindex
      | none => calls.pindexBest
  match pindexRescan with
  | none => none
  | some pindexRescan =>
    if calls.pindexBest ≠ none ∧ calls.pindexBest ≠ pindexRescan then
      calls.scan.map fun _ => { s with rescannedFrom := pindexRescan }
    else some s

/-- The result of `CWallet::LoadWallet` is looked at: the load ends, or goes on. -/
def checkLoad (calls : LoadCalls) (strName strFile : String) (pWallet : Nat) (s : ManagerState)
    (goOn : Bool → ManagerState → Loaded) : Loaded :=
  let s := { s with files := calls.loadedFiles }
  match calls.load with
  | .error what =>
    let text := "Critical error loading wallet \"" ++ strName ++ "\" " ++ "from " ++ strFile
    (s.leave.say (match what with
      | some what => text ++ ": " ++ what
      | none => text), some false)
  | .ok .DB_CORRUPT =>
    ((s.leave.say ("Error loading " ++ strFile ++ ": Wallet corrupted\n")).deleteWallet pWallet,
      some false)
  | .ok .DB_NEED_REWRITE =>
    (s.leave.say "Wallet needed to be rewritten: restart HoboNickels to complete\n", some false)
  | .ok .DB_TOO_NEW =>
    goOn false (s.say
      ("Error loading " ++ strFile ++ ": Wallet requires newer version of HoboNickels\n"))
  | .ok .DB_LOAD_FAIL => goOn false (s.say ("Error loading " ++ strFile ++ "\n"))
  | .ok .DB_NONCRITICAL_ERROR => goOn false s
  | .ok .DB_LOAD_OK => goOn (!calls.fDefaultKeyValid) s

def registerWallet : Loaded :=
  let s := (s.addWallet strName pWallet).leave
  match rescanWallet fl calls s with
  | none => (s, none)
  | some s => (s, some true)

def finishLoad : Loaded :=
  match upgradeWallet fl calls fFirstRun s with
  | none => (s, none)
  | some s =>
    match (if fFirstRun then first s else some s) with
    | none => (s, none)
    | some s => registerWallet fl calls strName pWallet s

def isNameChar (c : Char) : Bool := c.isAlphanum || c == '_'

def isValidName : Bool := strName.toList.all isNameChar

def firstRun (calls : LoadCalls) (s : ManagerState) : Option ManagerState :=
  match calls.getKeyFromPool with
  | none => none
  | some false => some s
  | some true =>
    match calls.setDefaultKey, calls.setAddressBookName with
    | some _, some true => some s
    | some _, some false => some (s.say "Cannot write default address\n")
    | _, _ => none

def openWallet (strName strFile : String) (s : ManagerState) : Loaded :=
  let pWallet := s.nextWallet
  let s := s.newWallet
  checkLoad calls strName strFile pWallet s
    (finishLoad fl calls strName pWallet (firstRun calls))

def loadWallet : Loaded :=
  if isValidName strName = false then
    (s.say "Wallet name may only contain letters, numbers, and underscores.", some false)
  else
    let s := s.enter
    if s.wallets strName ≠ none then
      (s.leave.say "A wallet with that name is already loaded.", some false)
    else
      let strFile := "wallet" ++ (if strName.length > 0 then "-" ++ strName else "") ++ ".dat"
      if fl.fZapWallet then
        let pWallet := s.nextWallet
        let s := s.newWallet
        let (files, nZapWalletRet) := calls.zap.zapWalletTx s.files
        let s := { s with files := files }
        match nZapWalletRet with
        | none => (s, none)
        | some .DB_LOAD_OK =>
          openWallet { fl with fRescan := true } calls strName strFile (s.deleteWallet pWallet)
        | some _ => (s, some false)
      else openWallet fl calls strName strFile s

end

def walletNameOf (strFile : String) : Option String :=
  let reversed := strFile.toList.reverse
  if "tad.".toList <+: reversed then
    let name := (reversed.drop 4).takeWhile isNameChar
    if name ≠ [] ∧ "-tellaw/".toList <+: (reversed.drop 4).dropWhile isNameChar then
      some (String.ofList name.reverse)
    else none
  else none

/-- The default key of a new wallet; it is set also without a key from the pool. -/
def firstRunFromFile (calls : LoadCalls) (s : ManagerState) : Option ManagerState :=
  match calls.getKeyFromPool, calls.setDefaultKey, calls.setAddressBookName with
  | some fKey, some _, some fName =>
    let s := if fKey then s else s.say "Cannot initialize keypool\n"
    some (if fName then s else s.say "Cannot write default address\n")
  | _, _, _ => none

/-- `CWalletManager::LoadWalletFromFile`. A null wallet after a zap is dereferenced, which ends the
program. -/
def loadWalletFromFile (strFile : String) (s : ManagerState) : Loaded :=
  match walletNameOf strFile with
  | none =>
    (s.say ("CWalletManager::LoadWalletFromFile() - invalid filename " ++ strFile), some false)
  | some strName =>
    let s := s.enter
    if s.wallets strName ≠ none then
      (s.leave.say "A wallet with that name is already loaded.", some false)
    else
      let pWallet := s.nextWallet
      let s := s.newWallet
      checkLoad calls strName strFile pWallet s fun fFirstRun s =>
        if fl.fZapWallet then
          let s := s.newWallet
          let (files, nZapWalletRet) := calls.zap.zapWalletTx s.files
          let s := { s with files := files }
          match nZapWalletRet with
          | none | some .DB_LOAD_OK => (s, none)
          | some _ => (s, some false)
        else finishLoad fl calls strName pWallet (firstRunFromFile calls) fFirstRun s

/-! ## All or nothing -/

/-- The lock is held as before; a live, registered wallet is in the map if and only if true is
returned, and otherwise nothing has changed. -/
def AllOrNothing (s s' : ManagerState) (strName : String) (fLoaded : Bool) : Prop :=
  s'.lockCount = s.lockCount ∧
  ((s.wallets strName = none ∧ ∃ pWallet, s'.wallets strName = some pWallet ∧
    s'.registered pWallet = true ∧ s'.live pWallet = true) ↔ fLoaded = true) ∧
  (fLoaded = false → s'.wallets = s.wallets ∧ s'.registered = s.registered)

variable {fl : LoadFlags} {calls : LoadCalls} {strName strFile : String} {s s' : ManagerState}

theorem AllOrNothing.of_unchanged (hlock : s'.lockCount = s.lockCount)
    (hwallets : s'.wallets = s.wallets) (hregistered : s'.registered = s.registered) :
    AllOrNothing s s' strName false := by
  refine ⟨hlock, ?_, fun _ => ⟨hwallets, hregistered⟩⟩
  constructor
  · rintro ⟨hnone, _, hsome, -⟩
    rw [hwallets, hnone] at hsome
    cases hsome
  · simp

structure ManagerState.Kept (s s' : ManagerState) : Prop where
  lockCount : s'.lockCount = s.lockCount
  wallets : s'.wallets = s.wallets
  registered : s'.registered = s.registered
  live : s'.live = s.live
  files : s'.files = s.files

namespace ManagerState.Kept

theorem refl (s : ManagerState) : s.Kept s := ⟨rfl, rfl, rfl, rfl, rfl⟩

theorem say (s : ManagerState) (text : String) : s.Kept (s.say text) := ⟨rfl, rfl, rfl, rfl, rfl⟩

theorem trans {s₁ s₂ s₃ : ManagerState} (h : s₁.Kept s₂) (h' : s₂.Kept s₃) : s₁.Kept s₃ :=
  ⟨h'.1.trans h.1, h'.2.trans h.2, h'.3.trans h.3, h'.4.trans h.4, h'.5.trans h.5⟩

theorem ite {c : Prop} [Decidable c] {s1 s2 : ManagerState} (h1 : s.Kept s1) (h2 : s.Kept s2) :
    s.Kept (if c then s1 else s2) := by
  split
  · exact h1
  · exact h2

end ManagerState.Kept

open ManagerState

theorem upgradeWallet_kept {fFirstRun : Bool} (h : upgradeWallet fl calls fFirstRun s = some s') :
    s.Kept s' := by
  simp only [upgradeWallet] at h
  split at h
  · split at h
    · obtain ⟨-, -, rfl⟩ := Option.map_eq_some_iff.mp h
      exact Kept.ite (Kept.say s _) (Kept.refl s)
    · cases h
      exact Kept.ite (Kept.say s _) (Kept.refl s)
  · cases h
    exact Kept.refl s

theorem firstRun_kept (h : firstRun calls s = some s') : s.Kept s' := by
  simp only [firstRun] at h
  split at h
  · cases h
  · cases h
    exact Kept.refl s
  split at h
  · cases h
    exact Kept.refl s
  · cases h
    exact Kept.say s _
  · cases h

theorem firstRunFromFile_kept (h : firstRunFromFile calls s = some s') : s.Kept s' := by
  simp only [firstRunFromFile] at h
  split at h
  · cases h
    have hkey : ∀ fKey : Bool, s.Kept (if fKey then s else s.say "Cannot initialize keypool\n") :=
      fun _ => Kept.ite (Kept.refl s) (Kept.say s _)
    exact Kept.ite (hkey _) ((hkey _).trans (Kept.say _ _))
  · cases h

def LoadCalls.LoadEnds (calls : LoadCalls) : Prop :=
  (∃ what, calls.load = .error what) ∨ calls.load = .ok .DB_CORRUPT ∨
    calls.load = .ok .DB_NEED_REWRITE

theorem checkLoad_cases (calls : LoadCalls) (strName strFile : String) (pWallet : Nat)
    (s : ManagerState) (goOn : Bool → ManagerState → Loaded) :
    (calls.LoadEnds ∧ ∃ s', checkLoad calls strName strFile pWallet s goOn = (s', some false) ∧
      s'.lockCount = s.lockCount - 1 ∧ s'.wallets = s.wallets ∧ s'.registered = s.registered) ∨
    (¬ calls.LoadEnds ∧ ∃ fFirstRun s',
      checkLoad calls strName strFile pWallet s goOn = goOn fFirstRun s' ∧
        ({ s with files := calls.loadedFiles } : ManagerState).Kept s') := by
  simp only [checkLoad, LoadCalls.LoadEnds]
  cases hload : calls.load with
  | error what => exact .inl ⟨.inl ⟨what, rfl⟩, _, rfl, rfl, rfl, rfl⟩
  | ok err =>
    cases err with
    | DB_CORRUPT => exact .inl ⟨by simp, _, rfl, rfl, rfl, rfl⟩
    | DB_NEED_REWRITE => exact .inl ⟨by simp, _, rfl, rfl, rfl, rfl⟩
    | DB_TOO_NEW => exact .inr ⟨by simp, _, _, rfl, Kept.say _ _⟩
    | DB_LOAD_FAIL => exact .inr ⟨by simp, _, _, rfl, Kept.say _ _⟩
    | DB_NONCRITICAL_ERROR => exact .inr ⟨by simp, _, _, rfl, Kept.refl _⟩
    | DB_LOAD_OK => exact .inr ⟨by simp, _, _, rfl, Kept.refl _⟩

theorem rescanWallet_kept (h : rescanWallet fl calls s = some s') : s.Kept s' := by
  simp only [rescanWallet] at h
  split at h
  · cases h
  split at h
  · obtain ⟨-, -, rfl⟩ := Option.map_eq_some_iff.mp h
    exact ⟨rfl, rfl, rfl, rfl, rfl⟩
  · cases h
    exact Kept.refl s

variable {fLoaded : Bool} {s0 : ManagerState}

theorem registerWallet_allOrNothing {pWallet : Nat}
    (hlock : s.lockCount = s0.lockCount + 1) (hnew : s0.wallets strName = none)
    (hlive : s.live pWallet = true)
    (h : (registerWallet fl calls strName pWallet s).2 = some fLoaded) :
    AllOrNothing s0 (registerWallet fl calls strName pWallet s).1 strName fLoaded := by
  simp only [registerWallet] at h ⊢
  split at h
  · cases h
  rename_i s' hrescan
  cases h
  have hkept := rescanWallet_kept hrescan
  refine ⟨?_, ?_, by simp⟩
  · simp [hkept.lockCount, leave, addWallet, hlock]
  refine iff_of_true ⟨hnew, pWallet, ?_, ?_, ?_⟩ rfl
  · simp [hkept.wallets, leave, addWallet]
  · simp [hkept.registered, leave, addWallet]
  · simp [hkept.live, leave, addWallet, hlive]

theorem finishLoad_allOrNothing {pWallet : Nat} {fFirstRun : Bool}
    {first : ManagerState → Option ManagerState} (hfirst : ∀ s s', first s = some s' → s.Kept s')
    (hlock : s.lockCount = s0.lockCount + 1) (hnew : s0.wallets strName = none)
    (hlive : s.live pWallet = true)
    (h : (finishLoad fl calls strName pWallet first fFirstRun s).2 = some fLoaded) :
    AllOrNothing s0 (finishLoad fl calls strName pWallet first fFirstRun s).1 strName fLoaded := by
  simp only [finishLoad] at h ⊢
  cases hup : upgradeWallet fl calls fFirstRun s with
  | none => simp [hup] at h
  | some s1 =>
    simp only [hup] at h ⊢
    have hkept := upgradeWallet_kept hup
    cases hdefault : (if fFirstRun then first s1 else some s1) with
    | none => simp [hdefault] at h
    | some s2 =>
      simp only [hdefault] at h ⊢
      have hkept2 : s1.Kept s2 := by
        split at hdefault
        · exact hfirst s1 s2 hdefault
        · cases hdefault
          exact Kept.refl _
      apply registerWallet_allOrNothing _ hnew _ h
      · rw [hkept2.lockCount, hkept.lockCount, hlock]
      · rw [hkept2.live, hkept.live, hlive]

theorem openWallet_allOrNothing (hnew : s.wallets strName = none)
    (h : (openWallet fl calls strName strFile s.enter).2 = some fLoaded) :
    AllOrNothing s (openWallet fl calls strName strFile s.enter).1 strName fLoaded := by
  simp only [openWallet] at h ⊢
  rcases checkLoad_cases calls strName strFile s.enter.nextWallet s.enter.newWallet
      (finishLoad fl calls strName s.enter.nextWallet (firstRun calls)) with
    ⟨-, s', heq, hlock, hwallets, hregistered⟩ | ⟨-, fFirstRun, s', heq, hkept⟩
  · rw [heq] at h ⊢
    cases h
    exact AllOrNothing.of_unchanged hlock hwallets hregistered
  rw [heq] at h ⊢
  apply finishLoad_allOrNothing (fun _ _ => firstRun_kept) hkept.lockCount hnew _ h
  rw [hkept.live]
  exact update_self _ _ _

/-- `LoadWallet` gets to a zap that does not throw. -/
def LoadZaps (fl : LoadFlags) (calls : LoadCalls) (strName : String) (s : ManagerState) : Prop :=
  isValidName strName = true ∧ s.wallets strName = none ∧ fl.fZapWallet = true ∧
    ¬ calls.zap.Throws s.files

/-- `LoadWalletFromFile` gets to a zap that does not throw. -/
def LoadFromFileZaps (fl : LoadFlags) (calls : LoadCalls) (strFile : String) (s : ManagerState) :
    Prop :=
  (∃ strName, walletNameOf strFile = some strName ∧ s.wallets strName = none) ∧
    ¬ calls.LoadEnds ∧ fl.fZapWallet = true ∧ ¬ calls.zap.Throws calls.loadedFiles

theorem loadWallet_of_zaps (h : LoadZaps fl calls strName s) :
    (loadWallet fl calls strName s).2 = some false ∧
      (loadWallet fl calls strName s).1.lockCount = s.lockCount + 1 ∧
      (loadWallet fl calls strName s).1.wallets = s.wallets ∧
      (loadWallet fl calls strName s).1.registered = s.registered ∧
      (loadWallet fl calls strName s).1.files = (calls.zap.zapWalletTx s.files).1 := by
  obtain ⟨hvalid, hnew, hzap, hthrows⟩ := h
  cases hret : (calls.zap.zapWalletTx s.files).2 with
  | none => exact absurd ((zapWalletTx_throws_iff s.files).mp hret) hthrows
  | some err =>
    have hne : err ≠ .DB_LOAD_OK := by
      rintro rfl
      exact zapWalletTx_ne_ok s.files hret
    simp only [loadWallet, hvalid, hzap, enter, newWallet, hnew, hret]
    cases err <;> simp_all

theorem loadWallet_of_throws (hvalid : isValidName strName = true)
    (hnew : s.wallets strName = none) (hzap : fl.fZapWallet = true)
    (hthrows : calls.zap.Throws s.files) : (loadWallet fl calls strName s).2 = none := by
  have hret := (zapWalletTx_throws_iff s.files).mpr hthrows
  simp [loadWallet, hvalid, hzap, enter, newWallet, hnew, hret]

theorem loadWallet_allOrNothing (hzap : ¬ LoadZaps fl calls strName s)
    (h : (loadWallet fl calls strName s).2 = some fLoaded) :
    AllOrNothing s (loadWallet fl calls strName s).1 strName fLoaded := by
  cases hvalid : isValidName strName with
  | false =>
    simp only [loadWallet, hvalid, if_true] at h ⊢
    cases h
    exact AllOrNothing.of_unchanged rfl rfl rfl
  | true =>
    by_cases hnew : s.wallets strName = none
    · cases hflag : fl.fZapWallet with
      | true =>
        have hthrows : calls.zap.Throws s.files := by
          simpa [LoadZaps, hvalid, hnew, hflag] using hzap
        rw [loadWallet_of_throws hvalid hnew hflag hthrows] at h
        cases h
      | false =>
        have heq : loadWallet fl calls strName s = openWallet fl calls strName
            ("wallet" ++ (if strName.length > 0 then "-" ++ strName else "") ++ ".dat")
            s.enter := by
          simp [loadWallet, hvalid, hflag, enter, hnew]
        rw [heq] at h ⊢
        exact openWallet_allOrNothing hnew h
    · have hloaded : s.enter.wallets strName ≠ none := hnew
      simp only [loadWallet, hvalid, Bool.true_eq_false, if_false, if_pos hloaded] at h ⊢
      cases h
      exact AllOrNothing.of_unchanged rfl rfl rfl

theorem loadWalletFromFile_eq (hname : walletNameOf strFile = some strName)
    (hnew : s.wallets strName = none) :
    loadWalletFromFile fl calls strFile s =
      checkLoad calls strName strFile s.nextWallet s.enter.newWallet fun fFirstRun s1 =>
        if fl.fZapWallet then
          ({ s1.newWallet with files := (calls.zap.zapWalletTx s1.files).1 },
            match (calls.zap.zapWalletTx s1.files).2 with
            | none | some .DB_LOAD_OK => none
            | some _ => some false)
        else finishLoad fl calls strName s.nextWallet (firstRunFromFile calls) fFirstRun s1 := by
  have hnew' : s.enter.wallets strName = none := hnew
  simp only [loadWalletFromFile, hname, hnew', ne_eq, not_true_eq_false, if_false]
  congr 1
  funext fFirstRun s1
  split
  · simp only [newWallet]
    split <;> simp_all
  · rfl

theorem loadWalletFromFile_of_zaps (h : LoadFromFileZaps fl calls strFile s) :
    (loadWalletFromFile fl calls strFile s).2 = some false ∧
      (loadWalletFromFile fl calls strFile s).1.lockCount = s.lockCount + 1 := by
  obtain ⟨⟨strName, hname, hnew⟩, hgoes, hzap, hthrows⟩ := h
  rw [loadWalletFromFile_eq hname hnew]
  rcases checkLoad_cases calls strName strFile s.nextWallet s.enter.newWallet _ with
    ⟨hends, -⟩ | ⟨-, _, s1, heq, hkept⟩
  · exact absurd hends hgoes
  have hfiles : s1.files = calls.loadedFiles := hkept.files
  rw [heq, if_pos hzap]
  cases hret : (calls.zap.zapWalletTx calls.loadedFiles).2 with
  | none => exact absurd ((zapWalletTx_throws_iff _).mp hret) hthrows
  | some err =>
    have hne : err ≠ .DB_LOAD_OK := by
      rintro rfl
      exact zapWalletTx_ne_ok _ hret
    refine ⟨?_, hkept.lockCount⟩
    cases err <;> simp_all

theorem loadWalletFromFile_allOrNothing (hzap : ¬ LoadFromFileZaps fl calls strFile s)
    (h : (loadWalletFromFile fl calls strFile s).2 = some fLoaded) :
    AllOrNothing s (loadWalletFromFile fl calls strFile s).1
      ((walletNameOf strFile).getD strName) fLoaded := by
  cases hname : walletNameOf strFile with
  | none =>
    simp only [loadWalletFromFile, hname] at h ⊢
    cases h
    exact AllOrNothing.of_unchanged rfl rfl rfl
  | some strName =>
    by_cases hnew : s.wallets strName = none
    · rw [loadWalletFromFile_eq hname hnew] at h ⊢
      rcases checkLoad_cases calls strName strFile s.nextWallet s.enter.newWallet _ with
        ⟨-, _, heq, hlock, hwallets, hregistered⟩ | ⟨hgoes, _, s1, heq, hkept⟩
      · rw [heq] at h ⊢
        cases h
        exact AllOrNothing.of_unchanged hlock hwallets hregistered
      rw [heq] at h ⊢
      cases hflag : fl.fZapWallet with
      | true =>
        have hthrows : calls.zap.Throws calls.loadedFiles := by
          by_contra hnot
          exact hzap ⟨⟨strName, hname, hnew⟩, hgoes, hflag, hnot⟩
        have hret := (zapWalletTx_throws_iff _).mpr hthrows
        have hfiles : s1.files = calls.loadedFiles := hkept.files
        simp [hflag, hfiles, hret] at h
      | false =>
        simp only [hflag, Bool.false_eq_true, if_false] at h ⊢
        apply finishLoad_allOrNothing (fun _ _ => firstRunFromFile_kept) hkept.lockCount hnew _ h
        rw [hkept.live]
        exact update_self _ _ _
    · have hloaded : s.enter.wallets strName ≠ none := hnew
      simp only [loadWalletFromFile, hname, if_pos hloaded] at h ⊢
      cases h
      exact AllOrNothing.of_unchanged rfl rfl rfl

/-- Every return is all or nothing exactly if no zap is reached. -/
theorem loadWallet_allOrNothing_iff (fl : LoadFlags) (calls : LoadCalls) (strName strFile : String)
    (s : ManagerState) :
    ((∀ fLoaded, (loadWallet fl calls strName s).2 = some fLoaded →
        AllOrNothing s (loadWallet fl calls strName s).1 strName fLoaded) ↔
      ¬ LoadZaps fl calls strName s) ∧
    ((∀ fLoaded, (loadWalletFromFile fl calls strFile s).2 = some fLoaded →
        AllOrNothing s (loadWalletFromFile fl calls strFile s).1
          ((walletNameOf strFile).getD strName) fLoaded) ↔
      ¬ LoadFromFileZaps fl calls strFile s) := by
  refine ⟨⟨fun h hzaps => ?_, fun hzaps _ => loadWallet_allOrNothing hzaps⟩,
    ⟨fun h hzaps => ?_, fun hzaps _ => loadWalletFromFile_allOrNothing hzaps⟩⟩
  · obtain ⟨hfalse, hlock, -⟩ := loadWallet_of_zaps hzaps
    have := (h false hfalse).1
    omega
  · obtain ⟨hfalse, hlock⟩ := loadWalletFromFile_of_zaps hzaps
    have := (h false hfalse).1
    omega

/-! ## A wallet that is zapped -/

def goodLoad : LoadCalls where
  zap := ⟨true, true, true, fun _ => true, true, fun _ => true, allSucceed⟩
  load := .ok .DB_LOAD_OK
  loadedFiles := ⟨some OrdMap.empty, none⟩
  fDefaultKeyValid := true
  setMinVersion := some ()
  nWalletVersion := 60000
  getKeyFromPool := some true
  setDefaultKey := some ()
  setAddressBookName := some true
  readBestBlock := some none
  scan := some ()
  pindexBest := some 5
  pindexGenesisBlock := some 0

def poolKeyOne : Bytes := poolPrefix ++ [1, 0, 0, 0, 0, 0, 0, 0]

def smallWallet : Records :=
  ((oneRecord versionKey clientVersion).insert [4, 110, 97, 109, 101, 1, 65] [1, 66]).insert
    poolKeyOne [1] |>.insert (txKey (List.replicate 32 7)) [9]

def emptyManager : ManagerState :=
  ⟨0, fun _ => none, fun _ => false, fun _ => false, 0, ⟨some smallWallet, none⟩, "", none⟩

def zapFlags : LoadFlags := ⟨false, false, true, 0⟩

/-- All calls succeed, false is returned, and the thread holds `cs_WalletManager`. The same happens
in `LoadWalletFromFile`. -/
theorem zap_keeps_lock :
    ((loadWallet zapFlags goodLoad "" emptyManager).2 = some false ∧
      emptyManager.lockCount = 0 ∧
      (loadWallet zapFlags goodLoad "" emptyManager).1.lockCount = 1) ∧
    ((loadWalletFromFile zapFlags goodLoad "/tmp/wallet-a.dat" emptyManager).2 = some false ∧
      (loadWalletFromFile zapFlags goodLoad "/tmp/wallet-a.dat" emptyManager).1.lockCount = 1) := by
  decide +kernel

/-- The wallet is loaded and rescanned from the genesis block, its transaction records are gone, and
the others are kept. -/
def ZapLoads (calls : LoadCalls) (strName : String) (records : Records) (r : Loaded) : Prop :=
  r.2 = some true ∧
  (∃ pWallet, r.1.wallets strName = some pWallet ∧ r.1.registered pWallet = true) ∧
  (calls.pindexBest ≠ none → calls.pindexBest ≠ calls.pindexGenesisBlock →
    r.1.rescannedFrom = calls.pindexGenesisBlock) ∧
  ∃ file, r.1.files.strFile = some file ∧ ∀ key,
    (IsTxKey key → file.find? key = none) ∧
    (¬ IsTxKey key → ¬ versionKey <+: key → file.find? key = records.find? key)

theorem loadWallet_zap_ne_true (hzap : fl.fZapWallet = true) :
    (loadWallet fl calls strName s).2 ≠ some true := by
  intro htrue
  by_cases hzaps : LoadZaps fl calls strName s
  · rw [(loadWallet_of_zaps hzaps).1] at htrue
    cases htrue
  obtain ⟨-, hadded, -⟩ := loadWallet_allOrNothing hzaps htrue
  obtain ⟨hnew, -⟩ := hadded.mpr rfl
  cases hvalid : isValidName strName with
  | false => simp [loadWallet, hvalid] at htrue
  | true =>
    have hthrows : calls.zap.Throws s.files := by
      simpa [LoadZaps, hvalid, hnew, hzap] using hzaps
    rw [loadWallet_of_throws hvalid hnew hzap hthrows] at htrue
    cases htrue

/-- With the option a wallet is never loaded. If all calls succeed, false is returned, no wallet is
there or registered, and the key pool is gone from the file with the transactions. -/
theorem zapped_wallet_not_loaded (fl : LoadFlags) (calls : LoadCalls) (strName : String)
    (s : ManagerState) (records : Records) (hzap : fl.fZapWallet = true) :
    ¬ ZapLoads calls strName records (loadWallet fl calls strName s) ∧
    (isValidName strName = true → s.wallets strName = none → calls.zap.Succeed →
      Readable records → s.files = ⟨some records, none⟩ →
      (loadWallet fl calls strName s).2 = some false ∧
      (loadWallet fl calls strName s).1.wallets = s.wallets ∧
      (loadWallet fl calls strName s).1.registered = s.registered ∧
      ∃ file, (loadWallet fl calls strName s).1.files = ⟨some file, none⟩ ∧ ∀ key,
        (IsTxKey key → file.find? key = none) ∧
        (StartsWith (some poolPrefix) key → file.find? key = none) ∧
        (¬ IsTxKey key → ¬ StartsWith (some poolPrefix) key → ¬ versionKey <+: key →
          file.find? key = records.find? key)) := by
  refine ⟨fun hloads => loadWallet_zap_ne_true hzap hloads.1,
    fun hvalid hnew hcalls hread hfiles => ?_⟩
  · obtain ⟨file, heq, hfile⟩ := zapWalletTx_file hcalls hread
    have hzaps : LoadZaps fl calls strName s := by
      refine ⟨hvalid, hnew, hzap, ?_⟩
      rw [← zapWalletTx_throws_iff, hfiles, heq]
      simp
    obtain ⟨hfalse, -, hwallets, hregistered, hafter⟩ := loadWallet_of_zaps hzaps
    refine ⟨hfalse, hwallets, hregistered, file, ?_, hfile⟩
    rw [hafter, hfiles, heq]

/-- The file had a pool key before, and has none afterwards. -/
theorem zap_drops_key_pool :
    smallWallet.find? poolKeyOne = some [1] ∧
    (loadWallet zapFlags goodLoad "" emptyManager).2 = some false ∧
    (loadWallet zapFlags goodLoad "" emptyManager).1.wallets "" = none ∧
    (loadWallet zapFlags goodLoad "" emptyManager).1.files.strFile.map OrdMap.entries =
      some [([4, 110, 97, 109, 101, 1, 65], [1, 66]), (versionKey, clientVersion)] := by
  decide +kernel

theorem smallWallet_readable : Readable smallWallet := by
  have hall : ∀ e ∈ smallWallet.entries, (match readString e.1 with
      | some (strType, rest) => strType != txType || decide (32 ≤ rest.length)
      | none => false) = true := by
    decide +kernel
  refine ⟨fun key value hfind => ?_, by decide +kernel⟩
  have hkey := hall (key, value) (smallWallet.mem_entries_iff.mpr hfind)
  cases hread : readString key with
  | none => simp [hread] at hkey
  | some r =>
    refine ⟨r.1, r.2, rfl, fun htype => ?_⟩
    simpa [hread, htype] using hkey

theorem allSucceed_succeeds : allSucceed.Succeed :=
  ⟨rfl, rfl, rfl, rfl, fun _ => rfl, rfl, fun _ => rfl, rfl, rfl, rfl⟩

theorem goodLoad_succeeds : goodLoad.zap.Succeed :=
  ⟨rfl, rfl, fun _ => rfl, rfl, fun _ => rfl, allSucceed_succeeds⟩

theorem zapped_wallet_not_loaded_small :
    ¬ ZapLoads goodLoad "" smallWallet (loadWallet zapFlags goodLoad "" emptyManager) ∧
    ∃ file, (loadWallet zapFlags goodLoad "" emptyManager).1.files = ⟨some file, none⟩ ∧
      file.find? poolKeyOne = none := by
  obtain ⟨hnot, hgood⟩ := zapped_wallet_not_loaded zapFlags goodLoad "" emptyManager smallWallet rfl
  obtain ⟨-, -, -, file, hfiles, hfind⟩ :=
    hgood rfl rfl goodLoad_succeeds smallWallet_readable rfl
  exact ⟨hnot, file, hfiles, (hfind poolKeyOne).2.1 ⟨poolPrefix, rfl, List.prefix_append _ _⟩⟩

end HoboNickels

import HoboNickels.Primitives

/-!
# Snapshot manifests

A manifest is text: a line `height N`, and a line `file NAME SIZE HASH` for every file.
`ApplySnapshotIfPresent` and `SnapParseManifest` read it with the same loop of stream extractions,
the second with a test on each name.
-/

namespace HoboNickels

abbrev Str := List Char

def isSpace (c : Char) : Bool :=
  c == ' ' || c == '\t' || c == '\n' || c == '\r' || c == '\x0b' || c == '\x0c'

def getLines (s : Str) : List Str :=
  let lines := s.splitOn '\n'
  if lines.getLast? = some [] then lines.dropLast else lines

/-- Extract a word, with what is left; the word is empty when there is none. -/
def getWord (s : Str) : Str × Str := (s.dropWhile isSpace).span (fun c => !isSpace c)

def digitValue (c : Char) : Nat := c.toNat - '0'.toNat

def decimalValue (digits : Str) : Nat := digits.foldl (fun n c => 10 * n + digitValue c) 0

structure NumberText where
  negative : Bool
  digits : Str
  rest : Str

def getNumber (s : Str) : NumberText :=
  let (negative, s) := match s with
    | '-' :: s => (true, s)
    | '+' :: s => (false, s)
    | s => (false, s)
  ⟨negative, s.takeWhile Char.isDigit, s.dropWhile Char.isDigit⟩

/-- `iss >> nHeight` for an `int` that holds `old`. Nothing is stored at the end of the text. -/
def getInt (old : Int) (s : Str) : Int :=
  match s.dropWhile isSpace with
  | [] => old
  | s =>
    let t := getNumber s
    let value : Int := if t.negative then -decimalValue t.digits else decimalValue t.digits
    if t.digits = [] then 0 else max (-2 ^ 31) (min (2 ^ 31 - 1) value)

/-- `iss >> sz` for a `uint64_t`: the value stored, and what is left when the extraction
succeeded. -/
def getUint64 (s : Str) : Nat × Option Str :=
  match s.dropWhile isSpace with
  | [] => (0, none)
  | s =>
    let t := getNumber s
    let value := decimalValue t.digits
    if t.digits = [] then (0, none)
    else if value ≥ 2 ^ 64 then (2 ^ 64 - 1, none)
    else (if t.negative then (2 ^ 64 - value) % 2 ^ 64 else value, some t.rest)

def hexDigit (c : Char) : Option Nat :=
  if c.isDigit then some (digitValue c)
  else if 'a' ≤ c ∧ c ≤ 'f' then some (c.toNat - 'a'.toNat + 10)
  else if 'A' ≤ c ∧ c ≤ 'F' then some (c.toNat - 'A'.toNat + 10)
  else none

def skip0x : Str → Str
  | '0' :: 'x' :: s => s
  | '0' :: 'X' :: s => s
  | s => s

def hexPrefixValue : Nat → Str → Nat
  | acc, [] => acc
  | acc, c :: s =>
    match hexDigit c with
    | some d => hexPrefixValue (16 * acc + d) s
    | none => acc

/-- `uint256(str)`, by `SetHex`: of more than 64 digits, the last 64 count. -/
def setHex (s : Str) : Uint256 := hexPrefixValue 0 (skip0x (s.dropWhile isSpace)) % 2 ^ 256

/-! ## The manifest -/

structure ManifestFile where
  name : Str
  size : Nat
  hash : Uint256
  deriving DecidableEq, Repr

structure Manifest where
  nHeight : Int
  files : List ManifestFile
  deriving DecidableEq, Repr

def getFile (s : Str) : ManifestFile :=
  let (name, s) := getWord s
  if name = [] then ⟨[], 0, setHex []⟩
  else
    match getUint64 s with
    | (size, some s) => ⟨name, size, setHex (getWord s).1⟩
    | (size, none) => ⟨name, size, setHex []⟩

def Manifest.addLine (m : Manifest) (line : Str) : Manifest :=
  let (tok, s) := getWord line
  if tok = "height".toList then { m with nHeight := getInt m.nHeight s }
  else if tok = "file".toList then { m with files := m.files ++ [getFile s] }
  else m

def parseManifest (text : Str) : Manifest := (getLines text).foldl Manifest.addLine ⟨-1, []⟩

def Manifest.usable (m : Manifest) : Bool := decide (0 ≤ m.nHeight) && !m.files.isEmpty

def hasDotDot : Str → Bool
  | '.' :: '.' :: _ => true
  | _ :: s => hasDotDot s
  | [] => false

/-- The names that `SnapParseManifest` lets pass: block files and files of the index, without a
way out of the staging directory. -/
def snapNameOk (name : Str) : Bool :=
  name != [] && !hasDotDot name && name.head? != some '/'
    && ("blk".toList.isPrefixOf name || "txleveldb/".toList.isPrefixOf name)

example : parseManifest "height 12\nfile blk1 3 0x0a\nfile txleveldb/x 4 ff\n".toList
    = ⟨12, [⟨"blk1".toList, 3, 10⟩, ⟨"txleveldb/x".toList, 4, 255⟩]⟩ := by
  decide +kernel

example : parseManifest "height\nfile blk1 many 0x0a".toList = ⟨-1, [⟨"blk1".toList, 0, 0⟩]⟩ := by
  decide +kernel

end HoboNickels

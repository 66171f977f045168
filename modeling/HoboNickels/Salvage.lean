import HoboNickels.Manifest

/-!
# Salvage of a wallet file

`CDBEnv::Salvage` reads what Berkeley DB dumps of a damaged file: header lines up to `HEADER=END`,
then a key line and a value line for each pair, up to `DATA=END`. The second loop asks a key line
whether it is `DATA_END`, which no dump has, so it takes the last line for a key as well.
-/

namespace HoboNickels

open List

def parseHex : Str → List Nat
  | [] => []
  | c :: s =>
    if isSpace c then parseHex s
    else
      match hexDigit c, s with
      | some n, d :: s =>
        match hexDigit d with
        | some m => (16 * n + m) :: parseHex s
        | none => []
      | _, _ => []

abbrev KeyValPair := List Nat × List Nat

inductive VerifyResult where
  | ok
  | verifyBad
  | failed
  deriving DecidableEq

def headerEnd : Str := "HEADER=END".toList

def dataEnd : Str := "DATA=END".toList

/-- The first loop. A stream is the list of the lines still to be read, empty once `eof` holds;
what follows the last newline is a line too. -/
def skipHeader : Str → List Str → List Str
  | _, [] => []
  | strLine, line :: lines =>
    if strLine = headerEnd then line :: lines else skipHeader line lines

/-- The second loop: the pairs it pushes. -/
def readPairs : Str → Str → List Str → List KeyValPair
  | _, _, [] => []
  | keyHex, valueHex, line :: lines =>
    if keyHex = dataEnd then []
    else if line ≠ "DATA_END".toList then
      match lines with
      -- `getline` leaves `valueHex` alone when the end has been met
      | [] => [(parseHex line, parseHex valueHex)]
      | value :: lines => (parseHex line, parseHex value) :: readPairs line value lines
    else readPairs line valueHex lines

/-- `Salvage`, with what `verify` returned and dumped: the value returned, and `vResult`. -/
def salvage (result : VerifyResult) (strDump : Str) (fAggressive : Bool)
    (vResult : List KeyValPair) : Bool × List KeyValPair :=
  if result = .verifyBad ∧ !fAggressive ∨ result = .failed then (false, vResult)
  else (result = .ok, vResult ++ readPairs [] [] (skipHeader [] (strDump.splitOn '\n')))

/-! ## Dumps -/

def IsHexLine (line : Str) : Prop := ∀ c ∈ line, c = ' ' ∨ (hexDigit c).isSome

/-- A complete dump; `newline` says whether its last line is ended as well. -/
structure Dump where
  header : List Str
  pairs : List (Str × Str)
  newline : Bool
  header_line : ∀ line ∈ header, '\n' ∉ line ∧ line ≠ headerEnd
  hex : ∀ p ∈ pairs, IsHexLine p.1 ∧ IsHexLine p.2

namespace Dump

def data (d : Dump) : List Str :=
  d.pairs.flatMap (fun p => [p.1, p.2]) ++ dataEnd :: if d.newline then [[]] else []

def lines (d : Dump) : List Str := d.header ++ headerEnd :: d.data

def text (d : Dump) : Str := ['\n'].intercalate d.lines

def keyVals (d : Dump) : List KeyValPair := d.pairs.map fun p => (parseHex p.1, parseHex p.2)

end Dump

theorem IsHexLine.not_mem {line : Str} (h : IsHexLine line) {c : Char}
    (hc : ¬(c = ' ' ∨ (hexDigit c).isSome)) : c ∉ line :=
  fun hmem => hc (h c hmem)

theorem Dump.splitOn_text (d : Dump) : d.text.splitOn '\n' = d.lines := by
  refine splitOn_intercalate '\n' (fun line hline => ?_) (by simp [lines])
  simp only [lines, data, mem_append, mem_cons, mem_flatMap] at hline
  rcases hline with hline | rfl | ⟨p, hp, hline⟩ | rfl | hline
  · exact (d.header_line line hline).1
  · decide
  · have hhex := d.hex p hp
    rcases hline with rfl | rfl | hline
    · exact hhex.1.not_mem (by decide)
    · exact hhex.2.not_mem (by decide)
    · cases hline
  · decide
  · cases d.newline <;> simp_all

theorem skipHeader_header (lines : List Str) {header : List Str} {strLine : Str}
    (h : ∀ line ∈ header, line ≠ headerEnd) (hs : strLine ≠ headerEnd) :
    skipHeader strLine (header ++ headerEnd :: lines) = lines := by
  induction header generalizing strLine with
  | nil => cases lines <;> simp [skipHeader, hs]
  | cons line header ih =>
    rw [cons_append, skipHeader, if_neg hs]
    exact ih (fun l hl => h l (mem_cons_of_mem _ hl)) (h line mem_cons_self)

theorem readPairs_dataEnd (valueHex : Str) (lines : List Str) :
    readPairs dataEnd valueHex lines = [] := by
  rcases lines with _ | ⟨_, _ | ⟨_, lines⟩⟩
  · rfl
  · rw [readPairs, if_pos rfl]
  · rw [readPairs, if_pos rfl]

/-- One pair more than the dump holds: `DATA=END` read as a key. Its value is the line after it or,
without one, the value read last. -/
theorem readPairs_data {pairs : List (Str × Str)} {last : Str × Str} (rest : List Str)
    (h : ∀ p ∈ pairs, IsHexLine p.1) (hlast : last.1 ≠ dataEnd) :
    readPairs last.1 last.2 (pairs.flatMap (fun p => [p.1, p.2]) ++ dataEnd :: rest) =
      pairs.map (fun p => (parseHex p.1, parseHex p.2)) ++
        [([0xda], parseHex (rest.headD (pairs.getLastD last).2))] := by
  induction pairs generalizing last with
  | nil =>
    have hda : parseHex dataEnd = [0xda] := by decide +kernel
    rw [flatMap_nil, nil_append]
    cases rest with
    | nil => rw [readPairs, if_neg hlast, hda]; rfl
    | cons value rest =>
      rw [readPairs, if_neg hlast, hda, readPairs_dataEnd]; rfl
  | cons p pairs ih =>
    have hT : 'T' ∉ p.1 := (h p mem_cons_self).not_mem (by decide)
    have hne : p.1 ≠ "DATA_END".toList := fun heq => hT (by rw [heq]; decide +kernel)
    have hend : p.1 ≠ dataEnd := fun heq => hT (by rw [heq]; decide +kernel)
    simp only [flatMap_cons, cons_append, nil_append]
    rw [readPairs, if_neg hlast, if_pos hne, ih (fun q hq => h q (mem_cons_of_mem _ hq)) hend,
      getLastD_cons, map_cons, cons_append]

/-- Salvage appends the pairs of a dump, and nothing else, in one case only: it gives up before
reading and there are none. -/
theorem salvage_exact_iff (d : Dump) (result : VerifyResult) (fAggressive : Bool)
    (vResult : List KeyValPair) :
    (salvage result d.text fAggressive vResult).2 = vResult ++ d.keyVals ↔
      (result = .verifyBad ∧ !fAggressive ∨ result = .failed) ∧ d.pairs = [] := by
  have hskip : skipHeader [] (d.text.splitOn '\n') = d.data := by
    rw [d.splitOn_text]
    exact skipHeader_header d.data (fun line hline => (d.header_line line hline).2) (by decide)
  have hread := readPairs_data (if d.newline then [[]] else []) (fun p hp => (d.hex p hp).1)
    (by decide : (([], []) : Str × Str).1 ≠ dataEnd)
  unfold salvage
  split
  case isTrue hstop =>
    rw [Dump.keyVals, List.self_eq_append_right, List.map_eq_nil_iff]
    exact (and_iff_right hstop).symm
  case isFalse hstop =>
    refine iff_of_false ?_ (fun h => hstop h.1)
    rw [hskip, Dump.data, hread]
    simp [Dump.keyVals]

/-- A file with the one record `6b ↦ 01`: a second one, `da` without a value, is salvaged. -/
theorem salvage_extra_pair :
    salvage .ok "VERSION=3\nHEADER=END\n 6b\n 01\nDATA=END\n".toList false [] =
      (true, [([0x6b], [0x01]), ([0xda], [])]) := by
  decide +kernel

end HoboNickels

import Mathlib

/-!
# Length-prefixed frames

A stream that is a sequence of frames: a header of fixed size, which says how long the payload is,
and the payload.

`parse` takes a whole stream apart. `parse_append` is the reason why a receiver that keeps the bytes
of the last, unfinished frame sees the same frames however the stream is cut into pieces.
-/

structure Framing (β : Type) where
  headerSize : Nat
  headerSize_pos : 0 < headerSize
  /-- The size of the payload, unless the header is refused. -/
  payloadSize : List β → Option Nat

namespace Framing

open List

variable {β : Type} (F : Framing β)

/-- The frames of a stream, and the elements after the last of them, or nothing when a header was
refused. -/
structure Parsed (β : Type) where
  frames : List (List β × List β)
  rest : Option (List β)

def parseFrom : Nat → List β → Parsed β
  | 0, s => ⟨[], some s⟩
  | fuel + 1, s =>
    if s.length < F.headerSize then ⟨[], some s⟩
    else
      match F.payloadSize (s.take F.headerSize) with
      | none => ⟨[], none⟩
      | some n =>
        if s.length < F.headerSize + n then ⟨[], some s⟩
        else
          let later := parseFrom fuel (s.drop (F.headerSize + n))
          ⟨(s.take F.headerSize, (s.drop F.headerSize).take n) :: later.frames, later.rest⟩

def parse (s : List β) : Parsed β := F.parseFrom s.length s

def Unfinished (s : List β) : Prop :=
  s.length < F.headerSize ∨
    ∃ n, F.payloadSize (s.take F.headerSize) = some n ∧ s.length < F.headerSize + n

def Refused (s : List β) : Prop :=
  F.headerSize ≤ s.length ∧ F.payloadSize (s.take F.headerSize) = none

def Whole (f : List β × List β) : Prop :=
  f.1.length = F.headerSize ∧ F.payloadSize f.1 = some f.2.length

variable {F} {s t r : List β} {f : List β × List β} {fs : List (List β × List β)}

theorem unfinished_nil : F.Unfinished [] := .inl F.headerSize_pos

theorem Whole.take (h : F.Whole f) (s : List β) : (f.1 ++ f.2 ++ s).take F.headerSize = f.1 := by
  rw [append_assoc, ← h.1, take_left]

theorem Whole.length_pos (h : F.Whole f) : 0 < f.1.length := h.1 ▸ F.headerSize_pos

/-- A stream is unfinished, begins with a header that is refused, or begins with a frame. -/
theorem stream_cases (F : Framing β) (s : List β) :
    F.Unfinished s ∨ F.Refused s ∨ ∃ f t, F.Whole f ∧ s = f.1 ++ f.2 ++ t := by
  by_cases hheader : s.length < F.headerSize
  · exact .inl (.inl hheader)
  cases hsize : F.payloadSize (s.take F.headerSize) with
  | none => exact .inr (.inl ⟨Nat.le_of_not_lt hheader, hsize⟩)
  | some n =>
    by_cases hpayload : s.length < F.headerSize + n
    · exact .inl (.inr ⟨n, hsize, hpayload⟩)
    refine .inr (.inr ⟨(s.take F.headerSize, (s.drop F.headerSize).take n),
      s.drop (F.headerSize + n), ⟨?_, ?_⟩, ?_⟩)
    · rw [length_take]
      omega
    · rw [hsize, length_take, length_drop]
      congr 1
      omega
    · rw [append_assoc, ← drop_drop, take_append_drop, take_append_drop]

theorem parseFrom_unfinished (h : F.Unfinished s) (fuel : Nat) :
    F.parseFrom fuel s = ⟨[], some s⟩ := by
  cases fuel with
  | zero => rfl
  | succ fuel =>
    unfold parseFrom
    rcases h with h | ⟨n, hsize, h⟩
    · rw [if_pos h]
    by_cases hheader : s.length < F.headerSize
    · rw [if_pos hheader]
    · rw [if_neg hheader, hsize]
      exact if_pos h

theorem parseFrom_refused (h : F.Refused s) (fuel : Nat) :
    F.parseFrom (fuel + 1) s = ⟨[], none⟩ := by
  unfold parseFrom
  rw [if_neg (Nat.not_lt.mpr h.1), h.2]

theorem parseFrom_frame (h : F.Whole f) (fuel : Nat) (s : List β) :
    F.parseFrom (fuel + 1) (f.1 ++ f.2 ++ s) =
      ⟨f :: (F.parseFrom fuel s).frames, (F.parseFrom fuel s).rest⟩ := by
  have hdrop : (f.1 ++ f.2 ++ s).drop F.headerSize = f.2 ++ s := by
    rw [append_assoc, ← h.1, drop_left]
  have hlater : (f.1 ++ f.2 ++ s).drop (F.headerSize + f.2.length) = s := by
    rw [← drop_drop, hdrop, drop_left]
  have hlong : F.headerSize + f.2.length ≤ (f.1 ++ f.2 ++ s).length := by
    rw [← h.1, length_append, length_append]
    omega
  rw [parseFrom, if_neg (by omega), h.take, h.2]
  dsimp only
  rw [if_neg (by omega), hdrop, hlater, take_left]

theorem parseFrom_eq_parse {fuel : Nat} (hfuel : s.length ≤ fuel) :
    F.parseFrom fuel s = F.parse s := by
  induction fuel using Nat.strongRecOn generalizing s with
  | ind fuel ih =>
    unfold parse
    rcases stream_cases F s with h | h | ⟨f, t, hf, rfl⟩
    · rw [parseFrom_unfinished h, parseFrom_unfinished h]
    · have hpos : 0 < s.length := Nat.lt_of_lt_of_le F.headerSize_pos h.1
      obtain ⟨k, rfl⟩ : ∃ k, fuel = k + 1 := ⟨fuel - 1, by omega⟩
      obtain ⟨l, hl⟩ : ∃ l, s.length = l + 1 := ⟨s.length - 1, by omega⟩
      rw [hl, parseFrom_refused h, parseFrom_refused h]
    have hpos := hf.length_pos
    have hlen : (f.1 ++ f.2 ++ t).length = f.1.length + f.2.length + t.length := by
      rw [length_append, length_append]
    obtain ⟨k, rfl⟩ : ∃ k, fuel = k + 1 := ⟨fuel - 1, by omega⟩
    obtain ⟨l, hl⟩ : ∃ l, (f.1 ++ f.2 ++ t).length = l + 1 :=
      ⟨(f.1 ++ f.2 ++ t).length - 1, by omega⟩
    rw [hl, parseFrom_frame hf, parseFrom_frame hf, ih k (by omega) (by omega),
      ih l (by omega) (by omega)]

theorem parse_unfinished (h : F.Unfinished s) : F.parse s = ⟨[], some s⟩ :=
  parseFrom_unfinished h _

theorem parse_refused (h : F.Refused s) : F.parse s = ⟨[], none⟩ := by
  rw [← parseFrom_eq_parse (Nat.le_succ s.length)]
  exact parseFrom_refused h _

theorem parse_frame (h : F.Whole f) (s : List β) :
    F.parse (f.1 ++ f.2 ++ s) = ⟨f :: (F.parse s).frames, (F.parse s).rest⟩ := by
  have hlen : s.length ≤ (f.1 ++ f.2 ++ s).length := by
    rw [length_append]
    omega
  rw [← parseFrom_eq_parse (Nat.le_succ (f.1 ++ f.2 ++ s).length), parseFrom_frame h,
    parseFrom_eq_parse hlen]

theorem parse_nil : F.parse [] = ⟨[], some []⟩ := parse_unfinished unfinished_nil

/-- **Induction over the frames of a stream.** -/
theorem parse_induct {P : List β → Prop} (unfinished : ∀ s, F.Unfinished s → P s)
    (refused : ∀ s, F.Refused s → P s)
    (frame : ∀ f s, F.Whole f → P s → P (f.1 ++ f.2 ++ s)) (s : List β) : P s := by
  induction hlen : s.length using Nat.strongRecOn generalizing s with
  | ind n ih =>
    rcases stream_cases F s with h | h | ⟨f, t, hf, rfl⟩
    · exact unfinished s h
    · exact refused s h
    have hpos := hf.length_pos
    refine frame f t hf (ih t.length ?_ t rfl)
    rw [length_append, length_append] at hlen
    omega

theorem Refused.append (h : F.Refused s) (t : List β) : F.Refused (s ++ t) := by
  refine ⟨?_, ?_⟩
  · rw [length_append]
    exact Nat.le_trans h.1 (Nat.le_add_right _ _)
  · rw [take_append_of_le_length h.1]
    exact h.2

/-- **Cutting a stream.** The frames of the first piece, and those of its rest with the second
piece. -/
theorem parse_append (h : F.parse s = ⟨fs, some r⟩) (t : List β) :
    F.parse (s ++ t) = ⟨fs ++ (F.parse (r ++ t)).frames, (F.parse (r ++ t)).rest⟩ := by
  induction s using F.parse_induct generalizing fs with
  | unfinished s hs =>
    rw [parse_unfinished hs] at h
    cases h
    rfl
  | refused s hs =>
    rw [parse_refused hs] at h
    cases h
  | frame f s hf ih =>
    rw [parse_frame hf] at h
    obtain ⟨rfl, hrest⟩ := Parsed.mk.inj h
    have hs : F.parse s = ⟨(F.parse s).frames, some r⟩ := by rw [← hrest]
    rw [append_assoc, parse_frame hf, ih hs]
    rfl

theorem parse_append_refused (h : (F.parse s).rest = none) (t : List β) :
    F.parse (s ++ t) = F.parse s := by
  induction s using F.parse_induct with
  | unfinished s hs =>
    rw [parse_unfinished hs] at h
    cases h
  | refused s hs => rw [parse_refused hs, parse_refused (hs.append t)]
  | frame f s hf ih =>
    rw [parse_frame hf] at h
    rw [append_assoc, parse_frame hf, parse_frame hf, ih h]

theorem frames_isPrefix (F : Framing β) (s t : List β) :
    (F.parse s).frames <+: (F.parse (s ++ t)).frames := by
  rcases hs : F.parse s with ⟨_, rest⟩
  cases rest with
  | none =>
    have hsame : F.parse (s ++ t) = F.parse s := parse_append_refused (by rw [hs]) t
    exact ⟨[], by rw [append_nil, hsame, hs]⟩
  | some r =>
    rw [parse_append hs t]
    exact prefix_append _ _

end Framing

import HoboNickels.Lib.Framing
import HoboNickels.NetMessages

/-!
# Delivery of messages

What reaches `ProcessMessage` should depend neither on how the stream from a peer is cut into calls
of `ReceiveMsgBytes` nor on when `ProcessMessages` runs. The queue holds the messages of the
received part of the stream that were not yet erased (`receiveMsgBytes_queued`), a pass takes them
off in order (`processFrom_takes`), and so the messages handed over are the first ones of the stream
(`messages_in_order`).

The check of the size runs ahead of that of the magic bytes, so when a message with wrong magic
bytes is followed by one that is too large, it depends on the timing which of the two ends the
connection (`rejected_at_either`).
-/

namespace HoboNickels.NetMessages

open List CMessageHeader Peer Framing

variable (net : NetParams)

def messageFraming : Framing UInt8 where
  headerSize := 24
  headerSize_pos := by decide
  payloadSize header :=
    let nMessageSize := (ofBytes header).nMessageSize
    if nMessageSize > MAX_SIZE then none else some nMessageSize

def messages (stream : Bytes) : List (Bytes × Bytes) := (messageFraming.parse stream).frames

def startOk (message : Bytes × Bytes) : Bool :=
  (ofBytes message.1).pchMessageStart = net.pchMessageStart

/-- The command and the payload of a message, unless the header or the checksum is invalid. -/
def content (message : Bytes × Bytes) : Option (Bytes × Bytes) :=
  let hdr := ofBytes message.1
  if hdr.isValid net.pchMessageStart && net.checksum message.2 == hdr.nChecksum then
    some (hdr.getCommand, message.2)
  else none

/-! ## The queue holds the messages of the stream -/

namespace CNetMessage

structure Holds (msg : CNetMessage) (bytes : Bytes) : Prop where
  hdrbuf : msg.hdrbuf.length = 24
  header : msg.in_data = false → bytes.length < 24 ∧ msg.nHdrPos = bytes.length ∧
    msg.hdrbuf.take bytes.length = bytes ∧ msg.vRecv = [] ∧ msg.nDataPos = 0
  data : msg.in_data = true → 24 ≤ bytes.length ∧
    msg.hdr = ofBytes (bytes.take 24) ∧ msg.hdr.nMessageSize ≤ MAX_SIZE ∧
    msg.nDataPos + 24 = bytes.length ∧ msg.nDataPos ≤ msg.vRecv.length ∧
    msg.vRecv.length ≤ msg.hdr.nMessageSize ∧ msg.vRecv.take msg.nDataPos = bytes.drop 24

theorem holds_new (pchMessageStart : Bytes) : (new pchMessageStart).Holds [] := by
  refine ⟨rfl, fun _ => ⟨by decide, rfl, rfl, rfl, rfl⟩, nofun⟩

structure IsMessage (msg : CNetMessage) (message : Bytes × Bytes) : Prop where
  complete : msg.complete = true
  hdr : msg.hdr = ofBytes message.1
  vRecv : msg.vRecv = message.2
  size : msg.hdr.nMessageSize = message.2.length

variable {msg : CNetMessage} {bytes pch : Bytes} {pos : Nat}

theorem length_memcpy {buf src : Bytes} (h : pos + src.length ≤ buf.length) :
    (memcpy buf pos src).length = buf.length := by
  unfold memcpy
  simp only [length_append, length_take, length_drop]
  omega

theorem take_memcpy {buf src : Bytes} (h : pos ≤ buf.length) :
    (memcpy buf pos src).take (pos + src.length) = buf.take pos ++ src := by
  have hlen : (buf.take pos ++ src).length = pos + src.length := by
    rw [length_append, length_take, Nat.min_eq_left h]
  rw [memcpy, ← hlen, take_left]

theorem length_resize (buf : Bytes) (n : Nat) : (resize buf n).length = n := by
  unfold resize
  simp only [length_append, length_take, length_replicate]
  omega

theorem take_resize {buf : Bytes} {n : Nat} (h : pos ≤ buf.length) (hn : pos ≤ n) :
    (resize buf n).take pos = buf.take pos := by
  have hlen : pos ≤ (buf.take n).length := by
    rw [length_take]
    omega
  rw [resize, take_append_of_le_length hlen, take_take, Nat.min_eq_left hn]

section

variable (h : msg.Holds bytes)
include h

theorem Holds.hdrbuf_memcpy (hin : msg.in_data = false) {src : Bytes}
    (hsrc : bytes.length + src.length ≤ 24) :
    (memcpy msg.hdrbuf msg.nHdrPos src).length = 24 ∧
      (memcpy msg.hdrbuf msg.nHdrPos src).take (bytes ++ src).length = bytes ++ src := by
  obtain ⟨-, hpos, htake, -, -⟩ := h.header hin
  have hbuf := h.hdrbuf
  rw [hpos]
  refine ⟨by rw [length_memcpy (by omega), hbuf], ?_⟩
  rw [length_append, take_memcpy (by omega), htake]

theorem readHeader_holds (hin : msg.in_data = false) (hpch : pch ≠ []) :
    ∃ n msg', 0 < n ∧ n ≤ pch.length ∧
      (msg.readHeader pch = (msg', some n) ∧ msg'.Holds (bytes ++ pch.take n) ∨
        msg.readHeader pch = (msg', none) ∧ messageFraming.Refused (bytes ++ pch.take n)) := by
  obtain ⟨_, _, -, hvRecv, hdata⟩ := h.header hin
  have hne : 0 < pch.length := length_pos_iff.mpr hpch
  obtain ⟨n, hn⟩ : ∃ n, n = min (24 - msg.nHdrPos) pch.length := ⟨_, rfl⟩
  have hsrc : (pch.take n).length = n := by
    rw [length_take]
    omega
  have hlen : (bytes ++ pch.take n).length = bytes.length + n := by
    rw [length_append, hsrc]
  obtain ⟨hbuf, htake⟩ := h.hdrbuf_memcpy hin (by omega : bytes.length + (pch.take n).length ≤ 24)
  unfold readHeader
  dsimp only
  rw [← hn]
  by_cases hshort : msg.nHdrPos + n < 24
  · rw [if_pos hshort]
    refine ⟨n, _, by omega, by omega, .inl ⟨rfl, ⟨hbuf, fun _ => ?_, ?_⟩⟩⟩
    · exact ⟨by omega, by dsimp only; omega, htake, hvRecv, hdata⟩
    · intro htrue
      rw [show msg.in_data = true from htrue] at hin
      cases hin
  · -- the header is complete, and the buffer holds it
    have hfull : (bytes ++ pch.take n).length = 24 := by omega
    have heq : memcpy msg.hdrbuf msg.nHdrPos (pch.take n) = bytes ++ pch.take n := by
      rw [take_of_length_le (by omega)] at htake
      exact htake
    have htake24 : (bytes ++ pch.take n).take 24 = bytes ++ pch.take n :=
      take_of_length_le (by omega)
    rw [if_neg hshort, heq]
    by_cases hsize : (ofBytes (bytes ++ pch.take n)).nMessageSize > MAX_SIZE
    · rw [if_pos hsize]
      refine ⟨n, _, by omega, by omega, .inr ⟨rfl, by rw [hfull]; exact Nat.le_refl 24, ?_⟩⟩
      change (if (ofBytes ((bytes ++ pch.take n).take 24)).nMessageSize > MAX_SIZE
        then none else some _) = none
      rw [htake24, if_pos hsize]
    · rw [if_neg hsize]
      refine ⟨n, _, by omega, by omega, .inl ⟨rfl, ⟨by rw [← heq]; exact hbuf, nofun, fun _ => ?_⟩⟩⟩
      have hdrop : (bytes ++ pch.take n).drop 24 = [] := drop_of_length_le (by omega)
      dsimp only
      rw [htake24, hdrop, hvRecv, hdata]
      exact ⟨by omega, rfl, by omega, by omega, Nat.le_refl 0, Nat.zero_le _, rfl⟩

theorem readData_holds (hin : msg.in_data = true) (hopen : msg.complete = false) (hpch : pch ≠ []) :
    ∃ n msg', 0 < n ∧ n ≤ pch.length ∧
      msg.readData pch = (msg', some n) ∧ msg'.Holds (bytes ++ pch.take n) := by
  obtain ⟨hle, hhdr, hmax, _, hbuf, hsize, htake⟩ := h.data hin
  have hne : 0 < pch.length := length_pos_iff.mpr hpch
  have hleft : msg.nDataPos < msg.hdr.nMessageSize := by
    have hdiff : msg.hdr.nMessageSize ≠ msg.nDataPos := by
      intro heq
      rw [complete, hin, heq, beq_self_eq_true] at hopen
      cases hopen
    omega
  obtain ⟨n, hn⟩ : ∃ n, n = min (msg.hdr.nMessageSize - msg.nDataPos) pch.length := ⟨_, rfl⟩
  have hsrc : (pch.take n).length = n := by
    rw [length_take]
    omega
  have hlen : (bytes ++ pch.take n).length = bytes.length + n := by
    rw [length_append, hsrc]
  -- the payload after it is made large enough
  obtain ⟨buf, hbufdef⟩ : ∃ buf, buf = if msg.vRecv.length < msg.nDataPos + n then
      resize msg.vRecv (min msg.hdr.nMessageSize (msg.nDataPos + n + 256 * 1024))
      else msg.vRecv := ⟨_, rfl⟩
  have hroom : msg.nDataPos + n ≤ buf.length ∧ buf.length ≤ msg.hdr.nMessageSize ∧
      buf.take msg.nDataPos = bytes.drop 24 := by
    rw [hbufdef]
    split
    · rw [length_resize, take_resize hbuf (by omega)]
      exact ⟨by omega, by omega, htake⟩
    · exact ⟨by omega, hsize, htake⟩
  refine ⟨n, ⟨msg.in_data, msg.hdrbuf, msg.hdr, msg.nHdrPos, memcpy buf msg.nDataPos (pch.take n),
    msg.nDataPos + n⟩, by omega, by omega, ?_, h.hdrbuf, ?_, fun _ => ?_⟩
  · unfold readData
    dsimp only
    rw [← hn, ← hbufdef]
  · intro hfalse
    rw [show msg.in_data = false from hfalse] at hin
    cases hin
  dsimp only
  have hnew : (memcpy buf msg.nDataPos (pch.take n)).take (msg.nDataPos + (pch.take n).length) =
      buf.take msg.nDataPos ++ pch.take n := take_memcpy (by omega)
  rw [hsrc] at hnew
  rw [length_memcpy (by omega), hnew, hroom.2.2, take_append_of_le_length hle,
    drop_append_of_le_length hle]
  exact ⟨by omega, hhdr, hmax, by omega, hroom.1, hroom.2.1, rfl⟩

theorem Holds.cases : msg.complete = false ∧ messageFraming.Unfinished bytes ∨
      ∃ message, msg.IsMessage message ∧ messageFraming.Whole message ∧
        bytes = message.1 ++ message.2 := by
  cases hin : msg.in_data with
  | false =>
    refine .inl ⟨?_, .inl (h.header hin).1⟩
    rw [complete, hin, Bool.false_and]
  | true =>
    obtain ⟨hle, hhdr, _, _, _, _, htake⟩ := h.data hin
    have hpayload : messageFraming.payloadSize (bytes.take 24) = some msg.hdr.nMessageSize := by
      change (if (ofBytes (bytes.take 24)).nMessageSize > MAX_SIZE then none
        else some _) = _
      rw [← hhdr, if_neg (by omega)]
    by_cases hfull : msg.hdr.nMessageSize = msg.nDataPos
    · have hvRecv : msg.vRecv = bytes.drop 24 := by
        rw [← htake, take_of_length_le (by omega)]
      have hlen : (bytes.drop 24).length = msg.hdr.nMessageSize := by
        rw [length_drop]
        omega
      refine .inr ⟨(bytes.take 24, bytes.drop 24), ⟨?_, hhdr, hvRecv, hlen.symm⟩, ⟨?_, ?_⟩, ?_⟩
      · rw [complete, hin, hfull, beq_self_eq_true, Bool.true_and]
      · exact length_take_of_le hle
      · rw [hlen]
        exact hpayload
      · exact (take_append_drop 24 bytes).symm
    · refine .inl ⟨?_, .inr ⟨_, hpayload, ?_⟩⟩
      · rw [complete, hin]
        exact beq_false_of_ne hfull
      · change bytes.length < 24 + _
        omega

theorem Holds.unfinished (hopen : msg.complete = false) : messageFraming.Unfinished bytes := by
  rcases h.cases with ⟨-, hun⟩ | ⟨_, hmsg, -⟩
  · exact hun
  · rw [hmsg.complete] at hopen
    cases hopen

end

end CNetMessage

open CNetMessage

def Queued (fs : List (Bytes × Bytes)) (r : Bytes) (vRecvMsg : List CNetMessage) : Prop :=
  ∃ front, List.Forall₂ IsMessage front fs ∧
    (r = [] ∧ vRecvMsg = front ∨
      r ≠ [] ∧ ∃ msg, msg.complete = false ∧ msg.Holds r ∧ vRecvMsg = front ++ [msg])

variable {net} {fs : List (Bytes × Bytes)} {r pch : Bytes} {vRecvMsg : List CNetMessage}

variable {msg : CNetMessage} {m : Bytes × Bytes}

theorem complete_of_mem {front : List CNetMessage}
    (h : Forall₂ IsMessage front fs) (hmem : msg ∈ front) : msg.complete = true := by
  induction h with
  | nil => exact nomatch hmem
  | cons hmsg _ ih =>
    rcases mem_cons.mp hmem with rfl | hmem
    · exact hmsg.complete
    · exact ih hmem

theorem openMessage_queued (net : NetParams) (h : Queued fs r vRecvMsg) :
    ∃ front msg, openMessage net vRecvMsg = (front, msg) ∧ Forall₂ IsMessage front fs ∧
      msg.complete = false ∧ msg.Holds r := by
  obtain ⟨front, hfront, ⟨rfl, rfl⟩ | ⟨-, msg, hopen, hholds, rfl⟩⟩ := h
  · refine ⟨vRecvMsg, .new net.pchMessageStart, ?_, hfront, rfl, holds_new _⟩
    unfold openMessage
    split
    · rfl
    next msg hlast => rw [if_pos (complete_of_mem hfront (mem_of_getLast? hlast))]
  · refine ⟨front, msg, ?_, hfront, hopen, hholds⟩
    unfold openMessage
    rw [getLast?_concat]
    dsimp only
    rw [hopen, dropLast_concat]
    rfl

def Outcome (fs : List (Bytes × Bytes)) (parsed : Parsed UInt8)
    (result : List CNetMessage × Bool) : Prop :=
  match parsed.rest with
  | some r => result.2 = true ∧ Queued (fs ++ parsed.frames) r result.1
  | none => result.2 = false ∧ ∃ front msg, result.1 = front ++ [msg] ∧
      List.Forall₂ IsMessage front (fs ++ parsed.frames)

theorem Outcome.cons {message : Bytes × Bytes} {parsed : Parsed UInt8}
    {result : List CNetMessage × Bool} (h : Outcome (fs ++ [message]) parsed result) :
    Outcome fs ⟨message :: parsed.frames, parsed.rest⟩ result := by
  unfold Outcome at h ⊢
  rwa [append_assoc] at h

theorem receive_step (hholds : msg.Holds r) (hopen : msg.complete = false) (hpch : pch ≠ []) :
    ∃ n msg', 0 < n ∧ n ≤ pch.length ∧
      ((if msg.in_data then msg.readData pch else msg.readHeader pch) = (msg', some n) ∧
          msg'.Holds (r ++ pch.take n) ∨
        (if msg.in_data then msg.readData pch else msg.readHeader pch) = (msg', none) ∧
          messageFraming.Refused (r ++ pch.take n)) := by
  cases hin : msg.in_data with
  | true =>
    obtain ⟨n, msg', hpos, hle, hread, hholds'⟩ := readData_holds hholds hin hopen hpch
    exact ⟨n, msg', hpos, hle, .inl ⟨hread, hholds'⟩⟩
  | false => exact readHeader_holds hholds hin hpch

theorem receiveFrom_nil (fuel : Nat) (h : Queued fs r vRecvMsg) :
    Outcome fs (messageFraming.parse (r ++ [])) (receiveFrom net fuel vRecvMsg []) := by
  have hun : messageFraming.Unfinished r := by
    obtain ⟨_, -, ⟨rfl, -⟩ | ⟨-, _, hopen, hholds, -⟩⟩ := h
    · exact unfinished_nil
    · exact hholds.unfinished hopen
  have hdone : receiveFrom net fuel vRecvMsg [] = (vRecvMsg, true) := by
    cases fuel <;> rfl
  rw [append_nil, parse_unfinished hun, hdone]
  refine ⟨rfl, ?_⟩
  rwa [append_nil]

theorem receiveFrom_queued {fuel : Nat} (hfuel : pch.length ≤ fuel) (h : Queued fs r vRecvMsg) :
    Outcome fs (messageFraming.parse (r ++ pch)) (receiveFrom net fuel vRecvMsg pch) := by
  induction fuel generalizing fs r pch vRecvMsg with
  | zero =>
    obtain rfl := length_eq_zero_iff.mp (Nat.le_zero.mp hfuel)
    exact receiveFrom_nil 0 h
  | succ fuel ih =>
    by_cases hpch : pch = []
    · rw [hpch]
      exact receiveFrom_nil (fuel + 1) h
    obtain ⟨front, _, hback, hfront, hopen, hholds⟩ := openMessage_queued net h
    obtain ⟨n, msg', _, _, hstep⟩ := receive_step hholds hopen hpch
    have hsplit : r ++ pch = r ++ pch.take n ++ pch.drop n := by
      rw [append_assoc, take_append_drop]
    have hrest : (pch.drop n).length ≤ fuel := by
      rw [length_drop]
      omega
    have hempty : pch.isEmpty = false := by
      rw [isEmpty_eq_false_iff]
      exact hpch
    rw [hsplit]
    unfold receiveFrom
    simp only [hempty, hback, Bool.false_eq_true, if_false]
    rcases hstep with ⟨hread, hholds'⟩ | ⟨hread, hrefused⟩
    · simp only [hread]
      rcases hholds'.cases with ⟨hopen', -⟩ | ⟨_, hmsg, hwhole, hbytes⟩
      · -- the message is still incomplete
        refine ih hrest ⟨front, hfront, .inr ⟨?_, msg', hopen', hholds', rfl⟩⟩
        intro hnil
        have htake := (append_eq_nil_iff.mp hnil).2
        have hlen := congrArg length htake
        rw [length_take, length_nil] at hlen
        omega
      · -- the message is complete, and the next byte begins a new one
        rw [hbytes, parse_frame hwhole]
        refine Outcome.cons (ih hrest ⟨front ++ [msg'], ?_, .inl ⟨rfl, rfl⟩⟩)
        exact rel_append hfront (.cons hmsg .nil)
    · simp only [hread]
      rw [parse_refused (hrefused.append _)]
      refine ⟨rfl, front, msg', rfl, ?_⟩
      rwa [append_nil]

theorem receiveMsgBytes_queued (h : Queued fs r vRecvMsg) (pch : Bytes) :
    Outcome fs (messageFraming.parse (r ++ pch)) (receiveMsgBytes net vRecvMsg pch) :=
  receiveFrom_queued (Nat.le_refl _) h

/-! ## A pass takes messages off in order -/

/-- A pass has erased the first `k` messages: their content was handed over, and they begin with the
magic bytes, except for the last if the pass failed. -/
structure Taken (net : NetParams) (fs : List (Bytes × Bytes)) (k : Nat)
    (handed : List (Bytes × Bytes)) (fOk : Bool) : Prop where
  le : k ≤ fs.length
  content : handed = (fs.take k).filterMap (content net)
  ok : fOk = true → ∀ m ∈ fs.take k, startOk net m = true
  failed : fOk = false → ∃ j m, k = j + 1 ∧ fs[j]? = some m ∧ startOk net m = false ∧
    ∀ m' ∈ fs.take j, startOk net m' = true

theorem Taken.zero (net : NetParams) (fs : List (Bytes × Bytes)) : Taken net fs 0 [] true :=
  ⟨Nat.zero_le _, rfl, fun _ _ hmem => (nomatch hmem), nofun⟩

theorem Taken.bad (hstart : startOk net m = false)
    (hcontent : NetMessages.content net m = none) : Taken net (m :: fs) 1 [] false := by
  refine ⟨Nat.succ_le_succ (Nat.zero_le _), ?_, nofun, fun _ => ⟨0, m, rfl, rfl, hstart, ?_⟩⟩
  · rw [take_succ_cons, filterMap_cons, hcontent]
    rfl
  · exact fun _ hmem => nomatch hmem

theorem Taken.cons {k : Nat} {handed : List (Bytes × Bytes)} {fOk : Bool}
    (hstart : startOk net m = true) (h : Taken net fs k handed fOk) :
    Taken net (m :: fs) (k + 1) ((NetMessages.content net m).toList ++ handed) fOk := by
  refine ⟨Nat.succ_le_succ h.le, ?_, fun hok m' hmem => ?_, fun hfailed => ?_⟩
  · rw [take_succ_cons, filterMap_cons, h.content]
    cases NetMessages.content net m <;> rfl
  · rcases mem_cons.mp hmem with rfl | hmem
    · exact hstart
    · exact h.ok hok m' hmem
  obtain ⟨j, bad, rfl, hget, hbad, hbefore⟩ := h.failed hfailed
  refine ⟨j + 1, bad, rfl, hget, hbad, fun m' hmem => ?_⟩
  rcases mem_cons.mp hmem with rfl | hmem
  · exact hstart
  · exact hbefore m' hmem

theorem startOk_eq (h : msg.IsMessage m) :
    startOk net m = decide (msg.hdr.pchMessageStart = net.pchMessageStart) := by
  rw [startOk, h.hdr]

theorem content_eq (net : NetParams) (h : msg.IsMessage m) : content net m =
      if msg.hdr.isValid net.pchMessageStart &&
          net.checksum (msg.vRecv.take msg.hdr.nMessageSize) == msg.hdr.nChecksum then
        some (msg.hdr.getCommand, msg.vRecv)
      else none := by
  rw [content, h.vRecv, h.size, take_of_length_le (Nat.le_refl _), h.hdr]

theorem isValid_of_badStart {hdr : CMessageHeader} {pchMessageStart : Bytes}
    (h : hdr.pchMessageStart ≠ pchMessageStart) : hdr.isValid pchMessageStart = false := by
  rw [isValid, decide_eq_false h, Bool.false_and, Bool.false_and]

theorem processFrom_takes {calls : PassCalls} {i : Nat} {front tail : List CNetMessage}
    (hfront : Forall₂ IsMessage front fs) (htail : ∀ msg ∈ tail, msg.complete = false) :
    ∃ k, (processFrom net calls i (front ++ tail)).vRecvMsg = front.drop k ++ tail ∧
      Taken net fs k (processFrom net calls i (front ++ tail)).handed
        (processFrom net calls i (front ++ tail)).fOk := by
  induction hfront generalizing i with
  | nil =>
    refine ⟨0, ?_⟩
    cases tail with
    | nil => exact ⟨rfl, Taken.zero net _⟩
    | cons msg rest =>
      have hopen := htail msg mem_cons_self
      rw [nil_append, processFrom, hopen, Bool.not_false, Bool.or_true, if_pos rfl]
      exact ⟨rfl, Taken.zero net _⟩
  | @cons msg m front fs hmsg _ ih =>
    obtain ⟨k, hqueue, htaken⟩ := ih (i := i + 1)
    have hcontent := content_eq net hmsg
    rw [cons_append, processFrom]
    by_cases hstop : (calls.fSendFull i || !msg.complete) = true
    · rw [if_pos hstop]
      exact ⟨0, rfl, Taken.zero net _⟩
    rw [if_neg hstop]
    by_cases hstart : msg.hdr.pchMessageStart ≠ net.pchMessageStart
    · rw [if_pos hstart]
      refine ⟨1, rfl, Taken.bad ?_ ?_⟩
      · rw [startOk_eq hmsg, decide_eq_false hstart]
      · rw [hcontent, isValid_of_badStart hstart, Bool.false_and]
        rfl
    rw [if_neg hstart]
    have hstartOk : startOk net m = true := by
      rw [startOk_eq hmsg, decide_eq_true (not_not.mp hstart)]
    have hnext := htaken.cons hstartOk
    by_cases hvalid : msg.hdr.isValid net.pchMessageStart = true
    · rw [hvalid, Bool.not_true]
      rw [hvalid, Bool.true_and] at hcontent
      by_cases hsum : net.checksum (msg.vRecv.take msg.hdr.nMessageSize) = msg.hdr.nChecksum
      · rw [if_neg (not_not.mpr hsum)]
        rw [hsum, beq_self_eq_true, if_pos rfl] at hcontent
        rw [hcontent] at hnext
        by_cases hslice : calls.fSliceOver i = true
        · rw [if_pos hslice]
          have hone := (Taken.zero net fs).cons hstartOk
          rw [hcontent] at hone
          exact ⟨1, rfl, hone⟩
        · rw [if_neg hslice]
          exact ⟨k + 1, hqueue, hnext⟩
      · rw [if_pos hsum]
        rw [beq_false_of_ne hsum] at hcontent
        rw [hcontent] at hnext
        exact ⟨k + 1, hqueue, hnext⟩
    · have hinvalid := Bool.eq_false_of_not_eq_true hvalid
      rw [hinvalid, Bool.not_false, if_pos rfl]
      rw [hinvalid, Bool.false_and, if_neg Bool.false_ne_true] at hcontent
      rw [hcontent] at hnext
      exact ⟨k + 1, hqueue, hnext⟩

/-! ## Runs -/

structure Sound (net : NetParams) (bytes : Bytes) (s : Peer) : Prop where
  le : s.nErased ≤ (messages bytes).length
  handed : s.handed = ((messages bytes).take s.nErased).filterMap (content net)
  live : s.rejected = none → (∀ m ∈ (messages bytes).take s.nErased, startOk net m = true) ∧
    ∃ r, (messageFraming.parse bytes).rest = some r ∧
      Queued ((messages bytes).drop s.nErased) r s.vRecvMsg
  tooLarge : ∀ n, s.rejected = some (.tooLarge n) →
    (messageFraming.parse bytes).rest = none ∧ n = (messages bytes).length
  badStart : ∀ n, s.rejected = some (.badStart n) → ∃ m, (messages bytes)[n]? = some m ∧
    startOk net m = false ∧ ∀ m' ∈ (messages bytes).take n, startOk net m' = true

theorem sound_empty (net : NetParams) : Sound net [] empty := by
  have hnil : messageFraming.parse [] = ⟨[], some []⟩ := parse_nil
  refine ⟨Nat.zero_le _, rfl, fun _ => ⟨?_, [], by rw [hnil], ?_⟩, nofun, nofun⟩
  · exact fun _ hmem => nomatch hmem
  · exact ⟨[], .nil, .inl ⟨rfl, rfl⟩⟩

theorem take_messages {bytes : Bytes} {k : Nat} (h : k ≤ (messages bytes).length) (more : Bytes) :
    (messages (bytes ++ more)).take k = (messages bytes).take k := by
  obtain ⟨_, hlater⟩ := frames_isPrefix messageFraming bytes more
  rw [messages, ← hlater]
  exact take_append_of_le_length h

variable {bytes : Bytes} {s : Peer}

theorem length_le_messages (bytes more : Bytes) :
    (messages bytes).length ≤ (messages (bytes ++ more)).length :=
  (frames_isPrefix messageFraming bytes more).length_le

theorem Sound.more (h : Sound net bytes s) (hrej : s.rejected ≠ none) (more : Bytes) :
    Sound net (bytes ++ more) s := by
  refine ⟨Nat.le_trans h.le (length_le_messages bytes more), ?_, fun hnone => absurd hnone hrej,
    fun n hn => ?_, fun n hn => ?_⟩
  · rw [take_messages h.le, h.handed]
  · obtain ⟨hrest, hlen⟩ := h.tooLarge n hn
    rw [messages, parse_append_refused hrest more]
    exact ⟨hrest, hlen⟩
  obtain ⟨m, hget, hbad, _⟩ := h.badStart n hn
  obtain ⟨hlt, -⟩ := List.getElem?_eq_some_iff.mp hget
  obtain ⟨_, hlater⟩ := frames_isPrefix messageFraming bytes more
  refine ⟨m, ?_, hbad, ?_⟩
  · rw [messages, ← hlater]
    exact List.getElem?_append_left hlt ▸ hget
  · rwa [take_messages (Nat.le_of_lt hlt)]

theorem Sound.receive (h : Sound net bytes s) (hlive : s.rejected = none) (pch : Bytes) :
    Sound net (bytes ++ pch) (s.step net (.receive pch)) := by
  obtain ⟨_, r, hrest, hqueued⟩ := h.live hlive
  have hparse : messageFraming.parse bytes = ⟨messages bytes, some r⟩ := by
    rw [messages, ← hrest]
  have happend := parse_append hparse pch
  have hdrop : (messages bytes).drop s.nErased ++ (messageFraming.parse (r ++ pch)).frames =
      (messages (bytes ++ pch)).drop s.nErased := by
    rw [messages, messages, happend, drop_append_of_le_length h.le, messages]
  have hle := Nat.le_trans h.le (length_le_messages bytes pch)
  have hhanded : s.handed = ((messages (bytes ++ pch)).take s.nErased).filterMap (content net) := by
    rw [take_messages h.le, h.handed]
  have houtcome : Outcome _ _ (receiveMsgBytes net s.vRecvMsg pch) :=
    receiveMsgBytes_queued hqueued pch
  simp only [step, hlive]
  unfold Outcome at houtcome
  cases hend : (messageFraming.parse (r ++ pch)).rest with
  | some r' =>
    rw [hend] at houtcome
    obtain ⟨hok, _⟩ := houtcome
    rw [if_pos hok]
    refine ⟨hle, hhanded, fun _ => ⟨?_, r', ?_, ?_⟩, nofun, nofun⟩
    · rwa [take_messages h.le]
    · rw [happend]
      exact hend
    · rwa [← hdrop]
  | none =>
    rw [hend] at houtcome
    obtain ⟨hok, _, _, hqueue, hfront⟩ := houtcome
    rw [hok, hqueue, length_append, length_singleton]
    refine ⟨hle, hhanded, nofun, ?_, nofun⟩
    rintro n hn
    cases hn
    refine ⟨by rw [happend]; exact hend, ?_⟩
    have hlen := hfront.length_eq
    rw [hdrop, length_drop] at hlen
    omega

theorem Queued.split (h : Queued fs r vRecvMsg) :
    ∃ front tail, vRecvMsg = front ++ tail ∧ Forall₂ IsMessage front fs ∧
      (∀ msg ∈ tail, msg.complete = false) ∧
      ∀ k ≤ front.length, Queued (fs.drop k) r (front.drop k ++ tail) := by
  obtain ⟨front, hfront, ⟨rfl, rfl⟩ | ⟨hne, msg, hopen, hholds, rfl⟩⟩ := h
  · refine ⟨vRecvMsg, [], (append_nil _).symm, hfront, fun _ hmem => (nomatch hmem), ?_⟩
    intro k _
    rw [append_nil]
    exact ⟨vRecvMsg.drop k, forall₂_drop k hfront, .inl ⟨rfl, rfl⟩⟩
  refine ⟨front, [msg], rfl, hfront, fun msg' hmem => ?_, fun k _ => ?_⟩
  · rw [mem_singleton.mp hmem]
    exact hopen
  · exact ⟨front.drop k, forall₂_drop k hfront, .inr ⟨hne, msg, hopen, hholds, rfl⟩⟩

theorem Sound.process (h : Sound net bytes s) (hlive : s.rejected = none) (calls : PassCalls) :
    Sound net bytes (s.step net (.process calls)) := by
  obtain ⟨hstart, r, hrest, hqueued⟩ := h.live hlive
  obtain ⟨front, tail, hqueue, hfront, htail, hkept⟩ := hqueued.split
  have htakes : ∃ k, (processMessages net calls (front ++ tail)).vRecvMsg = front.drop k ++ tail ∧
      Taken net _ k (processMessages net calls (front ++ tail)).handed
        (processMessages net calls (front ++ tail)).fOk := processFrom_takes hfront htail
  simp only [step, hlive, hqueue]
  generalize processMessages net calls (front ++ tail) = result at htakes
  obtain ⟨k, hleft, htaken⟩ := htakes
  have hlen := hfront.length_eq
  have hk := htaken.le
  have herased : (front ++ tail).length - result.vRecvMsg.length = k := by
    rw [hleft, length_append, length_append, length_drop]
    omega
  rw [herased]
  have hle : s.nErased + k ≤ (messages bytes).length := by
    have := h.le
    rw [length_drop] at hk
    omega
  have hhanded : s.handed ++ result.handed =
      ((messages bytes).take (s.nErased + k)).filterMap (content net) := by
    rw [h.handed, htaken.content, take_add, filterMap_append]
  cases hok : result.fOk with
  | true =>
    rw [if_pos rfl]
    refine ⟨hle, hhanded, fun _ => ⟨fun m hmem => ?_, r, hrest, ?_⟩, nofun, nofun⟩
    · rw [take_add] at hmem
      rcases mem_append.mp hmem with hmem | hmem
      · exact hstart m hmem
      · exact htaken.ok hok m hmem
    · rw [hleft, ← drop_drop]
      exact hkept k (by omega)
  | false =>
    refine ⟨hle, hhanded, nofun, nofun, ?_⟩
    rintro n hn
    cases hn
    obtain ⟨j, m, rfl, hget, hbad, hbefore⟩ := htaken.failed hok
    refine ⟨m, ?_, hbad, fun m' hmem => ?_⟩
    · rw [getElem?_drop] at hget
      exact hget
    have hmem' : m' ∈ (messages bytes).take (s.nErased + j) := hmem
    rw [take_add] at hmem'
    rcases mem_append.mp hmem' with hmem' | hmem'
    · exact hstart m' hmem'
    · exact hbefore m' hmem'

theorem Sound.step (h : Sound net bytes s) (event : NetEvent) :
    Sound net (bytes ++ event.bytes) (s.step net event) := by
  cases hrej : s.rejected with
  | some rejection =>
    have hstep : s.step net event = s := by
      unfold Peer.step
      rw [hrej]
    rw [hstep]
    refine h.more ?_ _
    rw [hrej]
    exact nofun
  | none =>
    cases event with
    | receive pch => exact h.receive hrej pch
    | process calls =>
      rw [NetEvent.bytes, append_nil]
      exact h.process hrej calls

theorem sound_run (net : NetParams) (events : List NetEvent) :
    Sound net (received events) (run net events) := by
  suffices hrun : ∀ events bytes s, Sound net bytes s →
      Sound net (bytes ++ received events) (events.foldl (step net) s) from
    hrun events [] empty (sound_empty net)
  intro events
  induction events with
  | nil =>
    intro bytes s h
    rwa [received, flatMap_nil, append_nil]
  | cons event events ih =>
    intro bytes s h
    have hnext := ih _ _ (h.step event)
    rwa [append_assoc, received] at hnext

theorem Sound.idle (h : Sound net bytes s) (hlive : s.rejected = none)
    (hidle : ∀ msg ∈ s.vRecvMsg, msg.complete = false) :
    s.handed = (messages bytes).filterMap (content net) ∧
      ∀ m ∈ messages bytes, startOk net m = true := by
  obtain ⟨hstart, r, -, hqueued⟩ := h.live hlive
  obtain ⟨front, tail, hqueue, hfront, -, -⟩ := hqueued.split
  have hnil : front = [] := by
    refine eq_nil_iff_forall_not_mem.mpr fun msg hmem => ?_
    have hcomplete := complete_of_mem hfront hmem
    rw [hidle msg (hqueue ▸ mem_append_left tail hmem)] at hcomplete
    cases hcomplete
  have hlen := hfront.length_eq
  rw [hnil, length_nil, length_drop] at hlen
  have hall : (messages bytes).take s.nErased = messages bytes := take_of_length_le (by omega)
  rw [h.handed, hall]
  exact ⟨rfl, hall ▸ hstart⟩

def firstBadStart (net : NetParams) (stream : Bytes) : Nat :=
  (messages stream).findIdx fun m => !startOk net m

theorem eq_firstBadStart {stream : Bytes} {n : Nat}
    (hget : (messages stream)[n]? = some m) (hbad : startOk net m = false)
    (hbefore : ∀ m' ∈ (messages stream).take n, startOk net m' = true) :
    n = firstBadStart net stream ∧ n < (messages stream).length := by
  obtain ⟨hlt, rfl⟩ := List.getElem?_eq_some_iff.mp hget
  refine ⟨((List.findIdx_eq hlt).mpr ⟨by rw [hbad]; rfl, fun j hj => ?_⟩).symm, hlt⟩
  have hmem : (messages stream)[j] ∈ (messages stream).take n := by
    rw [List.mem_take_iff_getElem]
    exact ⟨j, by omega, rfl⟩
  rw [hbefore _ hmem]
  rfl

theorem rejected_cases {stream : Bytes} {events : List NetEvent} (hcut : received events <+: stream)
    {rejection : Rejection} (hrej : (run net events).rejected = some rejection) :
    rejection = .tooLarge (messages stream).length ∧ (messageFraming.parse stream).rest = none ∨
      rejection = .badStart (firstBadStart net stream) ∧
        firstBadStart net stream < (messages stream).length := by
  obtain ⟨later, rfl⟩ := hcut
  have hsound := (sound_run net events).more (by rw [hrej]; exact nofun) later
  cases rejection with
  | tooLarge n =>
    obtain ⟨hrest, rfl⟩ := hsound.tooLarge n hrej
    exact .inl ⟨rfl, hrest⟩
  | badStart n =>
    obtain ⟨m, hget, hbad, hbefore⟩ := hsound.badStart n hrej
    obtain ⟨rfl, hlt⟩ := eq_firstBadStart hget hbad hbefore
    exact .inr ⟨rfl, hlt⟩

/-- **Delivery depends neither on the cutting nor on the time slices.** In every run, what was
handed over is the content of the first messages of the stream, those with an invalid header or
checksum left out, once and in order; and of all once none waits in an open connection, which has
then met no wrong magic bytes. A header that is refused ends the connection. It ends at the same
message in every run, unless one with wrong magic bytes comes before one that is too large. -/
theorem messages_in_order (net : NetParams) (stream : Bytes) (events : List NetEvent)
    (hcut : received events <+: stream) :
    (run net events).handed <+: (messages stream).filterMap (content net) ∧
    (run net events).handed =
      ((messages stream).take (run net events).nErased).filterMap (content net) ∧
    ((run net events).rejected = none →
      (messageFraming.parse (received events)).rest ≠ none ∧
      ((∀ msg ∈ (run net events).vRecvMsg, msg.complete = false) →
        (run net events).handed = (messages (received events)).filterMap (content net) ∧
        ∀ m ∈ messages (received events), startOk net m = true)) ∧
    ∀ rejection, (run net events).rejected = some rejection →
      (rejection = .tooLarge (messages stream).length ∧
          (messageFraming.parse stream).rest = none ∨
        rejection = .badStart (firstBadStart net stream) ∧
          firstBadStart net stream < (messages stream).length) ∧
      ∀ events' rejection', received events' <+: stream →
        (run net events').rejected = some rejection' →
        rejection'.index = rejection.index ∨
          (messageFraming.parse stream).rest = none ∧
            firstBadStart net stream < (messages stream).length := by
  have hsound := sound_run net events
  have hhanded : (run net events).handed =
      ((messages stream).take (run net events).nErased).filterMap (content net) := by
    obtain ⟨_, rfl⟩ := hcut
    rw [take_messages hsound.le, hsound.handed]
  refine ⟨?_, hhanded, fun hlive => ⟨?_, hsound.idle hlive⟩, fun rejection hrej => ⟨?_, ?_⟩⟩
  · have hfront := take_prefix (run net events).nErased (messages stream)
    rw [hhanded]
    exact hfront.filterMap _
  · obtain ⟨-, r, hrest, -⟩ := hsound.live hlive
    rw [hrest]
    exact Option.some_ne_none r
  · exact rejected_cases hcut hrej
  intro events' rejection' hcut' hrej'
  rcases rejected_cases hcut hrej with ⟨rfl, hrest⟩ | ⟨rfl, hlt⟩
  · rcases rejected_cases hcut' hrej' with ⟨rfl, -⟩ | ⟨rfl, hlt⟩
    · exact .inl rfl
    · exact .inr ⟨hrest, hlt⟩
  · rcases rejected_cases hcut' hrej' with ⟨rfl, hrest⟩ | ⟨rfl, -⟩
    · exact .inr ⟨hrest, hlt⟩
    · exact .inl rfl

/-! ## Two messages -/

def zeroSums : NetParams := ⟨[0xe4, 0xe8, 0xe9, 0xe5], fun _ => 0⟩

def fullPass : PassCalls := ⟨fun _ => false, fun _ => false⟩

def pingCommand : Bytes := [0x70, 0x69, 0x6e, 0x67, 0, 0, 0, 0, 0, 0, 0, 0]

def ping : Bytes :=
  zeroSums.pchMessageStart ++ pingCommand ++ [8, 0, 0, 0] ++ [0, 0, 0, 0] ++
    [1, 2, 3, 4, 5, 6, 7, 8]

/-- The two messages are received in three pieces, with a pass after each of them that hands over
at most one message. -/
def cutPings : List NetEvent :=
  let pass := NetEvent.process ⟨fun _ => false, fun _ => true⟩
  [.receive (ping.take 10), pass, .receive (ping.drop 10 ++ ping.take 30), pass,
    .receive (ping.drop 30), pass]

theorem messages_in_order_pings :
    received cutPings <+: ping ++ ping ∧ (run zeroSums cutPings).handed.length = 2 ∧
      (run zeroSums cutPings).handed <+:
        (messages (ping ++ ping)).filterMap (content zeroSums) := by
  have hcut : received cutPings <+: ping ++ ping := by decide +kernel
  exact ⟨hcut, by decide +kernel, (messages_in_order zeroSums (ping ++ ping) cutPings hcut).1⟩

def badStartMessage : Bytes := [0, 0, 0, 0] ++ pingCommand ++ [0, 0, 0, 0] ++ [0, 0, 0, 0]

def tooLargeHeader : Bytes :=
  zeroSums.pchMessageStart ++ pingCommand ++ [1, 0, 0, 2] ++ [0, 0, 0, 0]

/-- **A stream that is rejected at either of two messages**: received in one piece at the second,
whose header is refused at once; processed piece by piece at the first. -/
theorem rejected_at_either :
    (run zeroSums [.receive (badStartMessage ++ tooLargeHeader), .process fullPass]).rejected =
        some (.tooLarge 1) ∧
      (run zeroSums
        [.receive badStartMessage, .process fullPass, .receive tooLargeHeader]).rejected =
        some (.badStart 0) ∧
      received [.receive (badStartMessage ++ tooLargeHeader), .process fullPass] =
        received [.receive badStartMessage, .process fullPass, .receive tooLargeHeader] := by
  decide +kernel

end HoboNickels.NetMessages

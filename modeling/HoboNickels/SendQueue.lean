import HoboNickels.NetMessages

/-!
# Sending to a peer

`EndMessage` completes a message and puts it into `vSendMsg`; `SocketSendData` hands the queue to
the socket, which may take any part of what it is offered. `nSendOffset` counts what has left of
the first message and `nSendSize` what the queue holds. A failed `assert` is `none`.
-/

namespace HoboNickels.NetMessages

open List

structure SendQueue where
  vSendMsg : List Bytes
  nSendOffset : Nat
  nSendSize : Nat
  /-- All that the socket has accepted. -/
  sent : Bytes

namespace SendQueue

def new : SendQueue := ⟨[], 0, 0, []⟩

/-- The loop of `SocketSendData` from the message `it` on. `accepts` are the most bytes that the
next calls of `send` take; a call after these takes none. -/
def socketSendFrom : List Bytes → List Nat → Nat → Nat → Bytes → Option SendQueue
  | [], _, nSendOffset, nSendSize, sent =>
    if nSendOffset = 0 ∧ nSendSize = 0 then some ⟨[], nSendOffset, nSendSize, sent⟩ else none
  | data :: rest, accepts, nSendOffset, nSendSize, sent =>
    if data.length ≤ nSendOffset then none
    else
      let nBytes := min (accepts.headD 0) (data.length - nSendOffset)
      if 0 < nBytes then
        let sent := sent ++ (data.drop nSendOffset).take nBytes
        if nSendOffset + nBytes = data.length then
          socketSendFrom rest accepts.tail 0 (nSendSize - data.length) sent
        else some ⟨data :: rest, nSendOffset + nBytes, nSendSize, sent⟩
      else some ⟨data :: rest, nSendOffset, nSendSize, sent⟩

def socketSendData (q : SendQueue) (accepts : List Nat) : Option SendQueue :=
  socketSendFrom q.vSendMsg accepts q.nSendOffset q.nSendSize q.sent

def littleEndian4 (n : Nat) : Bytes := (range 4).map fun i => UInt8.ofNat (n / 256 ^ i)

/-- The message as `EndMessage` completes it, with its size and its checksum. -/
def completed (net : NetParams) (ssSend : Bytes) : Bytes :=
  let ssSend := memcpy ssSend 16 (littleEndian4 (ssSend.length - 24))
  memcpy ssSend 20 (littleEndian4 (net.checksum (ssSend.drop 24)))

/-- `EndMessage`; `fDrop` is the chance of `-dropmessagestest`. -/
def endMessage (q : SendQueue) (net : NetParams) (ssSend : Bytes) (fDrop : Bool)
    (accepts : List Nat) : Option SendQueue :=
  if fDrop || ssSend.length = 0 then some q
  else if ssSend.length < 24 then none
  else
    let data := completed net ssSend
    let q' := { q with
      vSendMsg := q.vSendMsg ++ [data], nSendSize := q.nSendSize + data.length }
    if q.vSendMsg = [] then q'.socketSendData accepts else some q'

/-- The calls on a connection. `PushMessage` writes the header of 24 bytes before the payload. -/
inductive Call where
  | pushMessage (header : Fin 24 → UInt8) (payload : Bytes) (fDrop : Bool) (accepts : List Nat)
  | socketSendData (accepts : List Nat)

def step (net : NetParams) (q : SendQueue) : Call → Option SendQueue
  | .pushMessage header payload fDrop accepts =>
    q.endMessage net (ofFn header ++ payload) fDrop accepts
  | .socketSendData accepts => q.socketSendData accepts

def run (net : NetParams) (calls : List Call) : Option SendQueue := calls.foldlM (step net) new

/-- The messages that the calls queue, in order. -/
def queued (net : NetParams) : List Call → List Bytes
  | [] => []
  | .pushMessage header payload fDrop _ :: rest =>
    if fDrop then queued net rest else completed net (ofFn header ++ payload) :: queued net rest
  | .socketSendData _ :: rest => queued net rest

/-! ## The stream -/

/-- `stream` is what was queued so far: what was sent and what the queue still owes. -/
structure Sound (q : SendQueue) (stream : Bytes) : Prop where
  sent : q.sent ++ q.vSendMsg.flatten.drop q.nSendOffset = stream
  size : q.nSendSize = q.vSendMsg.flatten.length
  nonempty : ∀ data ∈ q.vSendMsg, data ≠ []
  offset : q.nSendOffset < (q.vSendMsg.headD [0]).length

variable {net : NetParams} {q : SendQueue} {stream : Bytes} {accepts : List Nat}

theorem socketSendData_spec (h : q.Sound stream) :
    ∃ q', q.socketSendData accepts = some q' ∧ q'.Sound stream := by
  obtain ⟨vSendMsg, nSendOffset, nSendSize, sent⟩ := q
  unfold socketSendData
  dsimp only
  induction vSendMsg generalizing accepts nSendOffset nSendSize sent with
  | nil =>
    have hoff : nSendOffset = 0 := Nat.lt_one_iff.mp h.offset
    have hsize : nSendSize = 0 := h.size
    exact ⟨_, by rw [socketSendFrom, if_pos ⟨hoff, hsize⟩], h⟩
  | cons data rest ih =>
    have hoff : nSendOffset < data.length := h.offset
    have hsize : nSendSize = data.length + rest.flatten.length := by simpa using h.size
    have hsent : sent ++ (data.drop nSendOffset ++ rest.flatten) = stream := by
      simpa [drop_append_of_le_length hoff.le] using h.sent
    rw [socketSendFrom, if_neg (by omega)]
    dsimp only
    generalize hn : min (accepts.headD 0) (data.length - nSendOffset) = nBytes
    split
    next hpos =>
      split
      next hall =>
        -- the rest of the message has left, and the next one is untouched
        refine ih 0 _ _ ⟨?_, ?_, fun d hd => h.nonempty d (by simp [hd]), ?_⟩
        · rw [← hsent, take_of_length_le (by rw [length_drop]; omega), append_assoc]
          rfl
        · dsimp only
          omega
        · cases rest with
          | nil => exact Nat.one_pos
          | cons d rest => exact length_pos_iff.mpr (h.nonempty d (by simp))
      next hpart =>
        refine ⟨_, rfl, ⟨?_, h.size, h.nonempty, ?_⟩⟩
        · dsimp only
          rw [← hsent, flatten_cons, drop_append_of_le_length (by omega), ← drop_drop,
            append_assoc, ← append_assoc (take ..), take_append_drop]
        · dsimp only [headD_cons]
          omega
    next => exact ⟨_, rfl, h⟩

theorem endMessage_spec (h : q.Sound stream) (header : Fin 24 → UInt8) (payload : Bytes) :
    ∃ q', q.endMessage net (ofFn header ++ payload) false accepts = some q' ∧
      q'.Sound (stream ++ completed net (ofFn header ++ payload)) := by
  have hlen : 24 ≤ (ofFn header ++ payload).length := by simp
  unfold endMessage
  rw [if_neg (by simp), if_neg (by omega)]
  generalize hdata : completed net (ofFn header ++ payload) = data
  have hne : data ≠ [] := by
    subst hdata
    simp [completed, memcpy, littleEndian4]
  have hsound : Sound { q with
      vSendMsg := q.vSendMsg ++ [data], nSendSize := q.nSendSize + data.length }
      (stream ++ data) := by
    have hoff := h.offset
    refine ⟨?_, by simp [h.size], ?_, ?_⟩
    · have hle : q.nSendOffset ≤ q.vSendMsg.flatten.length := by
        cases hq : q.vSendMsg <;> simp [hq] at hoff ⊢ <;> omega
      dsimp only
      rw [flatten_append, drop_append_of_le_length hle, ← append_assoc, h.sent, flatten_singleton]
    · intro d hd
      rcases mem_append.mp hd with hd | hd
      · exact h.nonempty d hd
      · rwa [mem_singleton.mp hd]
    · cases hq : q.vSendMsg with
      | nil =>
        have hzero : q.nSendOffset = 0 := Nat.lt_one_iff.mp (by simpa [hq] using hoff)
        exact hzero.trans_lt (length_pos_iff.mpr hne)
      | cons d rest => simpa [hq] using hoff
  dsimp only
  split
  · exact socketSendData_spec hsound
  · exact ⟨_, rfl, hsound⟩

theorem run_spec (calls : List Call) (h : q.Sound stream) : ∃ q',
    calls.foldlM (step net) q = some q' ∧ q'.Sound (stream ++ (queued net calls).flatten) := by
  induction calls generalizing q stream with
  | nil => exact ⟨q, rfl, by simpa [queued] using h⟩
  | cons call calls ih =>
    have hstep : ∃ q', step net q call = some q' ∧
        q'.Sound (stream ++ (queued net [call]).flatten) := by
      cases call with
      | pushMessage header payload fDrop accepts =>
        cases fDrop with
        | false => simpa [queued, step] using endMessage_spec h header payload
        | true => exact ⟨q, rfl, by simpa [queued] using h⟩
      | socketSendData accepts => simpa [queued, step] using socketSendData_spec h
    obtain ⟨q₁, h₁, hs₁⟩ := hstep
    obtain ⟨q₂, h₂, hs₂⟩ := ih hs₁
    refine ⟨q₂, by rw [foldlM_cons, h₁]; exact h₂, ?_⟩
    have hq : queued net (call :: calls) = queued net [call] ++ queued net calls := by
      cases call <;> simp [queued]
      split <;> rfl
    rwa [hq, flatten_append, ← append_assoc]

/-- **The byte stream.** No `assert` fails, what the socket has accepted is a part from the front of
the messages queued, and the two counters are right. -/
theorem send_stream (net : NetParams) (calls : List Call) : ∃ q, run net calls = some q ∧
    q.sent <+: (queued net calls).flatten ∧ q.nSendSize = (q.vSendMsg.map length).sum ∧
      (q.vSendMsg = [] → q.nSendOffset = 0) ∧
      ∀ data ∈ q.vSendMsg.head?, q.nSendOffset < data.length := by
  have hnew : new.Sound [] := ⟨rfl, rfl, by simp [new], Nat.one_pos⟩
  obtain ⟨q, hrun, hq⟩ := run_spec calls hnew
  refine ⟨q, hrun, ⟨_, hq.sent⟩, by rw [hq.size, length_flatten], fun hnil => ?_,
    fun data hdata => ?_⟩
  · exact Nat.lt_one_iff.mp (by simpa [hnil] using hq.offset)
  · have hoff := hq.offset
    rwa [headD_eq_head?_getD, hdata] at hoff

end SendQueue

end HoboNickels.NetMessages

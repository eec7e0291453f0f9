import Mathlib.Algebra.Ring.Nat
import Resistance.Primitives.Transaction

/-! The send queue of a peer, from `net.cpp`: `EndMessage` appends to it and `SocketSendData` hands
it to the socket, which takes some of each request. To the peer it is a stream of bytes.
-/

namespace Resistance.Net

open List Primitives Lib.Checks

/-- The queue of a `CNode`, with the bytes that the socket took so far. -/
structure SendQueue where
  vSendMsg : List Bytes := []
  nSendOffset : Nat := 0
  nSendSize : Nat := 0
  sent : Bytes := []

/-- The loop of `SocketSendData`, from a message of the queue on. The outcomes are what `send`
returns, cut at what it was asked to send; after the last one it takes nothing.
-/
def socketSendLoop (node : SendQueue) : List Bytes → List Int32 → Except String SendQueue
  | [], _ => return { node with vSendMsg := [] }
  | data :: rest, outcomes => do
    assertThat (data.length > node.nSendOffset) "data.size() > pnode->nSendOffset"
    let nBytes := min (outcomes.headD 0).toInt ↑(data.length - node.nSendOffset)
    if nBytes > 0 then
      let sent := node.sent ++ (data.drop node.nSendOffset).take nBytes.toNat
      let nSendOffset := node.nSendOffset + nBytes.toNat
      if nSendOffset = data.length then
        socketSendLoop
          { node with nSendOffset := 0, nSendSize := node.nSendSize - data.length, sent }
          rest outcomes.tail
      -- could not send full message; stop sending more
      else return { node with vSendMsg := data :: rest, nSendOffset, sent }
    -- couldn't send anything at all
    else return { node with vSendMsg := data :: rest }

def socketSendData (node : SendQueue) (outcomes : List Int32) : Except String SendQueue := do
  let node ← socketSendLoop node node.vSendMsg outcomes
  assertThat (node.vSendMsg = [] → node.nSendOffset = 0) "pnode->nSendOffset == 0"
  assertThat (node.vSendMsg = [] → node.nSendSize = 0) "pnode->nSendSize == 0"
  return node

/-- A message with its size and checksum set. -/
def finishMessage (hash : Bytes → Uint256) (ssSend : Bytes) : Bytes :=
  ssSend.take 16 ++ serWritedata32 (UInt32.ofNat (ssSend.length - 24))
    ++ (hash (ssSend.drop 24)).toList.take 4 ++ ssSend.drop 24

/-- `ssSend` is what `-fuzzmessagestest` leaves of a message; `-dropmessagestest` may drop it. -/
def endMessage (hash : Bytes → Uint256) (node : SendQueue) (dropped : Bool) (ssSend : Bytes)
    (outcomes : List Int32) : Except String SendQueue := do
  if dropped ∨ ssSend = [] then return node
  else
    assertThat (ssSend.length ≥ 24)
      "ssSend.size () >= CMessageHeader::CHECKSUM_OFFSET + sizeof(nChecksum)"
    let data := finishMessage hash ssSend
    let queued := { node with
      vSendMsg := node.vSendMsg ++ [data], nSendSize := node.nSendSize + data.length }
    -- If write queue empty, attempt "optimistic write"
    if node.vSendMsg = [] then socketSendData queued outcomes else return queued

inductive SendCall where
  | endMessage (dropped : Bool) (ssSend : Bytes) (outcomes : List Int32)
  | socketSendData (outcomes : List Int32)

namespace SendCall

def run (hash : Bytes → Uint256) (node : SendQueue) : SendCall → Except String SendQueue
  | endMessage dropped ssSend outcomes => Net.endMessage hash node dropped ssSend outcomes
  | socketSendData outcomes => Net.socketSendData node outcomes

/-- A message is at least a header long. -/
def Whole : SendCall → Prop
  | endMessage _ ssSend _ => 24 ≤ ssSend.length
  | socketSendData _ => True

/-- What a call adds to the messages. -/
def written (hash : Bytes → Uint256) : SendCall → Bytes
  | endMessage false ssSend _ => finishMessage hash ssSend
  | _ => []

end SendCall

/-- A peer as a stream: the bytes that its socket took, and what is left of each message. -/
structure ByteStream where
  sent : Bytes := []
  left : List Bytes := []

namespace ByteStream

/-- The socket is offered the messages one by one, as long as it takes all of them. -/
def offer : Bytes → List Bytes → List Int32 → ByteStream
  | sent, [], _ => { sent }
  | sent, data :: rest, outcomes =>
    let taken := (outcomes.headD 0).toInt.toNat
    if data.length ≤ taken then offer (sent ++ data) rest outcomes.tail
    else { sent := sent ++ data.take taken, left := data.drop taken :: rest }

/-- A message is offered at once if nothing is left of those before it. -/
def call (hash : Bytes → Uint256) (stream : ByteStream) : SendCall → ByteStream
  | .socketSendData outcomes => offer stream.sent stream.left outcomes
  | .endMessage true _ _ => stream
  | .endMessage false ssSend outcomes =>
    let left := stream.left ++ [finishMessage hash ssSend]
    if stream.left = [] then offer stream.sent left outcomes else { stream with left }

/-- All bytes, those that were sent and those that are left. -/
def bytes (stream : ByteStream) : Bytes := stream.sent ++ stream.left.flatten

/-- Sending moves bytes, in order. -/
theorem bytes_offer (sent : Bytes) (left : List Bytes) (outcomes : List Int32)
    : (offer sent left outcomes).bytes = sent ++ left.flatten := by
  induction left generalizing sent outcomes with
  | nil => rfl
  | cons data rest ih =>
    rw [offer]
    split
    · rw [ih, flatten_cons, append_assoc]
    · simp only [bytes, flatten_cons, append_assoc]
      rw [← append_assoc (take ..), take_append_drop]

theorem bytes_call (hash : Bytes → Uint256) (stream : ByteStream) (call : SendCall)
    : (stream.call hash call).bytes = stream.bytes ++ call.written hash := by
  cases call with
  | socketSendData outcomes => exact (bytes_offer ..).trans (append_nil _).symm
  | endMessage dropped ssSend outcomes =>
    cases dropped with
    | true => exact (append_nil _).symm
    | false =>
      simp only [ByteStream.call, SendCall.written, bytes, append_assoc]
      split
      · rw [← bytes, bytes_offer]
        simp
      · simp

theorem bytes_calls (hash : Bytes → Uint256) (stream : ByteStream) (calls : List SendCall)
    : (calls.foldl (ByteStream.call hash) stream).bytes
      = stream.bytes ++ calls.flatMap (SendCall.written hash) := by
  induction calls generalizing stream with
  | nil => exact (append_nil _).symm
  | cons call calls ih => rw [foldl_cons, ih, bytes_call, flatMap_cons, append_assoc]

end ByteStream

/-- The messages without what was sent of the first. -/
def unsent (nSendOffset : Nat) : List Bytes → List Bytes
  | [] => []
  | data :: rest => data.drop nSendOffset :: rest

theorem unsent_zero (queue : List Bytes) : unsent 0 queue = queue := by
  cases queue <;> rfl

/-- The stream that a queue stands for. -/
def SendQueue.stream (node : SendQueue) : ByteStream :=
  { sent := node.sent, left := unsent node.nSendOffset node.vSendMsg }

/-- With `queue` left of the messages, the counters are right. -/
structure Pending (node : SendQueue) (queue : List Bytes) : Prop where
  size : node.nSendSize = queue.flatten.length
  offset : ∀ data ∈ queue.head?, node.nSendOffset < data.length
  start : queue = [] → node.nSendOffset = 0
  nonempty : ∀ data ∈ queue, 0 < data.length

namespace Pending

variable {node : SendQueue}

/-- The loop sends what the socket takes of the stream. -/
theorem loop {queue} (pending : Pending node queue) (outcomes : List Int32)
    : ∃ after, socketSendLoop node queue outcomes = .ok after ∧ Pending after after.vSendMsg
      ∧ after.stream = .offer node.sent (unsent node.nSendOffset queue) outcomes := by
  induction queue generalizing node outcomes with
  | nil => exact ⟨_, rfl, { pending with }, rfl⟩
  | cons data queue ih =>
    have inside := pending.offset data rfl
    have size := pending.size
    have nonempty := pending.nonempty
    rw [flatten_cons, length_append] at size
    rw [socketSendLoop, assertThat, throwIf, if_neg (not_not.mpr inside), ok_bind]
    simp only [unsent, ByteStream.offer, length_drop]
    generalize (outcomes.headD 0).toInt = outcome
    by_cases all : data.length - node.nSendOffset ≤ outcome.toNat
    · rw [min_eq_right (by omega), if_pos (by omega), if_pos (by omega), if_pos all,
        Int.toNat_natCast, take_of_length_le (by rw [length_drop])]
      have later : Pending { node with
          nSendOffset := 0
          nSendSize := node.nSendSize - data.length
          sent := node.sent ++ data.drop node.nSendOffset } queue := by
        refine ⟨?_, fun next first => ?_, fun _ => rfl, fun d mem => nonempty d (.tail _ mem)⟩
        · simp only [size]
          omega
        · exact nonempty next (.tail _ (mem_of_head? first))
      simpa only [unsent_zero] using ih later outcomes.tail
    · rw [min_eq_left (by omega), if_neg all]
      split_ifs with took whole
      · omega
      · refine ⟨_, rfl, ⟨pending.size, ?_, by simp, nonempty⟩, ?_⟩
        · rintro _ ⟨⟩
          dsimp only
          omega
        · simp [SendQueue.stream, unsent, drop_drop]
      · refine ⟨_, rfl, { pending with }, ?_⟩
        rw [Int.toNat_of_nonpos (by omega)]
        simp [SendQueue.stream, unsent]

theorem sendData (pending : Pending node node.vSendMsg) (outcomes : List Int32)
    : ∃ after, socketSendData node outcomes = .ok after ∧ Pending after after.vSendMsg
      ∧ after.stream = .offer node.sent (unsent node.nSendOffset node.vSendMsg) outcomes := by
  obtain ⟨after, run, kept, stream⟩ := pending.loop outcomes
  refine ⟨after, ?_, kept, stream⟩
  simp only [socketSendData, bind_ok, assertThat_ok, pure_ok]
  refine ⟨after, run, (), kept.start, (), fun empty => ?_, rfl⟩
  rw [kept.size, empty]
  rfl

theorem append (pending : Pending node node.vSendMsg) {data : Bytes} (nonempty : 0 < data.length)
    : Pending { node with
        vSendMsg := node.vSendMsg ++ [data], nSendSize := node.nSendSize + data.length }
      (node.vSendMsg ++ [data]) := by
  obtain ⟨size, offset, start, each⟩ := pending
  refine ⟨by simp [size], ?_, by simp, by simpa [or_imp, forall_and] using ⟨each, nonempty⟩⟩
  cases queue : node.vSendMsg with
  | nil => simpa [start queue] using nonempty
  | cons first rest => simpa [queue] using offset

theorem unsent_append (pending : Pending node node.vSendMsg) (data : Bytes)
    : unsent node.nSendOffset (node.vSendMsg ++ [data])
      = unsent node.nSendOffset node.vSendMsg ++ [data] := by
  cases queue : node.vSendMsg with
  | nil => simp [unsent, pending.start queue]
  | cons first rest => rfl

/-- A call returns, and the queue goes on as the stream does. -/
theorem run (pending : Pending node node.vSendMsg) (hash : Bytes → Uint256)
    {call : SendCall} (whole : call.Whole)
    : ∃ after, call.run hash node = .ok after ∧ Pending after after.vSendMsg
      ∧ after.stream = node.stream.call hash call := by
  cases call with
  | socketSendData outcomes => exact pending.sendData outcomes
  | endMessage dropped ssSend outcomes =>
    cases dropped with
    | true => exact ⟨node, rfl, pending, rfl⟩
    | false =>
      have long : 24 ≤ ssSend.length := whole
      have nonempty : 0 < (finishMessage hash ssSend).length := by
        simp only [finishMessage, length_append, length_take]
        omega
      have queued := pending.append nonempty
      have atOnce : node.stream.left = [] ↔ node.vSendMsg = [] := by
        cases queue : node.vSendMsg <;> simp [SendQueue.stream, unsent, queue]
      rw [SendCall.run, endMessage, if_neg, assertThat, throwIf, if_neg (not_not.mpr long), ok_bind,
        ByteStream.call]
      · rw [show node.stream.left ++ _ = _ from (pending.unsent_append _).symm]
        simp only [atOnce]
        split_ifs
        · exact queued.sendData outcomes
        · exact ⟨_, rfl, queued, rfl⟩
      · rintro (_ | rfl) <;> contradiction

theorem runs (pending : Pending node node.vSendMsg) (hash : Bytes → Uint256)
    {calls : List SendCall} (whole : ∀ call ∈ calls, call.Whole)
    : ∃ after, calls.foldlM (SendCall.run hash) node = .ok after ∧ Pending after after.vSendMsg
      ∧ after.stream = calls.foldl (ByteStream.call hash) node.stream := by
  induction calls generalizing node with
  | nil => exact ⟨node, rfl, pending, rfl⟩
  | cons call calls ih =>
    rw [forall_mem_cons] at whole
    obtain ⟨next, first, kept, stream⟩ := pending.run hash whole.1
    rw [foldl_cons, ← stream, foldlM_cons, first]
    exact ih kept whole.2

end Pending

/-- Every byte is sent once and in order: what the socket took and what is left in the queue are
the messages, and the socket was given what it takes of the stream, whatever that is.
-/
theorem sent_in_order (hash : Bytes → Uint256) (calls : List SendCall)
    (whole : ∀ call ∈ calls, call.Whole)
    : ∃ node, calls.foldlM (SendCall.run hash) {} = .ok node
      ∧ node.sent ++ (unsent node.nSendOffset node.vSendMsg).flatten
        = calls.flatMap (SendCall.written hash)
      ∧ node.stream = calls.foldl (ByteStream.call hash) {}
      ∧ node.nSendSize = (node.vSendMsg.map length).sum
      ∧ ∀ data ∈ node.vSendMsg.head?, node.nSendOffset < data.length := by
  have start : Pending {} [] := ⟨rfl, nofun, fun _ => rfl, nofun⟩
  obtain ⟨node, run, pending, stream⟩ := start.runs hash whole
  refine ⟨node, run, ?_, stream, by rw [pending.size, length_flatten], pending.offset⟩
  exact (congrArg ByteStream.bytes stream).trans (ByteStream.bytes_calls ..)

/-- Of a message of 30 bytes the socket takes 10 and then 15. -/
theorem sent_in_order_partial
    : let data := finishMessage (fun _ => .null) (replicate 30 7)
      ∃ node, [SendCall.endMessage false (replicate 30 7) [10], .socketSendData [15]].foldlM
          (SendCall.run fun _ => .null) {} = .ok node
        ∧ node.sent = data.take 25 ∧ unsent node.nSendOffset node.vSendMsg = [data.drop 25] := by
  obtain ⟨node, run, -, stream, -⟩ := sent_in_order (fun _ => .null)
    [.endMessage false (replicate 30 7) [10], .socketSendData [15]] (by simp [SendCall.Whole])
  exact ⟨node, run, congrArg ByteStream.sent stream, congrArg ByteStream.left stream⟩

end Resistance.Net

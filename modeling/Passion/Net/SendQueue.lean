import Passion.Common.Runs
import Passion.Primitives.Transaction

/-!
# The send queue of a peer

`SocketSendData` of `net.cpp` hands the messages of `vSendMsg` to the socket, the first of them
from `nSendOffset` on, as far as the socket takes their bytes. What was sent in full is erased
at the end. However short the writes are, the socket gets the bytes of the queue in order.
-/

namespace Passion

open List

/-- What `send` meets: room for some bytes, or an error, after which the socket may be closed. -/
inductive SendOutcome
  | room (nBytes : ℕ)
  | error (close : Bool)

/-- The fields of a `CNode` for sending, and the bytes that its socket has accepted. -/
structure SendQueue where
  vSendMsg : List Bytes := []
  nSendOffset : ℕ := 0
  nSendSize : BitVec 64 := 0
  /-- `hSocket != INVALID_SOCKET`. -/
  hSocket : Bool := true
  accepted : Bytes := []

namespace SendQueue

/-- The loop of `SocketSendData` from the message `it` on, with the outcomes of its calls of
`send`: the messages from the last `it` on. -/
def sendLoop : List Bytes → List SendOutcome → SendQueue → Result (List Bytes × SendQueue)
  | [], _, q => .ok ([], q)
  | data :: it, outcomes, q =>
    if data.length ≤ q.nSendOffset then .error (.assertion "data.size() > pnode->nSendOffset")
    else if !q.hSocket then .ok (data :: it, q)
    else match outcomes.headD (.room 0) with
      | .error close => .ok (data :: it, { q with hSocket := !close })
      | .room n =>
        -- `send` is asked to take no more than the rest of the message.
        let nBytes := min n (data.length - q.nSendOffset)
        let q := { q with
          accepted := q.accepted ++ (data.drop q.nSendOffset).take nBytes
          nSendOffset := q.nSendOffset + nBytes }
        if q.nSendOffset = data.length then
          sendLoop it outcomes.tail { q with
            nSendOffset := 0
            nSendSize := q.nSendSize - BitVec.ofNat 64 data.length }
        else .ok (data :: it, q)

/-- `SocketSendData`. -/
def socketSendData (outcomes : List SendOutcome) (q : SendQueue) : Result SendQueue :=
  (sendLoop q.vSendMsg outcomes q).bind fun (it, q) =>
    if it = [] ∧ q.nSendOffset ≠ 0 then .error (.assertion "pnode->nSendOffset == 0")
    else if it = [] ∧ q.nSendSize ≠ 0 then .error (.assertion "pnode->nSendSize == 0")
    else .ok { q with vSendMsg := it }

/-- A message is queued, as in `PushMessage`. -/
def push (msg : Bytes) (q : SendQueue) : SendQueue :=
  { q with
    vSendMsg := q.vSendMsg ++ [msg]
    nSendSize := q.nSendSize + BitVec.ofNat 64 msg.length }

/-- What happens to the queue. A message has at least one byte. -/
inductive Action
  | push (msg : { msg : Bytes // msg ≠ [] })
  | socketSendData (outcomes : List SendOutcome)

/-- The bytes an action queues. -/
def Action.bytes : Action → Bytes
  | .push msg => msg
  | .socketSendData _ => []

/-- One action. -/
def act (q : SendQueue) : Action → Result SendQueue
  | .push msg => .ok (q.push msg)
  | .socketSendData outcomes => q.socketSendData outcomes

/-- **The socket has the bytes of `all` but those of the messages from `it` on** that the offset
leaves. -/
structure Streams (q : SendQueue) (it : List Bytes) (all : Bytes) : Prop where
  stream : q.accepted ++ it.flatten.drop q.nSendOffset = all
  size : q.nSendSize = BitVec.ofNat 64 it.flatten.length
  offset : q.nSendOffset < (it.headD []).length ∨ q.nSendOffset = 0
  nonempty : ∀ msg ∈ it, msg ≠ []

variable {q : SendQueue} {it : List Bytes} {all : Bytes} {outcomes : List SendOutcome}

theorem Streams.push (h : q.Streams q.vSendMsg all) {msg : Bytes} (hmsg : msg ≠ []) :
    (q.push msg).Streams (q.push msg).vSendMsg (all ++ msg) := by
  have hfront : q.nSendOffset ≤ q.vSendMsg.flatten.length ∧
      (q.nSendOffset < ((q.vSendMsg ++ [msg]).headD []).length ∨ q.nSendOffset = 0) := by
    have hoffset := h.offset
    cases hq : q.vSendMsg with
    | nil => simp_all
    | cons data it =>
      simp [hq] at hoffset ⊢
      omega
  refine ⟨?_, ?_, hfront.2, fun m hm => ?_⟩
  · rw [← h.stream]
    simp [SendQueue.push, drop_append_of_le_length hfront.1]
  · simp [SendQueue.push, h.size, BitVec.ofNat_add]
  · rcases mem_append.mp hm with hm | hm
    · exact h.nonempty m hm
    · rwa [mem_singleton.mp hm]

theorem Streams.sendLoop (h : q.Streams it all) :
    (sendLoop it outcomes q).Yields fun r => r.2.Streams r.1 all := by
  induction it generalizing outcomes q with
  | nil => exact h
  | cons data it ih =>
    have hlt : q.nSendOffset < data.length := by
      have hdata := length_pos_iff.mpr (h.nonempty data (by simp))
      rcases h.offset with hlt | hzero
      · exact hlt
      · omega
    rw [sendLoop, if_neg (by omega)]
    split
    · exact h
    split
    · exact ⟨h.stream, h.size, h.offset, h.nonempty⟩
    next n _ =>
    -- The rest of the message is what `send` takes of it, and what is left then.
    set nBytes := min n (data.length - q.nSendOffset) with hn
    have hstream : q.accepted ++ (data.drop q.nSendOffset).take nBytes ++
        (data.drop (q.nSendOffset + nBytes) ++ it.flatten) = all := by
      rw [← h.stream, flatten_cons, drop_append_of_le_length hlt.le, append_assoc,
        ← drop_drop, ← append_assoc (take _ _), take_append_drop]
    dsimp only
    split
    · next hfull =>
      rw [hfull, drop_length] at hstream
      refine ih ⟨hstream, ?_, .inr rfl, fun m hm => h.nonempty m (by simp [hm])⟩
      rw [h.size, flatten_cons, length_append, BitVec.ofNat_add, BitVec.add_comm,
        BitVec.add_sub_cancel]
    · next hpart =>
      have hle : q.nSendOffset + nBytes < data.length := by omega
      refine ⟨?_, h.size, .inl hle, h.nonempty⟩
      rw [← hstream, flatten_cons, drop_append_of_le_length hle.le]

theorem Streams.socketSendData (h : q.Streams q.vSendMsg all) :
    (q.socketSendData outcomes).Yields fun q' => q'.Streams q'.vSendMsg all := by
  refine h.sendLoop.bind fun (it, q) h => ?_
  have hend : it = [] → q.nSendOffset = 0 ∧ q.nSendSize = 0 := by
    rintro rfl
    exact ⟨by simpa using h.offset, h.size⟩
  dsimp only
  rw [if_neg fun hc => hc.2 (hend hc.1).1, if_neg fun hc => hc.2 (hend hc.1).2]
  exact ⟨h.stream, h.size, h.offset, h.nonempty⟩

/-- **The socket gets the bytes of the queued messages in order**, whatever the pattern of short
writes and errors. No assertion fails, `nSendSize` is the number of bytes of the messages that
are queued, and the offset is inside the first of them. -/
theorem sendQueue_streams (actions : List Action) :
    (Run.after act {} actions).Yields fun q =>
      q.accepted <+: actions.flatMap Action.bytes ∧
      q.nSendSize = BitVec.ofNat 64 q.vSendMsg.flatten.length ∧
      (q.nSendOffset < (q.vSendMsg.headD []).length ∨ q.nSendOffset = 0) := by
  have hrun : (Run.after act {} actions).Yields fun q =>
      Streams q q.vSendMsg (actions.flatMap Action.bytes) := by
    refine Except.Meets.foldlM (fun done q => Streams q q.vSendMsg (done.flatMap Action.bytes))
      ⟨rfl, rfl, .inr rfl, by simp⟩ fun done a q _ hq => ?_
    rw [flatMap_append, flatMap_singleton]
    cases a with
    | push msg => exact hq.push msg.2
    | socketSendData outcomes =>
      rw [Action.bytes, append_nil]
      exact hq.socketSendData
  exact hrun.mono fun q hq => ⟨⟨_, hq.stream⟩, hq.size, hq.offset⟩

end SendQueue

end Passion

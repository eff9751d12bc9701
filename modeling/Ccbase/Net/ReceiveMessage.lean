import Ccbase.Lib.Run
import Ccbase.Net.ParseMessage

/-!
# `Connection::ReceiveMessage` with an allocator

The receiving side of a connection whose peer may send anything, and whose
`allocate_cb_` may be set or not and may return `nullptr`. How many bytes are
read for a body is decided by where `FillRecvMessage` has found room for them:
in the memory of the callback, in `body`, or, if the callback has returned
`nullptr`, nowhere.

A call goes on where the last one has stopped, as in `ParseMessage`, and it is
made whether or not the connection is in `kDisconnecting`.
-/

namespace Ccbase.Net

open Ccbase.Lib

/-! ## The model -/

/-- What `allocate_cb_` does for a message: it is not set, it returns `nullptr`,
or it returns memory. -/
inductive Allocation where
  | unset
  | null
  | memory
  deriving DecidableEq, Repr

/-- What `GetMessageBaseRealDataSize` says of a new message with a body of
`bodyLen` bytes. -/
def Allocation.realDataSize : Allocation → Nat → Nat
  | .null, _ => 0
  | .unset, bodyLen => bodyLen
  | .memory, bodyLen => bodyLen

/-- `recvMessage.body` in `side` are the cells that `GetMessageBaseRealData` gives;
they are at `data` if that is set, and else in `body`. -/
structure Receiver where
  side : RecvSide
  recvMsgHeader : MessageHeader := ⟨rpcMagicId, 0, 0, 0, 0⟩
  data : Bool := false

/-- What `ParseMessage` returns: a message stands for `true`. -/
inductive ParseResult where
  | returned (message : Option MessageBase) (r : Receiver) (rest : List ReadAnswer)
  | pending
  | fault

/-- The limits that `FillRecvMessage` checks. -/
structure MessageHeader.Valid (h : MessageHeader) : Prop where
  name : h.nameLen ≤ maxKmsgNameLen
  to_ : h.toLen ≤ maxKmsgToLen
  from_ : h.fromLen ≤ maxKmsgFromLen
  body : h.bodyLen ≤ maxKmsgBodyLen

namespace Receiver

/-- The strings are resized and there is room for the body, unless a length is
too large. -/
def fillRecvMessage (alloc : Allocation) (r : Receiver) : Receiver :=
  let h := r.recvMsgHeader
  if h.nameLen > maxKmsgNameLen ∨ h.toLen > maxKmsgToLen ∨ h.fromLen > maxKmsgFromLen ∨
      h.bodyLen > maxKmsgBodyLen then
    { r with side := { r.side with disconnecting := true } }
  else
    { r with
      side := r.side.fillRecvMessage { h with bodyLen := alloc.realDataSize h.bodyLen }
      data := decide (alloc = .memory) }

/-- The bytes of the body are in `body` or at `data`. -/
def deliver (data : Bool) (m : MessageBase) : MessageBase :=
  if data then { m with body := [], data := some m.body } else m

/-- The case `kBody`. -/
def parseBody (answers : List ReadAnswer) (r : Receiver) : ParseResult :=
  match r.side.parseBody answers with
  | .returned message side rest =>
      .returned (message.map (deliver r.data)) { r with side := side } rest
  | .pending => .pending
  | .fault => .fault

/-- The case `kMsgHeader`, which goes on with the body. -/
def parseHeader (alloc : Allocation) (answers : List ReadAnswer) (r : Receiver) : ParseResult :=
  let c := r.side
  match TCPSocketOperation.receive (headerCells.drop c.recvLen) (sizeofHeader - c.recvLen) answers
      c.rx with
  | .pending => .pending
  | .fault => .fault
  | .returned ret rx rest =>
      let recvLen := rx.recvLen + c.recvLen
      let c := { c with rx := rx }
      if ret ≠ .ok then
        .returned none { r with side := { c with disconnecting := true, recvLen := recvLen } } rest
      else if recvLen ≠ sizeofHeader then
        .returned none { r with side := { c with recvLen := recvLen } } rest
      else
        let c := { c with recvLen := 0 }
        let header := reorderHeader (headerCells.map rx.mem)
        if header.magic ≠ rpcMagicId then
          .returned none { r with side := { c with disconnecting := true } } rest
        else
          let r := { r with side := c, recvMsgHeader := header }.fillRecvMessage alloc
          if r.side.disconnecting then .returned none r rest
          else parseBody rest { r with side := { r.side with recvState := .kBody } }

def parseMessage (alloc : Allocation) (answers : List ReadAnswer) (r : Receiver) : ParseResult :=
  match r.side.recvState with
  | .kMsgHeader => parseHeader alloc answers r
  | .kBody => parseBody answers r

end Receiver

/-- A call of `Connection::ReceiveMessage`: what the callback and the system
answer, and if the reply of the message handler cannot be sent. -/
structure ReceiveCall where
  alloc : Allocation := .unset
  answers : List ReadAnswer
  replyFails : Bool := false
  deriving DecidableEq, Repr

/-- What the call returns and what it hands to the message handler. -/
structure ReceiveReturn where
  ret : Int
  message : Option MessageBase
  conn : Receiver

namespace Receiver

/-- The connection is given up if `b`. -/
def closing (b : Bool) (r : Receiver) : Receiver :=
  { r with side := { r.side with disconnecting := r.side.disconnecting || b } }

/-- `Connection::ReceiveMessage`. -/
def receiveMessage (r : Receiver) (call : ReceiveCall) : Option ReceiveReturn :=
  match r.parseMessage call.alloc call.answers with
  | .returned none r [] =>
      some { ret := if r.side.disconnecting then -1 else 0, message := none, conn := r }
  | .returned (some m) r [] =>
      some { ret := 1, message := some m, conn := r.closing call.replyFails }
  | _ => none

end Receiver

/-- A connection that has just been made, with the bytes that will arrive. -/
def Receiver.fresh (mem : Nat → UInt8) (stream : List UInt8) : Receiver where
  side := RecvSide.fresh mem stream

/-! ## Without a callback -/

/-- The result of `ParseMessage` without a callback. -/
def ParseResult.toParsed : ParseResult → Parsed
  | .returned message r rest => .returned message r.side rest
  | .pending => .pending
  | .fault => .fault

namespace Receiver

theorem toParsed_parseBody {r : Receiver} (h : r.data = false) (answers : List ReadAnswer) :
    (r.parseBody answers).toParsed = r.side.parseBody answers := by
  rw [parseBody]
  cases r.side.parseBody answers with
  | returned message side rest =>
      cases message with
      | none => rfl
      | some m => simp [ParseResult.toParsed, deliver, h]
  | pending => rfl
  | fault => rfl

theorem side_fillRecvMessage_unset (r : Receiver) :
    (r.fillRecvMessage .unset).side = r.side.fillRecvMessage r.recvMsgHeader := by
  rw [fillRecvMessage]
  dsimp only
  split
  · rename_i hlimit
    rw [RecvSide.fillRecvMessage, if_pos hlimit]
  · rfl

theorem data_fillRecvMessage_unset {r : Receiver} (h : r.data = false) :
    (r.fillRecvMessage .unset).data = false := by
  rw [fillRecvMessage]
  dsimp only
  split
  · exact h
  · rfl

/-- After the header the two receivers go on in the same way. -/
theorem toParsed_strings {r : Receiver} {c : RecvSide} (hdata : r.data = false) (hside : r.side = c)
    (rest : List ReadAnswer) :
    (if r.side.disconnecting then ParseResult.returned none r rest
      else parseBody rest { r with side := { r.side with recvState := .kBody } }).toParsed =
    if c.disconnecting then Parsed.returned none c rest
      else RecvSide.parseBody rest { c with recvState := .kBody } := by
  subst hside
  by_cases hdis : r.side.disconnecting = true
  · rw [if_pos hdis, if_pos hdis]
    rfl
  · rw [if_neg hdis, if_neg hdis]
    exact toParsed_parseBody (r := { r with side := { r.side with recvState := .kBody } })
      hdata rest

/-- Without a callback this is the receiver of `ParseMessage`. -/
theorem toParsed_parseMessage_unset {r : Receiver} (h : r.data = false)
    (answers : List ReadAnswer) :
    (r.parseMessage .unset answers).toParsed = r.side.parseMessage answers := by
  rw [parseMessage, RecvSide.parseMessage]
  cases r.side.recvState with
  | kBody => exact toParsed_parseBody h answers
  | kMsgHeader =>
      dsimp only
      rw [parseHeader, RecvSide.parseHeader]
      dsimp only
      cases TCPSocketOperation.receive (headerCells.drop r.side.recvLen)
          (sizeofHeader - r.side.recvLen) answers r.side.rx with
      | pending => rfl
      | fault => rfl
      | returned ret rx rest =>
          dsimp only
          split
          · rfl
          · split
            · rfl
            · split
              · rfl
              · refine toParsed_strings ?_ ?_ rest
                · exact data_fillRecvMessage_unset h
                · exact side_fillRecvMessage_unset _

end Receiver

end Ccbase.Net

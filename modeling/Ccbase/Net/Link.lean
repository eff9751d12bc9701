import Ccbase.Lib.Run
import Ccbase.Net.FlushQueue
import Ccbase.Net.ParseMessage

/-!
# From `TCPComm::Send` to `ParseMessage`

One direction of a connection: the side that sends, the bytes on the way, and the side that
receives. All that is done to a side is done under its `mutex_`, so the steps are the whole calls:
`TCPComm::Send` with the `Flush` in it, an answer of the message handler with the `Flush` behind it,
`WriteCallBack`, and on the other side `TCPComm::ReceiveMessage`. They come in any order, and the
bytes that one side has written are read by the other in any pieces.
-/

namespace Ccbase.Net

open Ccbase.Lib

/-! ## Bytes that have not been read -/

/-- More bytes arrive behind those that have not been read yet. -/
def RxState.more (bytes : List UInt8) (s : RxState) : RxState :=
  { s with stream := s.stream ++ bytes }

def RecvSide.more (bytes : List UInt8) (c : RecvSide) : RecvSide :=
  { c with rx := c.rx.more bytes }

theorem RecvSide.more_append (bytes bytes' : List UInt8) (c : RecvSide) :
    c.more (bytes ++ bytes') = (c.more bytes).more bytes' := by
  unfold more RxState.more
  rw [List.append_assoc]

theorem RecvSide.more_nil (c : RecvSide) : c.more [] = c := by
  unfold more RxState.more
  rw [List.append_nil]

namespace RxState

variable {s : RxState} {bytes : List UInt8} {n want : Nat}

@[simp] theorem recvLen_more : (s.more bytes).recvLen = s.recvLen := rfl

@[simp] theorem iov_more : (s.more bytes).iov = s.iov := rfl

theorem arrive_more (cells : List Nat) (h : n ≤ s.stream.length) :
    (s.more bytes).arrive cells n = (s.arrive cells n).more bytes := by
  simp only [arrive, more, List.drop_append_of_le_length h, List.take_append_of_le_length h]

theorem CanRead.more (h : s.CanRead want n) : (s.more bytes).CanRead want n := by
  obtain ⟨hpos, hwant, hlen⟩ := h
  refine ⟨hpos, hwant, ?_⟩
  show n ≤ (s.stream ++ bytes).length
  rw [List.length_append]
  omega

end RxState

namespace TCPSocketOperation

variable {bytes : List UInt8} {ret : IoRet} {s s' : RxState} {rest : List ReadAnswer}

theorem receiveLoop_more {total : Nat} {answers : List ReadAnswer} :
    ∀ {buf : List Nat} {s : RxState}, receiveLoop total answers buf s = .returned ret s' rest →
      receiveLoop total answers buf (s.more bytes) = .returned ret (s'.more bytes) rest := by
  induction answers with
  | nil =>
      intro buf s h
      rw [receiveLoop] at h ⊢
      split at h
      · cases h
      · rename_i hdone
        cases h
        rw [RxState.recvLen_more, if_neg hdone]
  | cons r rs ih =>
      intro buf s h
      unfold receiveLoop at h ⊢
      rw [RxState.recvLen_more]
      by_cases hdone : s.recvLen = total
      · rw [if_pos hdone] at h ⊢
        cases h
        rfl
      · rw [if_neg hdone] at h ⊢
        cases r with
        | moved n =>
            dsimp only at h ⊢
            by_cases hcan : s.CanRead (total - s.recvLen) n
            · rw [if_pos hcan] at h
              rw [if_pos hcan.more, RxState.arrive_more buf hcan.2.2, RxState.recvLen_more]
              by_cases hall : (s.arrive buf n).recvLen = total
              · rw [if_pos hall] at h ⊢
                cases h
                rfl
              · rw [if_neg hall] at h ⊢
                exact ih h
            · rw [if_neg hcan] at h
              cases h
        | closed =>
            cases h
            rfl
        | again =>
            cases h
            rfl
        | reset =>
            cases h
            rfl
        | otherErrno =>
            cases h
            rfl

theorem receiveMessageLoop_more {total : Nat} {answers : List ReadAnswer} :
    ∀ {s : RxState}, receiveMessageLoop total answers s = .returned ret s' rest →
      receiveMessageLoop total answers (s.more bytes) = .returned ret (s'.more bytes) rest := by
  induction answers with
  | nil =>
      intro s h
      rw [receiveMessageLoop] at h ⊢
      split at h
      · cases h
      · rename_i hdone
        cases h
        rw [RxState.recvLen_more, if_neg hdone]
  | cons r rs ih =>
      intro s h
      unfold receiveMessageLoop at h ⊢
      rw [RxState.recvLen_more, RxState.iov_more]
      by_cases hdone : s.recvLen < total
      · rw [if_neg (not_not.mpr hdone)] at h ⊢
        cases r with
        | moved n =>
            dsimp only at h ⊢
            by_cases hcan : s.CanRead s.iov.flatten.length n
            · rw [if_pos hcan] at h
              rw [if_pos hcan.more, RxState.arrive_more _ hcan.2.2, RxState.recvLen_more]
              by_cases hall : (s.arrive s.iov.flatten n).recvLen = total
              · rw [if_pos hall] at h ⊢
                cases h
                rfl
              · rw [if_neg hall] at h ⊢
                exact ih h
            · rw [if_neg hcan] at h
              cases h
        | closed =>
            cases h
            rfl
        | again => exact ih h
        | reset =>
            cases h
            rfl
        | otherErrno =>
            cases h
            rfl
      · rw [if_pos hdone] at h ⊢
        cases h
        rfl

end TCPSocketOperation

namespace RecvSide

variable {bytes : List UInt8} {message : Option MessageBase} {c c' : RecvSide}
  {answers rest : List ReadAnswer}

theorem parseBody_more (h : parseBody answers c = .returned message c' rest) :
    parseBody answers (c.more bytes) = .returned message (c'.more bytes) rest := by
  have hcall : ∀ {ret rx rest}, TCPSocketOperation.receiveMessage c.totalRecvLen answers
      { c.rx with recvLen := 0 } = .returned ret rx rest →
      TCPSocketOperation.receiveMessage c.totalRecvLen answers
        { (c.more bytes).rx with recvLen := 0 } = .returned ret (rx.more bytes) rest := by
    intro ret rx rest hret
    rw [TCPSocketOperation.receiveMessage] at hret ⊢
    split at hret
    · rename_i hzero
      cases hret
      rw [if_pos hzero]
      rfl
    · rename_i hzero
      rw [if_neg hzero]
      exact TCPSocketOperation.receiveMessageLoop_more hret
  unfold parseBody at h ⊢
  cases hout : TCPSocketOperation.receiveMessage c.totalRecvLen answers
      { c.rx with recvLen := 0 } with
  | pending =>
      rw [hout] at h
      cases h
  | fault =>
      rw [hout] at h
      cases h
  | returned ret rx rest' =>
      rw [hout] at h
      rw [show (c.more bytes).totalRecvLen = c.totalRecvLen from rfl, hcall hout]
      dsimp only at h ⊢
      by_cases hdone : rx.recvLen ≠ c.totalRecvLen
      · rw [if_pos hdone] at h
        rw [if_pos (show (rx.more bytes).recvLen ≠ c.totalRecvLen from hdone)]
        by_cases hret : ret ≠ .ok
        · rw [if_pos hret] at h ⊢
          cases h
          rfl
        · rw [if_neg hret] at h ⊢
          cases h
          rfl
      · rw [if_neg hdone] at h
        rw [if_neg (show ¬ (rx.more bytes).recvLen ≠ c.totalRecvLen from hdone)]
        cases hurl : setUrlForRecvMessage (c.recvMessage.from_.map rx.mem)
            (c.recvMessage.to_.map rx.mem) with
        | none =>
            rw [hurl] at h
            rw [show setUrlForRecvMessage ((c.more bytes).recvMessage.from_.map (rx.more bytes).mem)
              ((c.more bytes).recvMessage.to_.map (rx.more bytes).mem) = none from hurl]
            cases h
            rfl
        | some urls =>
            rw [hurl] at h
            rw [show setUrlForRecvMessage ((c.more bytes).recvMessage.from_.map (rx.more bytes).mem)
              ((c.more bytes).recvMessage.to_.map (rx.more bytes).mem) = some urls from hurl]
            cases h
            rfl

theorem fillRecvMessage_more (h : MessageHeader) (c : RecvSide) :
    (c.more bytes).fillRecvMessage h = (c.fillRecvMessage h).more bytes := by
  by_cases hlimit : h.nameLen > maxKmsgNameLen ∨ h.toLen > maxKmsgToLen ∨
      h.fromLen > maxKmsgFromLen ∨ h.bodyLen > maxKmsgBodyLen
  · rw [fillRecvMessage, fillRecvMessage, if_pos hlimit, if_pos hlimit]
    rfl
  · rw [fillRecvMessage, fillRecvMessage, if_neg hlimit, if_neg hlimit]
    rfl

/-- Behind the header the two calls go on in the same way. -/
theorem strings_more {d : RecvSide} (hd : d = c.more bytes)
    (h : (if c.disconnecting then Parsed.returned none c answers
      else parseBody answers { c with recvState := .kBody }) = .returned message c' rest) :
    (if d.disconnecting then Parsed.returned none d answers
      else parseBody answers { d with recvState := .kBody }) =
        .returned message (c'.more bytes) rest := by
  subst hd
  by_cases hdis : c.disconnecting = true
  · rw [if_pos hdis] at h
    cases h
    exact if_pos hdis
  · rw [if_neg hdis] at h
    exact (if_neg hdis).trans (parseBody_more h)

theorem parseHeader_more (h : parseHeader answers c = .returned message c' rest) :
    parseHeader answers (c.more bytes) = .returned message (c'.more bytes) rest := by
  unfold parseHeader at h ⊢
  cases hout : TCPSocketOperation.receive (headerCells.drop c.recvLen) (sizeofHeader - c.recvLen)
      answers c.rx with
  | pending =>
      rw [hout] at h
      cases h
  | fault =>
      rw [hout] at h
      cases h
  | returned ret rx rest' =>
      rw [hout] at h
      rw [show TCPSocketOperation.receive (headerCells.drop (c.more bytes).recvLen)
        (sizeofHeader - (c.more bytes).recvLen) answers (c.more bytes).rx =
          .returned ret (rx.more bytes) rest' from TCPSocketOperation.receiveLoop_more hout]
      dsimp only at h ⊢
      by_cases hret : ret ≠ .ok
      · rw [if_pos hret] at h ⊢
        cases h
        rfl
      · rw [if_neg hret] at h ⊢
        by_cases hlen : rx.recvLen + c.recvLen ≠ sizeofHeader
        · rw [if_pos hlen] at h
          cases h
          exact if_pos hlen
        · rw [if_neg hlen] at h
          rw [if_neg (show ¬ (rx.more bytes).recvLen + (c.more bytes).recvLen ≠ sizeofHeader from
            hlen)]
          by_cases hmagic : (reorderHeader (headerCells.map rx.mem)).magic ≠ rpcMagicId
          · rw [if_pos hmagic] at h
            cases h
            exact if_pos hmagic
          · rw [if_neg hmagic] at h
            rw [if_neg (show ¬ (reorderHeader (headerCells.map (rx.more bytes).mem)).magic ≠
              rpcMagicId from hmagic)]
            exact strings_more (fillRecvMessage_more _ { c with rx := rx, recvLen := 0 }) h

/-- A call does not look at bytes that it does not read. -/
theorem parseMessage_more (h : parseMessage answers c = .returned message c' rest) :
    parseMessage answers (c.more bytes) = .returned message (c'.more bytes) rest := by
  unfold parseMessage at h ⊢
  rw [show (c.more bytes).recvState = c.recvState from rfl]
  cases hstate : c.recvState with
  | kMsgHeader =>
      rw [hstate] at h
      exact parseHeader_more h
  | kBody =>
      rw [hstate] at h
      exact parseBody_more h

end RecvSide

theorem encodeAll_append (ms ms' : List MessageBase) :
    encodeAll (ms ++ ms') = encodeAll ms ++ encodeAll ms' := by
  rw [encodeAll, List.map_append, List.flatten_append, encodeAll, encodeAll]

/-- One more message is on the way. -/
theorem Receiving.snoc {c : RecvSide} {ms : List MessageBase} {got : Nat} (h : Receiving c ms got)
    (m : MessageBase) : Receiving (c.more m.encode) (ms ++ [m]) got := by
  have hone : encodeAll [m] = m.encode := List.flatten_singleton
  cases h with
  | header h =>
      refine .header ⟨h.live, h.state, h.recvLen, h.short, ?_, ?_, ?_⟩
      · rw [encodeAll_append, List.length_append]
        exact Nat.le_add_right_of_le h.bound
      · show c.rx.stream ++ m.encode = _
        rw [h.stream, encodeAll_append, hone, List.drop_append_of_le_length h.bound]
      · show (headerCells.take got).map c.rx.mem = _
        rw [h.bytes, encodeAll_append, List.take_append_of_le_length h.bound]
  | body h =>
      rename_i m' ms base got
      have hle : got ≤ (m'.payload ++ encodeAll ms).length := by
        rw [List.length_append]
        exact Nat.le_add_right_of_le h.short.le
      rw [List.cons_append]
      refine .body
        ⟨h.live, h.state, h.recvLen, h.message, h.short, h.total, h.iov, ?_, ?_⟩
      · show c.rx.stream ++ m.encode = _
        rw [h.stream, encodeAll_append, hone, ← List.append_assoc,
          List.drop_append_of_le_length hle]
      · show ((List.range' base m'.payload.length).take got).map c.rx.mem = _
        rw [h.bytes, encodeAll_append, ← List.append_assoc, List.take_append_of_le_length hle]

/-! ## A whole `Flush` -/

namespace SendSide

/-- The bytes of the current message that the socket has not accepted. -/
def unsent (c : SendSide) : List UInt8 := c.tx.iov.flatten

/-- What a turn of the loop does to a message that is being sent. -/
structure TurnMoves (c : SendSide) (t : FlushTurn) : Prop where
  left : t.conn.Left
  queue : t.conn.sendMessageQueue = c.sendMessageQueue
  bytes : c.unsent = t.conn.tx.sent.drop c.tx.sent.length ++ t.conn.unsent
  done : t.leave = true → t.conn.connected = true → t.conn.totalSendLen = 0

theorem flushTurn_moves {c : SendSide} {script : List WriteAnswer} {t : FlushTurn} (h : c.Left)
    (hbusy : c.totalSendLen ≠ 0) (hclean : SendCall.Clean (.turn script))
    (ht : c.flushTurn script = some t) : TurnMoves c t := by
  have hnext : c.next = c := by rw [next, if_neg hbusy]
  rw [flushTurn, hnext] at ht
  have htotal : ({ c.tx with sendLen := 0 } : TxState).sendLen + c.tx.iov.flatten.length =
      c.totalSendLen := by
    rw [Nat.zero_add]
    exact h.symm
  have hspec : (TCPSocketOperation.sendMessage c.totalSendLen script c.tx).Sat
      fun ret tx rest => ∃ used, Sent script { c.tx with sendLen := 0 } tx used rest ∧
        TCPSocketOperation.SendEnds c.totalSendLen 0 { c.tx with sendLen := 0 } ret tx used :=
    TCPSocketOperation.sendMessageLoop_spec htotal
  have hkeep : ∀ {tx : TxState}, Sends (writeSum script) { c.tx with sendLen := 0 } tx →
      tx.iov.flatten.length = c.totalSendLen - writeSum script ∧
        c.tx.iov.flatten = tx.sent.drop c.tx.sent.length ++ tx.iov.flatten := by
    intro tx hsends
    refine ⟨by rw [hsends.iov, List.length_drop]; exact congrArg (· - _) h.symm, ?_⟩
    rw [hsends.sent, hsends.iov, List.drop_left, List.take_append_drop]
  split at ht
  · rename_i tx hout
    rw [hout] at hspec
    obtain ⟨used, ⟨hused, hsends⟩, hends⟩ := hspec
    rw [List.append_nil] at hused
    subst hused
    obtain ⟨hlen, hbytes⟩ := hkeep hsends
    have hreport : tx.sendLen = writeSum script := by
      rcases hends with ⟨-, hsendLen, -⟩ | ⟨-, hzero, hsuf⟩ | ⟨hret, -⟩
      · rw [hsendLen, Nat.zero_add]
      · rw [hzero, hclean (Or.inl (by simpa using hsuf))]
      · cases hret
    dsimp only at ht
    split at ht
    · split at ht
      · rename_i hzero
        cases ht
        exact ⟨by show _ - _ = _; rw [hlen, hreport], rfl, hbytes, fun _ _ => hzero⟩
      · cases ht
        exact ⟨by show _ - _ = _; rw [hlen, hreport], rfl, hbytes,
          fun hleave => absurd hleave Bool.false_ne_true⟩
    · cases ht
      refine ⟨?_, rfl, hbytes, fun hleave => absurd hleave Bool.false_ne_true⟩
      show c.totalSendLen = tx.iov.flatten.length
      omega
  · rename_i tx hout
    rw [hout] at hspec
    obtain ⟨used, ⟨hused, hsends⟩, hends⟩ := hspec
    rw [List.append_nil] at hused
    subst hused
    obtain ⟨hlen, hbytes⟩ := hkeep hsends
    have hzero : writeSum script = 0 := by
      rcases hends with ⟨hret, -, -⟩ | ⟨hret, -, -⟩ | ⟨-, hsuf⟩
      · cases hret
      · cases hret
      · exact hclean (Or.inr hsuf)
    cases ht
    refine ⟨?_, rfl, hbytes, fun _ hup => absurd hup Bool.false_ne_true⟩
    show c.totalSendLen = tx.iov.flatten.length
    rw [hlen, hzero, Nat.sub_zero]
  · cases ht

/-- What a call of `Flush` does if no messages are queued: it writes all that is left of the
current one, unless the connection breaks. -/
structure FlushMoves (c c' : SendSide) (bytes : List UInt8) : Prop where
  left : c'.Left
  queue : c'.sendMessageQueue = []
  bytes : c.unsent = bytes ++ c'.unsent
  done : c'.connected = true → c'.totalSendLen = 0

theorem flush_moves {scripts : List (List WriteAnswer)} : ∀ {c c' : SendSide} {bytes : Nat},
    c.Left → c.sendMessageQueue = [] → (∀ script ∈ scripts, SendCall.Clean (.turn script)) →
    flush scripts c = some (bytes, c') → FlushMoves c c' (written scripts c) := by
  induction scripts with
  | nil =>
      intro c c' bytes hleft hqueue _ h
      rw [flush] at h
      split at h
      · cases h
      · rename_i hidle
        cases h
        exact ⟨hleft, hqueue, rfl, fun _ => not_not.mp fun hne => hidle (.inr hne)⟩
  | cons script scripts ih =>
      intro c c' bytes hleft hqueue hclean h
      rw [flush] at h
      split at h
      · rename_i hbusy
        have hne : c.totalSendLen ≠ 0 := hbusy.resolve_left (not_not.mpr hqueue)
        have hnext : c.next = c := by rw [next, if_neg hne]
        obtain ⟨t, ht, h⟩ := Option.bind_eq_some_iff.mp h
        have hturn := flushTurn_moves hleft hne (hclean script (List.mem_cons_self ..)) ht
        have hqueue' : t.conn.sendMessageQueue = [] := hturn.queue.trans hqueue
        rw [written, ht, hnext]
        dsimp only
        by_cases hleave : t.leave = true
        · rw [if_pos hleave] at h
          split at h
          · rename_i hnil
            cases h
            rw [hnil, written, List.append_nil]
            exact ⟨hturn.left, hqueue', hturn.bytes, hturn.done hleave⟩
          · cases h
        · rw [if_neg hleave] at h
          obtain ⟨⟨bytes', c''⟩, hrest, heq⟩ := Option.map_eq_some_iff.mp h
          cases heq
          have hmoves := ih hturn.left hqueue'
            (fun s hs => hclean s (List.mem_cons_of_mem script hs)) hrest
          refine ⟨hmoves.left, hmoves.queue, ?_, hmoves.done⟩
          rw [hturn.bytes, hmoves.bytes, List.append_assoc]
      · cases h

end SendSide

/-! ## The link -/

/-- One direction of a connection. The bytes on the way are those that `receiver` has not read.
`typeKnown` is `recv_message_type` of the receiver, `accepted` are the messages that `Send` has not
dropped and the answers, and `delivered` those that `ParseMessage` has returned. -/
structure Link where
  sender : SendSide := {}
  typeKnown : Bool := false
  receiver : RecvSide
  accepted : List MessageBase := []
  delivered : List MessageBase := []

/-- A call under the `mutex_` of its side, with the answers of the system in it. -/
inductive LinkCall where
  | send (m : MessageBase) (scripts : List (List WriteAnswer))
  /-- The message handler of the side that sends has an answer for its peer. -/
  | reply (m : MessageBase) (scripts : List (List WriteAnswer))
  | write (scripts : List (List WriteAnswer))
  /-- `peek` is what `ReceivePeek` returns, `none` for an error. -/
  | receive (peek : Option Nat) (script : List ReadAnswer)
  deriving DecidableEq, Repr

namespace Link

def fresh (mem : Nat → UInt8) : Link where
  receiver := RecvSide.fresh mem []

/-- `Flush` on the side `c`; what the socket accepts is on the way. -/
def flush (scripts : List (List WriteAnswer)) (c : SendSide) (l : Link) : Option Link :=
  (c.flush scripts).map fun r =>
    { l with sender := r.2, receiver := l.receiver.more (SendSide.written scripts c) }

/-- `CheckMessageType`: nothing is parsed before the first four bytes are there. -/
def checkMessageType (peek : Option Nat) (l : Link) : Link :=
  if l.typeKnown then l
  else
    match peek with
    | none => l
    | some n =>
        if n < rpcMagicId.length then
          if n = 0 then { l with receiver := { l.receiver with disconnecting := true } } else l
        else if l.receiver.rx.stream.take rpcMagicId.length = rpcMagicId then
          { l with typeKnown := true, receiver := { l.receiver with recvState := .kMsgHeader } }
        else l

/-- `Send` drops a message for a full queue or a connection that is not connected. -/
def step (l : Link) : LinkCall → Option Link
  | .send m scripts =>
      if sendMsgQueueLen ≤ l.sender.sendMessageQueue.length ∨ l.sender.connected = false then some l
      else { l with accepted := l.accepted ++ [m] }.flush scripts (l.sender.send m)
  | .reply m scripts =>
      { l with accepted := l.accepted ++ [m] }.flush scripts (l.sender.fillSendMessage m)
  | .write scripts => if l.sender.connected then l.flush scripts l.sender else some l
  | .receive peek script =>
      let l := l.checkMessageType peek
      if l.typeKnown then
        match l.receiver.parseMessage script with
        | .returned message c [] =>
            some { l with receiver := c, delivered := l.delivered ++ message.toList }
        | _ => none
      else some l

/-- No call of `SendMessage` gives up behind bytes that it has sent, the peer does not close the
connection, and the messages are ones that can be received. An answer is for a connection that is
still up. -/
def Orderly (l : Link) : LinkCall → Prop
  | .send m scripts => m.Plain ∧ ∀ script ∈ scripts, SendCall.Clean (.turn script)
  | .reply m scripts =>
      m.Plain ∧ l.sender.connected = true ∧ ∀ script ∈ scripts, SendCall.Clean (.turn script)
  | .write scripts => ∀ script ∈ scripts, SendCall.Clean (.turn script)
  | .receive peek script =>
      (∀ n, peek = some n → 0 < n ∧ n ≤ l.receiver.rx.stream.length) ∧ ∀ r ∈ script, r.Harmless

/-- Between two calls nothing is queued, and while the connection is up nothing is left of the last
message. The receiver is where it would be if all bytes of all messages were on the way. -/
structure Inv (l : Link) : Prop where
  left : l.sender.Left
  queue : l.sender.sendMessageQueue = []
  done : l.sender.connected = true → l.sender.totalSendLen = 0
  unknown : l.typeKnown = false → l.receiver.recvState = .kMsgHeader
  coming : ∃ ms got, l.accepted = l.delivered ++ ms ∧
    Receiving (l.receiver.more l.sender.unsent) ms got
  plain : ∀ m ∈ l.accepted, m.Plain

variable {l l' : Link} {m : MessageBase} {scripts : List (List WriteAnswer)}

theorem Inv.fresh (mem : Nat → UInt8) : Inv (Link.fresh mem) :=
  ⟨rfl, rfl, fun _ => rfl, fun _ => rfl, ⟨[], 0, rfl, receiving_fresh mem []⟩,
    fun _ hm => absurd hm List.not_mem_nil⟩

theorem Inv.unsent_eq_nil (h : Inv l) (hup : l.sender.connected = true) : l.sender.unsent = [] :=
  List.eq_nil_of_length_eq_zero (h.left.symm.trans (h.done hup))

/-- A `Flush` moves bytes from the sender to the receiver. -/
theorem Inv.flush {c : SendSide} (hleft : c.Left) (hqueue : c.sendMessageQueue = [])
    (hclean : ∀ script ∈ scripts, SendCall.Clean (.turn script))
    (hunknown : l.typeKnown = false → l.receiver.recvState = .kMsgHeader)
    (hcoming : ∃ ms got, l.accepted = l.delivered ++ ms ∧
      Receiving (l.receiver.more c.unsent) ms got)
    (hplain : ∀ m ∈ l.accepted, m.Plain) (hflush : l.flush scripts c = some l') : Inv l' := by
  obtain ⟨⟨bytes, c'⟩, hc, rfl⟩ := Option.map_eq_some_iff.mp hflush
  have hmoves := SendSide.flush_moves hleft hqueue hclean hc
  obtain ⟨ms, got, hacc, hrec⟩ := hcoming
  refine ⟨hmoves.left, hmoves.queue, hmoves.done, hunknown, ⟨ms, got, hacc, ?_⟩, hplain⟩
  rw [hmoves.bytes, RecvSide.more_append] at hrec
  exact hrec

/-- A message is filled in when nothing is left of the last one. -/
theorem Inv.fill (h : Inv l) (hm : m.Plain) (hup : l.sender.connected = true)
    (hclean : ∀ script ∈ scripts, SendCall.Clean (.turn script))
    (hflush : { l with accepted := l.accepted ++ [m] }.flush scripts
      (l.sender.fillSendMessage m) = some l') : Inv l' := by
  have hnil := h.unsent_eq_nil hup
  have hfill : (l.sender.fillSendMessage m).unsent = m.encode := by
    rw [SendSide.fillSendMessage, if_pos hm.type]
    rfl
  have hqueue : (l.sender.fillSendMessage m).sendMessageQueue = [] := by
    rw [SendSide.fillSendMessage, if_pos hm.type]
    exact h.queue
  refine Inv.flush (l := { l with accepted := l.accepted ++ [m] })
    (SendSide.left_fillSendMessage h.left m) hqueue hclean h.unknown ?_ ?_ hflush
  · obtain ⟨ms, got, hacc, hrec⟩ := h.coming
    rw [hnil, RecvSide.more_nil] at hrec
    refine ⟨ms ++ [m], got, ?_, ?_⟩
    · show l.accepted ++ [m] = _
      rw [hacc, List.append_assoc]
    · rw [hfill]
      exact hrec.snoc m
  · intro m' hm'
    rcases List.mem_append.mp hm' with hm' | hm'
    · exact h.plain m' hm'
    · rw [List.mem_singleton.mp hm']
      exact hm

theorem Inv.checkMessageType {peek : Option Nat} (h : Inv l) (hpeek : ∀ n, peek = some n → 0 < n) :
    Inv (l.checkMessageType peek) ∧ (l.checkMessageType peek).accepted = l.accepted ∧
      (l.checkMessageType peek).delivered = l.delivered := by
  unfold Link.checkMessageType
  split
  · exact ⟨h, rfl, rfl⟩
  · rename_i hknown
    split
    · exact ⟨h, rfl, rfl⟩
    · rename_i n
      split
      · rw [if_neg (hpeek n rfl).ne']
        exact ⟨h, rfl, rfl⟩
      · split
        · have hstate := h.unknown (Bool.eq_false_iff.mpr hknown)
          have hsame : ({ l.receiver with recvState := .kMsgHeader } : RecvSide) = l.receiver := by
            rw [← hstate]
          rw [hsame]
          exact ⟨⟨h.left, h.queue, h.done, fun hfalse => absurd hfalse.symm Bool.false_ne_true,
            h.coming, h.plain⟩, rfl, rfl⟩
        · exact ⟨h, rfl, rfl⟩

/-- The receiver gets on as if everything was on the way. -/
theorem Inv.parse {script : List ReadAnswer} {message : Option MessageBase} {c : RecvSide}
    (h : Inv l) (hknown : l.typeKnown = true) (hok : ∀ r ∈ script, r.Harmless)
    (hparse : l.receiver.parseMessage script = .returned message c []) :
    Inv { l with receiver := c, delivered := l.delivered ++ message.toList } := by
  obtain ⟨ms, got, hacc, hrec⟩ := h.coming
  have hms : ∀ m ∈ ms, m.Plain := fun m hm => h.plain m (by
    rw [hacc]
    exact List.mem_append_right _ hm)
  have hspec := RecvSide.parseMessage_spec hms hrec hok
  rw [RecvSide.parseMessage_more hparse] at hspec
  have hunknown : l.typeKnown = false → c.recvState = .kMsgHeader := by
    intro hfalse
    rw [hknown] at hfalse
    cases hfalse
  refine ⟨h.left, h.queue, h.done, hunknown, ?_, h.plain⟩
  rcases hspec with ⟨used, -, ⟨rfl, hrec'⟩ | ⟨m, ms', rfl, rfl, -, hheader⟩⟩
  · exact ⟨ms, got + readSum used, by rw [hacc]; simp, hrec'⟩
  · exact ⟨ms', 0, by rw [hacc]; simp, .header hheader⟩

theorem Inv.step {call : LinkCall} (h : Inv l) (hok : l.Orderly call)
    (hs : l.step call = some l') : Inv l' := by
  cases call with
  | send m scripts =>
      rw [Link.step] at hs
      split at hs
      · cases hs
        exact h
      · rename_i hup
        obtain ⟨hroom, hup⟩ := not_or.mp hup
        have hup : l.sender.connected = true := by simpa using hup
        have hsend : l.sender.send m = l.sender.fillSendMessage m := by
          rw [SendSide.send, if_neg hroom, if_neg (by simp [hup]), if_pos (h.done hup)]
        rw [hsend] at hs
        exact h.fill hok.1 hup hok.2 hs
  | reply m scripts => exact h.fill hok.1 hok.2.1 hok.2.2 hs
  | write scripts =>
      rw [Link.step] at hs
      split at hs
      · exact Inv.flush h.left h.queue hok h.unknown h.coming h.plain hs
      · cases hs
        exact h
  | receive peek script =>
      obtain ⟨hcheck, -, -⟩ := h.checkMessageType fun n hn => (hok.1 n hn).1
      rw [Link.step] at hs
      split at hs
      · rename_i hknown
        split at hs
        · rename_i message c hparse
          cases hs
          exact hcheck.parse hknown hok.2 hparse
        · cases hs
      · cases hs
        exact hcheck

/-- In every run of orderly calls (plain messages only, no end of the connection on the side that
receives, no `SendMessage` that gives up in the middle), in whatever order they are made on the two
sides and in whatever pieces the bytes are moved, the messages that `ParseMessage` has returned are
the first of those that have been accepted, in the same order, each once and byte for byte. The
bytes of the others are on the way or still to be sent. `send_message_queue` is empty between the
calls, and as long as the connection is up every accepted message has been written as a whole: when
the receiver has read everything, it has returned all of them. -/
theorem link_delivers {mem : Nat → UInt8} {calls : List LinkCall}
    (hrun : Run (fun l call l' => l.step call = some l' ∧ l.Orderly call)
      (Link.fresh mem) calls l) :
    ∃ pending got, l.accepted = l.delivered ++ pending ∧
      l.receiver.rx.stream ++ l.sender.unsent = (encodeAll pending).drop got ∧
      (∀ m ∈ pending.head?, got < m.encode.length) ∧
      l.sender.sendMessageQueue = [] ∧ l.receiver.disconnecting = false ∧
      (l.sender.connected = true → l.sender.totalSendLen = 0 ∧ l.sender.unsent = [] ∧
        (l.receiver.rx.stream = [] → l.delivered = l.accepted)) := by
  have hinv : Inv l := hrun.state_inv (I := Inv) (Inv.fresh mem)
    fun l call l' h hs => h.step hs.2 hs.1
  obtain ⟨ms, got, hacc, hrec⟩ := hinv.coming
  have hms : ∀ m ∈ ms, m.Plain := fun m hm => hinv.plain m (by
    rw [hacc]
    exact List.mem_append_right _ hm)
  have hstream : l.receiver.rx.stream ++ l.sender.unsent = (encodeAll ms).drop got :=
    hrec.stream hms
  have hshort : ∀ m ∈ ms.head?, got < m.encode.length := by
    intro m hm
    obtain ⟨tail, rfl⟩ := List.head?_eq_some_iff.mp hm
    exact hrec.lt_encode hms
  refine ⟨ms, got, hacc, hstream, hshort, hinv.queue, hrec.live, fun hup => ?_⟩
  have hnil := hinv.unsent_eq_nil hup
  refine ⟨hinv.done hup, hnil, fun hread => ?_⟩
  rw [hread, hnil, List.nil_append, eq_comm, List.drop_eq_nil_iff] at hstream
  cases ms with
  | nil => rw [hacc, List.append_nil]
  | cons m ms =>
      have hlt := hshort m rfl
      rw [encodeAll_cons, List.length_append] at hstream
      omega

def oneByteBody : MessageBase :=
  { from_ := ⟨[], []⟩, to_ := ⟨[], []⟩, name := [], body := [7] }

theorem plain_small {m : MessageBase} (hm : m = oneByteBody ∨ m = SendSide.emptyMessage) :
    m.Plain := by
  rcases hm with rfl | rfl
  · exact ⟨rfl, rfl, by decide, by decide, by decide, by decide, by decide, by decide⟩
  · exact ⟨rfl, rfl, by decide, by decide, by decide, by decide, by decide, by decide⟩

/-- A message is written in two pieces and an answer in one. The receiver sees the magic and a part
of the header first. -/
theorem link_delivers_two :
    ∃ calls l, Run (fun l call l' => l.step call = some l' ∧ l.Orderly call) (Link.fresh fun _ => 0)
        calls l ∧ l.delivered = [oneByteBody, SendSide.emptyMessage] ∧
      ∃ pending got, l.accepted = l.delivered ++ pending ∧
        l.receiver.rx.stream ++ l.sender.unsent = (encodeAll pending).drop got ∧
        (∀ m ∈ pending.head?, got < m.encode.length) ∧
        l.sender.sendMessageQueue = [] ∧ l.receiver.disconnecting = false ∧
        (l.sender.connected = true → l.sender.totalSendLen = 0 ∧ l.sender.unsent = [] ∧
          (l.receiver.rx.stream = [] → l.delivered = l.accepted)) := by
  have hexec : ((Link.fresh fun _ => 0).step
      (.send oneByteBody [[.moved 3, .again, .moved 20]])).bind (fun l₁ =>
        (l₁.step (.receive (some 4) [.moved 10, .again])).bind fun l₂ =>
          (l₂.step (.reply SendSide.emptyMessage [[.moved 22]])).bind fun l₃ =>
            (l₃.step (.receive none [.moved 10, .moved 3])).bind fun l₄ =>
              (l₄.step (.receive none [.moved 20, .moved 2])).map fun l₅ =>
                (l₁.receiver.rx.stream.length, l₂.sender.connected, l₅.delivered)) =
      some (23, true, [oneByteBody, SendSide.emptyMessage]) := by
    decide +kernel
  obtain ⟨l₁, h₁, hexec⟩ := Option.bind_eq_some_iff.mp hexec
  obtain ⟨l₂, h₂, hexec⟩ := Option.bind_eq_some_iff.mp hexec
  obtain ⟨l₃, h₃, hexec⟩ := Option.bind_eq_some_iff.mp hexec
  obtain ⟨l₄, h₄, hexec⟩ := Option.bind_eq_some_iff.mp hexec
  obtain ⟨l₅, h₅, hexec⟩ := Option.map_eq_some_iff.mp hexec
  simp only [Prod.mk.injEq] at hexec
  obtain ⟨hlen, hup, hdelivered⟩ := hexec
  have hclean : ∀ {s : List WriteAnswer}, s = [.moved 3, .again, .moved 20] ∨ s = [.moved 22] →
      SendCall.Clean (.turn s) := by
    rintro s (rfl | rfl)
    · exact SendSide.clean_of_moved (by decide) rfl
    · exact SendSide.clean_of_moved (by decide) rfl
  have hrun₁ : Run (fun l call l' => Link.step l call = some l' ∧ l.Orderly call)
      (Link.fresh fun _ => 0) [] _ := .nil
  have hrun₂ := hrun₁.snoc ⟨h₁, plain_small (.inl rfl), fun s hs =>
    hclean (.inl (List.mem_singleton.mp hs))⟩
  have hrun₃ := hrun₂.snoc ⟨h₂, fun n hn => by cases hn; omega, by simp [ReadAnswer.Harmless]⟩
  have hrun₄ := hrun₃.snoc ⟨h₃, plain_small (.inr rfl), hup, fun s hs =>
    hclean (.inr (List.mem_singleton.mp hs))⟩
  have hrun₅ := hrun₄.snoc ⟨h₄, fun n hn => (by cases hn), by simp [ReadAnswer.Harmless]⟩
  have hrun := hrun₅.snoc ⟨h₅, fun n hn => (by cases hn), by simp [ReadAnswer.Harmless]⟩
  exact ⟨_, l₅, hrun, hdelivered, link_delivers hrun⟩

end Link

end Ccbase.Net

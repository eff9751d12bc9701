import Ccbase.Lib.Run
import Ccbase.Lib.SizeT
import Ccbase.Net.Message
import Ccbase.Net.Transfer

/-!
# `Connection::Flush` over TCP

The sending side of a connection keeps two accounts of the current message: the
iovecs, which `SendMessage` advances, and `total_send_len`, from which `Flush`
takes what `SendMessage` reports. A run is made of the turns of the loop in
`Flush`, with the results of `sendmsg` in each of them, and of the places that
give the connection a new message.

`SendMessage` reports nothing when it gives up after `EAGAIN_RETRY` times
`EAGAIN`, and it is not asked when it fails. If bytes have been accepted in that
call, the two accounts differ from then on.
-/

namespace Ccbase.Net

open Ccbase.Lib

/-- `SENDMSG_QUEUELEN`. -/
def sendMsgQueueLen : Nat := 1024

/-- `tx` is `send_kernel_msg` and the bytes of the current message that the
socket has accepted; `encoding` are all bytes of that message. -/
structure SendSide where
  connected : Bool := true
  sendMessageQueue : List MessageBase := []
  sendMessage : Option MessageBase := none
  totalSendLen : Nat := 0
  outputBufferSize : Nat := 0
  tx : TxState := { iov := [] }
  encoding : List UInt8 := []
  deriving DecidableEq, Repr

/-- One turn of the loop in `Flush`: what `SendMessage` has returned, if the loop
is left, and what is added to `total_send_bytes`. -/
structure FlushTurn where
  ret : IoRet
  leave : Bool
  bytes : Nat := 0
  conn : SendSide
  deriving DecidableEq, Repr

namespace SendSide

/-- `FillSendMessage` with `isHttpKmsg` unset. -/
def fillSendMessage (m : MessageBase) (c : SendSide) : SendSide :=
  if m.type = .kmsg then
    { c with
      tx := { iov := m.ioVec }
      totalSendLen := sizeofHeader + m.name.length + m.to_.str.length + m.from_.str.length +
        m.realData.length
      sendMessage := some m
      encoding := m.encode }
  else c

/-- The condition of the loop in `Flush`. -/
def Busy (c : SendSide) : Prop := c.sendMessageQueue ≠ [] ∨ c.totalSendLen ≠ 0

instance (c : SendSide) : Decidable c.Busy := inferInstanceAs (Decidable (_ ∨ _))

/-- The next message is taken from the queue when nothing is left of the last. -/
def next (c : SendSide) : SendSide :=
  if c.totalSendLen = 0 then
    match c.sendMessageQueue with
    | [] => c
    | m :: queue => { c.fillSendMessage m with sendMessageQueue := queue }
  else c

/-- `script` are the results of `sendmsg` in this turn. -/
def flushTurn (script : List WriteAnswer) (c : SendSide) : Option FlushTurn :=
  let c := c.next
  match TCPSocketOperation.sendMessage c.totalSendLen script c.tx with
  | .returned .ok tx [] =>
      let c := { c with tx := tx }
      if 0 < tx.sendLen then
        let c := { c with totalSendLen := c.totalSendLen - tx.sendLen }
        if c.totalSendLen = 0 then
          let realDataSize := (c.sendMessage.map fun m => m.realData.length).getD 0
          some
            { ret := .ok, leave := true, bytes := realDataSize
              conn :=
                { c with
                  outputBufferSize := subSize c.outputBufferSize realDataSize
                  sendMessage := none } }
        else some { ret := .ok, leave := false, conn := c }
      else some { ret := .ok, leave := false, conn := c }
  | .returned .error tx [] =>
      some { ret := .error, leave := true, conn := { c with tx := tx, connected := false } }
  | _ => none

/-- `Flush`, with one script for each turn of the loop. -/
def flush : List (List WriteAnswer) → SendSide → Option (Nat × SendSide)
  | [], c => if c.Busy then none else some (0, c)
  | script :: scripts, c =>
      if c.Busy then
        (flushTurn script c).bind fun t =>
          if t.leave then if scripts = [] then some (t.bytes, t.conn) else none
          else (flush scripts t.conn).map fun r => (t.bytes + r.1, r.2)
      else none

/-- The part of `TCPComm::Send` before `Flush`. -/
def send (m : MessageBase) (c : SendSide) : SendSide :=
  if sendMsgQueueLen ≤ c.sendMessageQueue.length then c
  else if c.connected = false then c
  else if c.totalSendLen = 0 then c.fillSendMessage m
  else { c with sendMessageQueue := c.sendMessageQueue ++ [m] }

end SendSide

/-- What can happen to the sending side of a connection. -/
inductive SendCall where
  | send (m : MessageBase)
  /-- `Connection::ReceiveMessage` fills in the answer of the message handler,
  whatever is being sent. -/
  | reply (m : MessageBase)
  | turn (script : List WriteAnswer)
  deriving DecidableEq, Repr

def SendSide.step (c : SendSide) : SendCall → Option SendSide
  | .send m => some (c.send m)
  | .reply m => some (c.fillSendMessage m)
  | .turn script => if c.Busy then (c.flushTurn script).map FlushTurn.conn else none

/-- The two accounts agree: `total_send_len` is what is left in the iovecs, and
together with what has been accepted that is the message. -/
structure SendSide.Tracks (c : SendSide) : Prop where
  left : c.totalSendLen = c.tx.iov.flatten.length
  whole : c.tx.sent ++ c.tx.iov.flatten = c.encoding

/-- A call of `SendMessage` that gives up, after too many `EAGAIN` or on an
error, has had no byte accepted. -/
def SendCall.Clean : SendCall → Prop
  | .turn script =>
      List.replicate eagainRetry .again <:+ script ∨ [.failed] <:+ script → writeSum script = 0
  | .send _ => True
  | .reply _ => True

namespace SendSide

theorem tracks_fillSendMessage {c : SendSide} (h : c.Tracks) (m : MessageBase) :
    (c.fillSendMessage m).Tracks := by
  rw [fillSendMessage]
  split
  · refine ⟨?_, rfl⟩
    exact m.length_encode.symm
  · exact h

theorem tracks_next {c : SendSide} (h : c.Tracks) : c.next.Tracks := by
  rw [next]
  split
  · split
    · exact h
    · rename_i m queue _
      exact ⟨(tracks_fillSendMessage h m).left, (tracks_fillSendMessage h m).whole⟩
  · exact h

theorem tracks_send {c : SendSide} (h : c.Tracks) (m : MessageBase) : (c.send m).Tracks := by
  rw [send]
  split
  · exact h
  · split
    · exact h
    · split
      · exact tracks_fillSendMessage h m
      · exact ⟨h.left, h.whole⟩

/-- What a turn takes from `total_send_len` is what has left the iovecs. -/
theorem tracks_flushTurn {c : SendSide} {script : List WriteAnswer} {t : FlushTurn}
    (h : c.Tracks) (hclean : SendCall.Clean (.turn script)) (ht : c.flushTurn script = some t) :
    t.conn.Tracks := by
  have hnext := tracks_next h
  rw [flushTurn] at ht
  generalize c.next = c at hnext ht
  have htotal : ({ c.tx with sendLen := 0 } : TxState).sendLen + c.tx.iov.flatten.length =
      c.totalSendLen := by
    rw [Nat.zero_add]
    exact hnext.left.symm
  have hspec : (TCPSocketOperation.sendMessage c.totalSendLen script c.tx).Sat
      fun ret tx rest => ∃ used, Sent script { c.tx with sendLen := 0 } tx used rest ∧
        TCPSocketOperation.SendEnds c.totalSendLen 0 { c.tx with sendLen := 0 } ret tx used :=
    TCPSocketOperation.sendMessageLoop_spec htotal
  -- a call that moves nothing or reports what it moves keeps the accounts
  have hkeep : ∀ {tx : TxState}, Sends (writeSum script) { c.tx with sendLen := 0 } tx →
      tx.iov.flatten.length = c.totalSendLen - writeSum script ∧
        tx.sent ++ tx.iov.flatten = c.encoding := by
    intro tx hsends
    refine ⟨by rw [hsends.iov, List.length_drop, hnext.left], ?_⟩
    rw [hsends.conserves]
    exact hnext.whole
  split at ht
  · rename_i tx hout
    rw [hout] at hspec
    obtain ⟨used, hsent, hends⟩ := hspec
    obtain ⟨hused, hsends⟩ := hsent
    rw [List.append_nil] at hused
    subst hused
    obtain ⟨hlen, hwhole⟩ := hkeep hsends
    have hreport : tx.sendLen = writeSum script := by
      rcases hends with ⟨-, hsendLen, -⟩ | ⟨-, hzero, hsuf⟩ | ⟨hret, -⟩
      · rw [hsendLen, Nat.zero_add]
      · rw [hzero, hclean (Or.inl (by simpa using hsuf))]
      · cases hret
    dsimp only at ht
    split at ht
    · split at ht
      · obtain rfl := Option.some.inj ht
        exact ⟨by rw [hlen, hreport], hwhole⟩
      · obtain rfl := Option.some.inj ht
        exact ⟨by rw [hlen, hreport], hwhole⟩
    · obtain rfl := Option.some.inj ht
      refine ⟨?_, hwhole⟩
      show c.totalSendLen = tx.iov.flatten.length
      omega
  · rename_i tx hout
    rw [hout] at hspec
    obtain ⟨used, hsent, hends⟩ := hspec
    obtain ⟨hused, hsends⟩ := hsent
    rw [List.append_nil] at hused
    subst hused
    obtain ⟨hlen, hwhole⟩ := hkeep hsends
    have hzero : writeSum script = 0 := by
      rcases hends with ⟨hret, -, -⟩ | ⟨hret, -, -⟩ | ⟨-, hsuf⟩
      · cases hret
      · cases hret
      · exact hclean (Or.inr hsuf)
    obtain rfl := Option.some.inj ht
    exact ⟨by rw [hlen, hzero, Nat.sub_zero], hwhole⟩
  · cases ht

/-- `Flush` is its turns. -/
theorem run_of_flush : ∀ {scripts : List (List WriteAnswer)} {c c' : SendSide} {bytes : Nat},
    flush scripts c = some (bytes, c') →
    Run (fun c l c' => c.step l = some c') c (scripts.map .turn) c' := by
  intro scripts
  induction scripts with
  | nil =>
      intro c c' bytes h
      rw [flush] at h
      split at h
      · cases h
      · cases h
        exact .nil
  | cons script scripts ih =>
      intro c c' bytes h
      rw [flush] at h
      split at h
      · rename_i hbusy
        obtain ⟨t, ht, h⟩ := Option.bind_eq_some_iff.mp h
        have hstep : c.step (.turn script) = some t.conn := by
          rw [step, if_pos hbusy, ht, Option.map_some]
        split at h
        · split at h
          · rename_i hnil
            cases h
            rw [hnil]
            exact Run.single hstep
          · cases h
        · obtain ⟨r, hr, h⟩ := Option.map_eq_some_iff.mp h
          cases h
          exact (Run.single hstep).append (ih hr)
      · cases h

/-- In every run in which a call of `SendMessage` that gives up has had no byte
accepted, `total_send_len` is the number of bytes that the socket has not
accepted yet, and the accepted ones are the beginning of the message. -/
theorem sendLen_tracks_iovecs {calls : List SendCall} {c : SendSide}
    (h : Run (fun c l c' => SendSide.step c l = some c' ∧ l.Clean) {} calls c) : c.Tracks := by
  refine h.state_inv ⟨rfl, rfl⟩ ?_
  rintro c l c' htracks ⟨hstep, hclean⟩
  cases l with
  | send m =>
      cases hstep
      exact tracks_send htracks m
  | reply m =>
      cases hstep
      exact tracks_fillSendMessage htracks m
  | turn script =>
      rw [step] at hstep
      split at hstep
      · obtain ⟨t, ht, rfl⟩ := Option.map_eq_some_iff.mp hstep
        exact tracks_flushTurn htracks hclean ht
      · cases hstep

/-- A message with nothing in it: twenty bytes of header and two separators. -/
def emptyMessage : MessageBase :=
  { from_ := ⟨[], []⟩, to_ := ⟨[], []⟩, name := [], body := [] }

/-- A script that moves bytes is clean if it ends neither way. -/
theorem clean_of_moved {script : List WriteAnswer} {n : Nat}
    (hlen : script.length < eagainRetry) (hlast : script.getLast? = some (.moved n)) :
    SendCall.Clean (.turn script) := by
  rintro (hsuf | hsuf)
  · have hle := hsuf.length_le
    rw [List.length_replicate] at hle
    omega
  · obtain ⟨pre, rfl⟩ := hsuf
    rw [List.getLast?_concat] at hlast
    cases hlast

theorem sendLen_tracks_iovecs_two :
    ∃ c, Run (fun c l c' => SendSide.step c l = some c' ∧ l.Clean) {}
      [.send emptyMessage, .turn [.moved 3, .again, .moved 19]] c ∧
      c.Tracks ∧ c.tx.sent = emptyMessage.encode := by
  have hsend : SendSide.step {} (.send emptyMessage) =
      some (SendSide.fillSendMessage emptyMessage {}) := rfl
  have hsome : ((SendSide.fillSendMessage emptyMessage {}).step
      (.turn [.moved 3, .again, .moved 19])).isSome := by decide
  obtain ⟨c, hturn⟩ := Option.isSome_iff_exists.mp hsome
  have hrun : Run (fun c l c' => SendSide.step c l = some c' ∧ l.Clean) {}
      [.send emptyMessage, .turn [.moved 3, .again, .moved 19]] c :=
    (Run.single ⟨hsend, trivial⟩).snoc ⟨hturn, clean_of_moved (by decide) rfl⟩
  have hsent : ((SendSide.fillSendMessage emptyMessage {}).step
      (.turn [.moved 3, .again, .moved 19])).map (fun c => c.tx.sent) =
        some emptyMessage.encode := by
    decide
  rw [hturn, Option.map_some] at hsent
  exact ⟨c, hrun, sendLen_tracks_iovecs hrun, Option.some.inj hsent⟩

/-- `EAGAIN` until `SendMessage` gives up. -/
theorem sendMessageLoop_exhausted {total k : Nat} :
    ∀ {eagainCount : Nat} {s : TxState}, s.sendLen ≠ total → 0 < k →
      eagainCount + k = eagainRetry →
      TCPSocketOperation.sendMessageLoop total (List.replicate k .again) eagainCount s =
        .returned .ok { s with sendLen := 0 } [] := by
  induction k with
  | zero =>
      intro eagainCount s _ hpos _
      exact absurd hpos (Nat.lt_irrefl 0)
  | succ k ih =>
      intro eagainCount s hne _ hsum
      rw [List.replicate_succ, TCPSocketOperation.sendMessageLoop, if_neg hne]
      by_cases hk : k = 0
      · subst hk
        rw [if_pos hsum]
        rfl
      · rw [if_neg (by omega)]
        exact ih hne (by omega) (by omega)

/-- What is left of the empty message after one byte. -/
def oneByteSent : TxState where
  iov := TCPSocketOperation.advanceSend 1 emptyMessage.ioVec
  sent := emptyMessage.encode.take 1

/-- One byte is accepted, and then the socket is full for as long as
`SendMessage` waits: `Flush` goes on with a count that is one too large. -/
theorem exhausted_retry_desynchronises :
    ¬ ∀ calls c script c', Run (fun c l c' => SendSide.step c l = some c') {} calls c →
      c.Busy → (∃ t, c.flushTurn script = some t ∧ t.ret = .ok ∧ t.conn = c') → c'.Tracks := by
  intro hall
  have hrun : Run (fun c l c' => SendSide.step c l = some c') {} [.send emptyMessage]
      (SendSide.fillSendMessage emptyMessage {}) := Run.single rfl
  have hout : TCPSocketOperation.sendMessage 22 (.moved 1 :: List.replicate eagainRetry .again)
      { iov := emptyMessage.ioVec } = .returned .ok oneByteSent [] := by
    rw [TCPSocketOperation.sendMessage, TCPSocketOperation.sendMessageLoop, if_neg (by decide),
      if_pos (by decide)]
    simp only [if_neg (show ¬ (TxState.accept emptyMessage.ioVec.flatten 1
      { iov := emptyMessage.ioVec }).sendLen = 22 by decide)]
    exact sendMessageLoop_exhausted (by decide) (by decide) (Nat.zero_add _)
  have hturn : (SendSide.fillSendMessage emptyMessage {}).flushTurn
      (.moved 1 :: List.replicate eagainRetry .again) =
        some { ret := .ok, leave := false
               conn := { SendSide.fillSendMessage emptyMessage {} with tx := oneByteSent } } := by
    have hnext : (SendSide.fillSendMessage emptyMessage {}).next =
        SendSide.fillSendMessage emptyMessage {} := by decide
    have htotal : (SendSide.fillSendMessage emptyMessage {}).totalSendLen = 22 := by decide
    have htx : (SendSide.fillSendMessage emptyMessage {}).tx = { iov := emptyMessage.ioVec } := by
      decide
    rw [flushTurn, hnext]
    simp only [htotal, htx, hout, if_neg (show ¬ 0 < oneByteSent.sendLen by decide)]
  have htracks := hall _ _ _ _ hrun (by decide) ⟨_, hturn, rfl, rfl⟩
  exact absurd htracks.left (by decide)

end SendSide

end Ccbase.Net

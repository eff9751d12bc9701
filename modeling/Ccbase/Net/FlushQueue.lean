import Ccbase.Net.Flush

/-!
# What `Connection::Flush` leaves in the queue

With a socket that always accepts something `SendMessage` sends all of a message.
`Flush` then leaves its loop, also if there are more messages; the loop goes on
only behind a message that `FillSendMessage` does not fill in.
-/

namespace Ccbase.Net

open Ccbase.Lib

/-- The socket accepts at least one byte each time, and never errs. -/
def Accepting (script : List WriteAnswer) : Prop := ∀ a ∈ script, ∃ n, 0 < n ∧ a = .moved n

/-- The bytes that a message is sent as; only `KMSG` messages are. -/
def MessageBase.wire (m : MessageBase) : List UInt8 := if m.type = .kmsg then m.encode else []

namespace SendSide

/-- The bytes that the socket has accepted in a call of `Flush`. -/
def written : List (List WriteAnswer) → SendSide → List UInt8
  | [], _ => []
  | script :: scripts, c =>
      match c.flushTurn script with
      | some t => t.conn.tx.sent.drop c.next.tx.sent.length ++ written scripts t.conn
      | none => []

/-- `total_send_len` is what is left in the iovecs. -/
def Left (c : SendSide) : Prop := c.totalSendLen = c.tx.iov.flatten.length

/-- All messages have been sent. -/
structure Flushed (c c' : SendSide) (bytes : List UInt8) : Prop where
  queue : c'.sendMessageQueue = []
  total : c'.totalSendLen = 0
  bytes : bytes = c.tx.iov.flatten ++ (c.sendMessageQueue.map MessageBase.wire).flatten

/-- There is no message behind the one that is sent next. -/
def OneMessage (c : SendSide) : Prop :=
  if c.totalSendLen = 0 then ∀ m ∈ c.sendMessageQueue.dropLast, m.type ≠ .kmsg
  else c.sendMessageQueue = []

/-! ## A turn -/

theorem left_fillSendMessage {c : SendSide} (h : c.Left) (m : MessageBase) :
    (c.fillSendMessage m).Left := by
  rw [fillSendMessage]
  split
  · exact m.length_encode.symm
  · exact h

theorem left_next {c : SendSide} (h : c.Left) : c.next.Left := by
  rw [next]
  split
  · split
    · exact h
    · exact left_fillSendMessage h _
  · exact h

/-- `SendMessage` comes back with everything sent. -/
theorem sendMessage_accepting {tx tx' : TxState} {script rest : List WriteAnswer} {ret : IoRet}
    (hacc : Accepting script)
    (h : TCPSocketOperation.sendMessage tx.iov.flatten.length script tx = .returned ret tx' rest) :
    ret = .ok ∧ tx'.sendLen = tx.iov.flatten.length ∧ tx'.sent = tx.sent ++ tx.iov.flatten ∧
      tx'.iov.flatten = [] := by
  have hspec := @TCPSocketOperation.sendMessageLoop_spec _ script 0 { tx with sendLen := 0 }
    (Nat.zero_add tx.iov.flatten.length)
  rw [TCPSocketOperation.sendMessage] at h
  rw [h] at hspec
  obtain ⟨used, ⟨hused, hsends⟩, hends⟩ := hspec
  have hmoved : ∀ a ∈ used, ∃ n, 0 < n ∧ a = .moved n :=
    fun a ha => hacc a (by rw [hused]; exact List.mem_append_left _ ha)
  rcases hends with ⟨hret, hsum, htotal⟩ | ⟨-, -, hsuf⟩ | ⟨-, hsuf⟩
  · have hall : writeSum used = tx.iov.flatten.length := by
      rw [htotal] at hsum
      exact (hsum.trans (Nat.zero_add _)).symm
    rw [hall] at hsends
    refine ⟨hret, htotal, ?_, ?_⟩
    · rw [hsends.sent, List.take_length]
    · rw [hsends.iov, List.drop_length]
  · have hagain : WriteAnswer.again ∈ used := by
      refine hsuf.subset (List.mem_replicate.mpr ⟨by decide, rfl⟩)
    obtain ⟨n, -, hn⟩ := hmoved _ hagain
    cases hn
  · obtain ⟨n, -, hn⟩ := hmoved _ (hsuf.subset (List.mem_singleton.mpr rfl))
    cases hn

/-- A turn sends what there is to send and ends the loop, and goes on if there is
nothing. -/
structure TurnSends (d : SendSide) (t : FlushTurn) : Prop where
  leave : t.leave = decide (d.totalSendLen ≠ 0)
  queue : t.conn.sendMessageQueue = d.sendMessageQueue
  total : t.conn.totalSendLen = 0
  sent : t.conn.tx.sent = d.tx.sent ++ d.tx.iov.flatten
  iov : t.conn.tx.iov.flatten = []

theorem flushTurn_accepting {c : SendSide} {script : List WriteAnswer} {t : FlushTurn}
    (hleft : c.Left) (hacc : Accepting script) (ht : c.flushTurn script = some t) :
    TurnSends c.next t := by
  have hnext := left_next hleft
  rw [flushTurn] at ht
  generalize c.next = d at hnext ht ⊢
  dsimp only at ht
  rw [show d.totalSendLen = d.tx.iov.flatten.length from hnext] at ht
  split at ht
  · rename_i tx hout
    obtain ⟨-, hlen, hsent, hiov⟩ := sendMessage_accepting hacc hout
    rw [hlen, Nat.sub_self] at ht
    by_cases hzero : d.tx.iov.flatten.length = 0
    · rw [if_neg (by omega)] at ht
      cases ht
      exact ⟨by rw [show d.totalSendLen = _ from hnext, hzero]; rfl, rfl, hzero, hsent, hiov⟩
    · rw [if_pos (by omega), if_pos rfl] at ht
      cases ht
      exact ⟨by rw [show d.totalSendLen = _ from hnext]; exact (decide_eq_true hzero).symm,
        rfl, rfl,
        hsent, hiov⟩
  · rename_i tx hout
    obtain ⟨hret, -⟩ := sendMessage_accepting hacc hout
    cases hret
  · cases ht

/-- The bytes of a turn. -/
theorem TurnSends.drop {d : SendSide} {t : FlushTurn} (h : TurnSends d t) :
    t.conn.tx.sent.drop d.tx.sent.length = d.tx.iov.flatten := by
  rw [h.sent, List.drop_left]

/-! ## A call -/

/-- What a call of `Flush` writes and what it leaves in the queue: it stops behind
the first message that is sent. -/
def flushed (c : SendSide) : List UInt8 × List MessageBase :=
  if c.totalSendLen ≠ 0 then (c.tx.iov.flatten, c.sendMessageQueue)
  else
    match c.sendMessageQueue.dropWhile fun m => m.type ≠ .kmsg with
    | [] => ([], [])
    | m :: queue => (m.encode, queue)

theorem flush_accepting : ∀ {scripts : List (List WriteAnswer)} {c c' : SendSide} {bytes : Nat},
    c.Left → (∀ script ∈ scripts, Accepting script) → flush scripts c = some (bytes, c') →
    (written scripts c, c'.sendMessageQueue) = c.flushed ∧ c'.totalSendLen = 0 := by
  intro scripts
  induction scripts with
  | nil =>
      intro c c' bytes _ _ h
      rw [flush] at h
      split at h
      · cases h
      · rename_i hidle
        cases h
        rw [Busy, not_or, not_not, not_not] at hidle
        obtain ⟨hqueue, htotal⟩ := hidle
        rw [flushed, if_neg (not_not.mpr htotal), hqueue]
        exact ⟨rfl, htotal⟩
  | cons script scripts ih =>
      intro c c' bytes hleft hacc h
      rw [flush] at h
      split at h
      swap
      · cases h
      rename_i hbusy
      obtain ⟨t, ht, h⟩ := Option.bind_eq_some_iff.mp h
      have hturn := flushTurn_accepting hleft (hacc script (List.mem_cons_self ..)) ht
      rw [written, ht]
      dsimp only
      rw [hturn.drop]
      by_cases hstop : c.next.totalSendLen = 0
      · -- nothing to send: the message in front has another type
        have hgo : t.leave = false := by rw [hturn.leave, hstop]; rfl
        rw [hgo, if_neg Bool.false_ne_true] at h
        obtain ⟨⟨bytes', c''⟩, hrest, heq⟩ := Option.map_eq_some_iff.mp h
        cases heq
        have hleft' : t.conn.Left := by
          rw [Left, hturn.total, hturn.iov, List.length_nil]
        obtain ⟨hpair, htotal'⟩ := ih hleft'
          (fun s hs => hacc s (List.mem_cons_of_mem script hs)) hrest
        refine ⟨?_, htotal'⟩
        have htotal : c.totalSendLen = 0 := by
          by_contra hne
          rw [next, if_neg hne] at hstop
          exact hne hstop
        have hiov : c.next.tx.iov.flatten = [] :=
          List.eq_nil_of_length_eq_zero ((left_next hleft).symm.trans hstop)
        rw [hiov, List.nil_append, hpair, flushed, flushed, if_neg (not_not.mpr hturn.total),
          if_neg (not_not.mpr htotal), hturn.queue]
        rw [next, if_pos htotal] at hstop ⊢
        cases hqueue : c.sendMessageQueue with
        | nil => exact absurd (hbusy.resolve_right (not_not.mpr htotal)) (not_not.mpr hqueue)
        | cons m queue =>
            rw [hqueue] at hstop
            dsimp only at hstop ⊢
            have htype : m.type ≠ .kmsg := by
              intro hkmsg
              rw [fillSendMessage, if_pos hkmsg] at hstop
              dsimp only at hstop
              rw [sizeofHeader] at hstop
              omega
            rw [List.dropWhile_cons_of_pos (by simpa using htype)]
      · have hleave : t.leave = true := by rw [hturn.leave, decide_eq_true hstop]
        rw [hleave, if_pos rfl] at h
        split at h
        · rename_i hnil
          cases h
          refine ⟨?_, hturn.total⟩
          rw [hnil, written, List.append_nil, hturn.queue, flushed]
          by_cases htotal : c.totalSendLen = 0
          · rw [if_neg (not_not.mpr htotal)]
            rw [next, if_pos htotal] at hstop ⊢
            cases hqueue : c.sendMessageQueue with
            | nil =>
                rw [hqueue] at hstop
                exact absurd htotal hstop
            | cons m queue =>
                rw [hqueue] at hstop
                dsimp only at hstop ⊢
                have htype : m.type = .kmsg := by
                  by_contra hne
                  rw [fillSendMessage, if_neg hne] at hstop
                  exact hstop htotal
                rw [List.dropWhile_cons_of_neg (by simpa using htype), fillSendMessage,
                  if_pos htype]
                rfl
          · rw [if_pos htotal, next, if_neg htotal]
        · cases h

theorem oneMessage_iff_queue : ∀ {queue : List MessageBase},
    ((queue.dropWhile fun m => m.type ≠ .kmsg).tail = [] ∧
      ((queue.dropWhile fun m => m.type ≠ .kmsg).head?.map MessageBase.encode).getD [] =
        (queue.map MessageBase.wire).flatten) ↔
      ∀ m ∈ queue.dropLast, m.type ≠ .kmsg := by
  intro queue
  induction queue with
  | nil => simp
  | cons m queue ih =>
      by_cases htype : m.type = .kmsg
      · rw [List.dropWhile_cons_of_neg (by simpa using htype)]
        rw [List.tail_cons, List.head?_cons, Option.map_some, Option.getD_some, List.map_cons,
          List.flatten_cons, MessageBase.wire, if_pos htype]
        constructor
        · rintro ⟨rfl, -⟩
          exact nofun
        · intro hall
          cases queue with
          | nil => exact ⟨rfl, by simp⟩
          | cons m' queue => exact absurd htype (hall m (List.mem_cons_self ..))
      · rw [List.dropWhile_cons_of_pos (by simpa using htype), List.map_cons, List.flatten_cons,
          MessageBase.wire, if_neg htype, List.nil_append]
        cases queue with
        | nil => simp
        | cons m' queue =>
            rw [List.dropLast_cons_cons, List.forall_mem_cons, ih]
            exact ⟨fun h => ⟨htype, h⟩, fun h => h.2⟩

/-- When `Flush` returns, everything in the queue has been sent, exactly if there
was at most one message to send. -/
theorem flushed_iff_oneMessage {scripts : List (List WriteAnswer)} {c c' : SendSide} {bytes : Nat}
    (hleft : c.Left) (hacc : ∀ script ∈ scripts, Accepting script)
    (h : flush scripts c = some (bytes, c')) :
    Flushed c c' (written scripts c) ↔ c.OneMessage := by
  obtain ⟨hpair, htotal⟩ := flush_accepting hleft hacc h
  have hflushed : Flushed c c' (written scripts c) ↔ c.flushed.2 = [] ∧
      c.flushed.1 = c.tx.iov.flatten ++ (c.sendMessageQueue.map MessageBase.wire).flatten := by
    rw [← hpair]
    exact ⟨fun hf => ⟨hf.queue, hf.bytes⟩, fun hf => ⟨hf.1, htotal, hf.2⟩⟩
  rw [hflushed, flushed, OneMessage]
  by_cases hzero : c.totalSendLen = 0
  · have hiov : c.tx.iov.flatten = [] := List.eq_nil_of_length_eq_zero (hleft.symm.trans hzero)
    rw [if_neg (not_not.mpr hzero), if_pos hzero, hiov, List.nil_append, ← oneMessage_iff_queue]
    cases c.sendMessageQueue.dropWhile fun m => m.type ≠ .kmsg with
    | nil => rfl
    | cons m queue => rfl
  · rw [if_pos hzero, if_neg hzero]
    constructor
    · exact fun hf => hf.1
    · intro hnil
      exact ⟨hnil, by rw [hnil]; simp⟩

/-- One message is accepted in two pieces. -/
theorem flushed_iff_oneMessage_one :
    ∃ bytes c', flush [[.moved 3, .moved 19]] { sendMessageQueue := [emptyMessage] } =
      some (bytes, c') ∧ Flushed { sendMessageQueue := [emptyMessage] } c' emptyMessage.encode := by
  have hsome : (flush [[.moved 3, .moved 19]] { sendMessageQueue := [emptyMessage] }).isSome := by
    decide
  obtain ⟨⟨bytes, c'⟩, hflush⟩ := Option.isSome_iff_exists.mp hsome
  have hwritten : written [[.moved 3, .moved 19]] { sendMessageQueue := [emptyMessage] } =
      emptyMessage.encode := by
    decide
  refine ⟨bytes, c', hflush, ?_⟩
  rw [← hwritten]
  refine (flushed_iff_oneMessage (by rfl) ?_ hflush).mpr nofun
  simp [Accepting]

/-- Of two messages one stays in the queue. -/
theorem flush_strands_second :
    ¬ ∀ scripts c bytes c', c.Left → (∀ script ∈ scripts, Accepting script) →
      flush scripts c = some (bytes, c') → c'.connected = true →
      Flushed c c' (written scripts c) := by
  intro hall
  have heval : (flush [[.moved 22]] { sendMessageQueue := [emptyMessage, emptyMessage] }).map
      (fun r => (r.2.connected, r.2.sendMessageQueue)) = some (true, [emptyMessage]) := by
    decide
  obtain ⟨⟨bytes, c'⟩, hflush, hpair⟩ := Option.map_eq_some_iff.mp heval
  rw [Prod.mk.injEq] at hpair
  have hqueue := (hall _ _ bytes c' (by rfl) (by simp [Accepting]) hflush hpair.1).queue
  rw [hpair.2] at hqueue
  cases hqueue

end SendSide

end Ccbase.Net

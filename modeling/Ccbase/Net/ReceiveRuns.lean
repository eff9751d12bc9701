import Ccbase.Net.ReceiveMessage

/-!
# Runs of the receiver

What a connection does with an arbitrary stream. `Reading` follows a run from
outside: the bytes that have been taken from the stream since the last message
was handed over, and what the callback has answered for the current message. As
long as the connection is not in `kDisconnecting` the receiver is in one of three
places: in a header, in the strings of a message, or `Stuck` behind a message
that `SetUrlForRecvMessage` has refused.
-/

namespace Ccbase.Net

open Ccbase.Lib

/-! ## The first answer -/

/-- The system does not say `EAGAIN` or fail for another reason at first: there
are bytes to read, or the connection is gone. An answer of zero bytes is
`closed`, also if there was no room to put any. -/
def Answered (answers : List ReadAnswer) : Prop :=
  ∀ r ∈ answers.head?, r ≠ .again ∧ r ≠ .otherErrno

theorem Received.length_le {answers rest : List ReadAnswer} {cells cells' : List Nat}
    {s s' : RxState} (h : Received answers cells s cells' s' rest) :
    s'.stream.length ≤ s.stream.length := by
  obtain ⟨used, -, hreads⟩ := h
  rw [hreads.stream, List.length_drop]
  omega

@[simp] theorem RxState.recvLen_arrive (cells : List Nat) (n : Nat) (s : RxState) :
    (s.arrive cells n).recvLen = s.recvLen + n := rfl

theorem RxState.length_arrive {want n : Nat} {s : RxState} (h : s.CanRead want n)
    (cells : List Nat) : (s.arrive cells n).stream.length < s.stream.length := by
  obtain ⟨hpos, -, hle⟩ := h
  rw [arrive, List.length_drop]
  omega

namespace TCPSocketOperation

theorem receiveLoop_first {total : Nat} {answers : List ReadAnswer} {buf : List Nat} {s : RxState}
    (htotal : s.recvLen + buf.length = total) (hne : s.recvLen ≠ total)
    (hans : Answered answers) :
    (receiveLoop total answers buf s).Sat fun ret s' _ =>
      (ret = .error ∧ s'.recvLen = s.recvLen) ∨ s'.stream.length < s.stream.length := by
  cases answers with
  | nil =>
      rw [receiveLoop, if_pos hne]
      trivial
  | cons r rs =>
      unfold receiveLoop
      rw [if_neg hne]
      cases r with
      | moved n =>
          by_cases hcan : s.CanRead (total - s.recvLen) n
          · simp only [if_pos hcan]
            have hless := s.length_arrive hcan buf
            split
            · exact Or.inr hless
            · have hle : n ≤ buf.length := Nat.le_trans hcan.2.1 (by omega)
              have hrest : (s.arrive buf n).recvLen + (buf.drop n).length = total := by
                rw [List.length_drop, RxState.recvLen_arrive]
                omega
              refine (receiveLoop_received hrest).mono ?_
              rintro ret s' rest ⟨-, -, buf', hrec⟩
              exact Or.inr (Nat.lt_of_le_of_lt hrec.length_le hless)
          · simp only [if_neg hcan]
            trivial
      | closed => exact Or.inl ⟨rfl, rfl⟩
      | reset => exact Or.inl ⟨rfl, rfl⟩
      | again => exact absurd rfl (hans _ rfl).1
      | otherErrno => exact absurd rfl (hans _ rfl).2

theorem receiveMessageLoop_first {total : Nat} {answers : List ReadAnswer} {s : RxState}
    (htotal : s.recvLen + s.iov.flatten.length = total) (hlt : s.recvLen < total)
    (hans : Answered answers) :
    (receiveMessageLoop total answers s).Sat fun ret s' _ =>
      (ret = .error ∧ s'.recvLen = s.recvLen) ∨ s'.stream.length < s.stream.length := by
  cases answers with
  | nil =>
      rw [receiveMessageLoop, if_pos hlt]
      trivial
  | cons r rs =>
      unfold receiveMessageLoop
      rw [if_neg (not_not.mpr hlt)]
      cases r with
      | moved n =>
          by_cases hcan : s.CanRead s.iov.flatten.length n
          · simp only [if_pos hcan]
            have hless := s.length_arrive hcan s.iov.flatten
            split
            · exact Or.inr hless
            · rename_i hne
              have hle : n ≤ s.iov.flatten.length := hcan.2.1
              have hmore : n < s.iov.flatten.length := by
                rw [RxState.recvLen_arrive] at hne
                omega
              have hrest : (s.arrive s.iov.flatten n).recvLen +
                  (advanceRecv n s.iov).flatten.length = total := by
                rw [flatten_advanceRecv hmore, List.length_drop, RxState.recvLen_arrive]
                omega
              refine (receiveMessageLoop_received hrest).mono ?_
              rintro ret s' rest ⟨-, hrec⟩
              exact Or.inr (Nat.lt_of_le_of_lt hrec.length_le hless)
          · simp only [if_neg hcan]
            trivial
      | closed => exact Or.inl ⟨rfl, rfl⟩
      | reset => exact Or.inl ⟨rfl, rfl⟩
      | again => exact absurd rfl (hans _ rfl).1
      | otherErrno => exact absurd rfl (hans _ rfl).2

/-- Without room for a byte none is read, and the loop can only fail. -/
theorem receiveMessageLoop_nowhere {total : Nat} {s : RxState} (hiov : s.iov.flatten = [])
    (hlt : s.recvLen < total) : ∀ {answers : List ReadAnswer},
    (receiveMessageLoop total answers s).Sat fun ret s' _ =>
      s' = s ∧ (Answered answers → ret = .error) := by
  intro answers
  induction answers with
  | nil =>
      rw [receiveMessageLoop, if_pos hlt]
      trivial
  | cons r rs ih =>
      unfold receiveMessageLoop
      rw [if_neg (not_not.mpr hlt)]
      cases r with
      | moved n =>
          have hcan : ¬ s.CanRead s.iov.flatten.length n := by
            rw [hiov]
            rintro ⟨hpos, hle, -⟩
            exact Nat.lt_irrefl 0 (Nat.lt_of_lt_of_le hpos hle)
          simp only [if_neg hcan]
          trivial
      | closed => exact ⟨rfl, fun _ => rfl⟩
      | reset => exact ⟨rfl, fun _ => rfl⟩
      | again =>
          refine ih.mono ?_
          rintro ret s' rest ⟨hs', -⟩
          exact ⟨hs', fun hans => absurd rfl (hans _ rfl).1⟩
      | otherErrno => exact ⟨rfl, fun hans => absurd rfl (hans _ rfl).2⟩

end TCPSocketOperation

/-! ## The fields of a message -/

namespace MessageHeader

/-- What is read for a message after its header. -/
def payloadLen (h : MessageHeader) : Nat := h.nameLen + h.toLen + h.fromLen + h.bodyLen

/-- The header with as many bytes of the body as there is room for. -/
def stored (h : MessageHeader) (alloc : Allocation) : MessageHeader :=
  { h with bodyLen := alloc.realDataSize h.bodyLen }

/-- The fields in the bytes after the header. -/
def nameField (h : MessageHeader) (payload : List UInt8) : List UInt8 := payload.take h.nameLen

def toField (h : MessageHeader) (payload : List UInt8) : List UInt8 :=
  (payload.drop h.nameLen).take h.toLen

def fromField (h : MessageHeader) (payload : List UInt8) : List UInt8 :=
  (payload.drop (h.nameLen + h.toLen)).take h.fromLen

def bodyField (h : MessageHeader) (payload : List UInt8) : List UInt8 :=
  (payload.drop (h.nameLen + h.toLen + h.fromLen)).take h.bodyLen

end MessageHeader

/-- The cells that `FillRecvMessage` takes from `base` on. -/
def RecvMessage.cells (base : Nat) (h : MessageHeader) : RecvMessage where
  name := List.range' base h.nameLen
  to_ := List.range' (base + h.nameLen) h.toLen
  from_ := List.range' (base + h.nameLen + h.toLen) h.fromLen
  body := List.range' (base + h.nameLen + h.toLen + h.fromLen) h.bodyLen

theorem take_drop_range' {base total start len : Nat} (h : start + len ≤ total) :
    ((List.range' base total).drop start).take len = List.range' (base + start) len := by
  rw [List.drop_range', Nat.mul_one, List.take_range'_of_length_ge (by omega)]

/-- Cells that hold the payload hold the fields. -/
theorem RecvMessage.map_cells {base : Nat} {h : MessageHeader} {mem : Nat → UInt8}
    {payload : List UInt8} (hmap : (List.range' base h.payloadLen).map mem = payload) :
    (cells base h).name.map mem = h.nameField payload ∧
      (cells base h).to_.map mem = h.toField payload ∧
      (cells base h).from_.map mem = h.fromField payload ∧
      (cells base h).body.map mem = h.bodyField payload := by
  subst hmap
  simp only [cells, MessageHeader.nameField, MessageHeader.toField, MessageHeader.fromField,
    MessageHeader.bodyField, ← List.map_drop, ← List.map_take]
  refine ⟨?_, ?_, ?_, ?_⟩
  · rw [List.take_range'_of_length_ge (by unfold MessageHeader.payloadLen; omega)]
  · rw [take_drop_range' (by unfold MessageHeader.payloadLen; omega)]
  · rw [take_drop_range' (by unfold MessageHeader.payloadLen; omega), Nat.add_assoc]
  · rw [take_drop_range' (by unfold MessageHeader.payloadLen; omega), Nat.add_assoc, Nat.add_assoc,
      Nat.add_assoc]

/-! ## The strings -/

/-- The bytes `payload` of a message with the header `h` are there. If the message
is empty nothing is missing, and else something is. -/
structure InStrings (c : RecvSide) (h : MessageHeader) (base : Nat) (payload : List UInt8) :
    Prop where
  state : c.recvState = .kBody
  recvLen : c.recvLen = 0
  message : c.recvMessage = RecvMessage.cells base h
  short : payload.length < h.payloadLen ∨ h.payloadLen = 0
  bound : payload.length ≤ h.payloadLen
  total : c.totalRecvLen = h.payloadLen - payload.length
  iov : c.rx.iov.flatten = (List.range' base h.payloadLen).drop payload.length
  bytes : ((List.range' base h.payloadLen).take payload.length).map c.rx.mem = payload

/-- All bytes have been read, but the next call will ask for the last ones again,
without a place to put them. -/
structure Stuck (c : RecvSide) (h : MessageHeader) : Prop where
  state : c.recvState = .kBody
  total : 0 < c.totalRecvLen
  bound : c.totalRecvLen ≤ h.payloadLen
  iov : c.rx.iov.flatten = []

/-- The message of the fields in `payload`. -/
structure Built (h : MessageHeader) (payload : List UInt8) (m : MessageBase) : Prop where
  urls : RecvSide.setUrlForRecvMessage (h.fromField payload) (h.toField payload) =
    some (m.from_, m.to_)
  name : m.name = h.nameField payload
  realData : m.realData = h.bodyField payload

/-- What a call does in the strings of a message. -/
inductive BodyStep (c : RecvSide) (h : MessageHeader) (base : Nat) (payload : List UInt8) :
    Option MessageBase → RecvSide → Prop where
  | failed {c' : RecvSide} (hdis : c'.disconnecting = true) : BodyStep c h base payload none c'
  | more {c' : RecvSide} {new : List UInt8} (hstream : c.rx.stream = new ++ c'.rx.stream)
      (hdis : c'.disconnecting = c.disconnecting) (hin : InStrings c' h base (payload ++ new)) :
      BodyStep c h base payload none c'
  | rejected {c' : RecvSide} {new : List UInt8} (hstream : c.rx.stream = new ++ c'.rx.stream)
      (hdis : c'.disconnecting = c.disconnecting) (hstuck : Stuck c' h) :
      BodyStep c h base payload none c'
  | done {c' : RecvSide} {new : List UInt8} {m : MessageBase}
      (hstream : c.rx.stream = new ++ c'.rx.stream) (hdis : c'.disconnecting = c.disconnecting)
      (hall : (payload ++ new).length = h.payloadLen) (hbuilt : Built h (payload ++ new) m)
      (hdata : m.data = none) (hstate : c'.recvState = .kMsgHeader) (hlen : c'.recvLen = 0)
      (hfrom : c'.recvMessage.from_.map c'.rx.mem = h.fromField (payload ++ new))
      (hto : c'.recvMessage.to_.map c'.rx.mem = h.toField (payload ++ new)) :
      BodyStep c h base payload (some m) c'

namespace InStrings

variable {c : RecvSide} {h : MessageHeader} {base : Nat} {payload : List UInt8}

/-- A message without any byte has no addresses. -/
theorem parseBody_empty (hin : InStrings c h base payload) (hzero : h.payloadLen = 0)
    (answers : List ReadAnswer) :
    c.parseBody answers = .returned none { c with rx := { c.rx with recvLen := 0 } } answers := by
  have htotal : c.totalRecvLen = 0 := by rw [hin.total, hzero, Nat.zero_sub]
  have hfrom : c.recvMessage.from_ = [] := by
    rw [hin.message, RecvMessage.cells,
      show h.fromLen = 0 by rw [MessageHeader.payloadLen] at hzero; omega]
    rfl
  have hto : c.recvMessage.to_ = [] := by
    rw [hin.message, RecvMessage.cells,
      show h.toLen = 0 by rw [MessageHeader.payloadLen] at hzero; omega]
    rfl
  rw [RecvSide.parseBody, TCPSocketOperation.receiveMessage, if_pos htotal]
  dsimp only
  rw [if_neg (not_not.mpr htotal.symm), hfrom, hto]
  rfl

theorem recvLen_add (hin : InStrings c h base payload) :
    ({ c.rx with recvLen := 0 } : RxState).recvLen + c.rx.iov.flatten.length =
      c.totalRecvLen := by
  rw [hin.iov, List.length_drop, List.length_range', hin.total, Nat.zero_add]

theorem total_pos (hin : InStrings c h base payload) (hne : h.payloadLen ≠ 0) :
    0 < c.totalRecvLen := by
  have hshort := hin.short
  rw [hin.total]
  omega

/-- A call that has something to read reads it or gives the connection up. -/
theorem parseBody_moves (hin : InStrings c h base payload) (hne : h.payloadLen ≠ 0)
    {answers : List ReadAnswer} (hans : Answered answers) :
    (c.parseBody answers).Sat fun _ c' _ =>
      c'.disconnecting = true ∨ c'.rx.stream.length < c.rx.stream.length := by
  have hpos := hin.total_pos hne
  have hspec := TCPSocketOperation.receiveMessageLoop_first hin.recvLen_add hpos hans
  rw [RecvSide.parseBody, TCPSocketOperation.receiveMessage, if_neg (Nat.ne_of_gt hpos)]
  cases hout : TCPSocketOperation.receiveMessageLoop c.totalRecvLen answers
      { c.rx with recvLen := 0 } with
  | pending => trivial
  | fault =>
      rw [hout] at hspec
      exact hspec.elim
  | returned ret rx rest =>
      rw [hout] at hspec
      dsimp only
      rcases hspec with ⟨rfl, hlen⟩ | hless
      · have hpart : rx.recvLen ≠ c.totalRecvLen := by
          rw [hlen]
          exact Nat.ne_of_lt hpos
        rw [if_pos hpart, if_pos (fun h => by cases h)]
        exact Or.inl rfl
      · split
        · split
          · exact Or.inl rfl
          · exact Or.inr hless
        · split
          · exact Or.inr hless
          · exact Or.inr hless

/-- More bytes of the strings. -/
theorem parseBody_step (hin : InStrings c h base payload) (answers : List ReadAnswer) :
    (c.parseBody answers).Sat fun message c' _ => BodyStep c h base payload message c' := by
  rcases hin.short with hshort | hzero
  swap
  · rw [hin.parseBody_empty hzero]
    refine BodyStep.more (show c.rx.stream = [] ++ c.rx.stream from rfl) rfl ?_
    rw [List.append_nil]
    exact ⟨hin.state, hin.recvLen, hin.message, hin.short, hin.bound, hin.total, hin.iov, hin.bytes⟩
  have hcells : (List.range' base h.payloadLen).length = h.payloadLen := by simp
  have hpos : 0 < c.totalRecvLen := hin.total_pos (by omega)
  have hspec := @TCPSocketOperation.receiveMessageLoop_received _ answers _ hin.recvLen_add
  rw [RecvSide.parseBody, TCPSocketOperation.receiveMessage, if_neg (Nat.ne_of_gt hpos)]
  cases hout : TCPSocketOperation.receiveMessageLoop c.totalRecvLen answers
      { c.rx with recvLen := 0 } with
  | pending => trivial
  | fault =>
      rw [hout] at hspec
      exact hspec.elim
  | returned ret rx rest =>
      rw [hout] at hspec
      obtain ⟨-, used, -, hreads⟩ := hspec
      generalize readSum used = n at hreads
      have hlen : rx.recvLen = n := by rw [hreads.recvLen, Nat.zero_add]
      have hroom : payload.length + n ≤ h.payloadLen := by
        have hroom := hreads.room
        rw [show ({ c.rx with recvLen := 0 } : RxState).iov.flatten = c.rx.iov.flatten from rfl,
          hin.iov, List.length_drop, hcells] at hroom
        omega
      have hstream : c.rx.stream = c.rx.stream.take n ++ rx.stream := by
        rw [hreads.stream]
        exact (List.take_append_drop n _).symm
      have hnew : (payload ++ c.rx.stream.take n).length = payload.length + n := by
        have henough : n ≤ c.rx.stream.length := hreads.enough
        rw [List.length_append, List.length_take]
        omega
      have hbytes : ((List.range' base h.payloadLen).take (payload.length + n)).map rx.mem =
          payload ++ c.rx.stream.take n := by
        have hmem : rx.mem = Iovec.store c.rx.mem
            ((List.range' base h.payloadLen).drop payload.length)
            (((payload ++ c.rx.stream.take n).drop payload.length).take n) := by
          rw [List.drop_left, List.take_take, Nat.min_self, ← hin.iov]
          exact hreads.mem
        rw [hmem, Iovec.map_take_store (List.nodup_range' ..) _ (by omega) (by omega)]
        · exact List.take_of_length_le (by omega)
        · rw [List.take_left]
          exact hin.bytes
      dsimp only
      by_cases hdone : rx.recvLen = c.totalRecvLen
      · rw [if_neg (not_not.mpr hdone)]
        have hfull : payload.length + n = h.payloadLen := by
          rw [hlen, hin.total] at hdone
          omega
        rw [hfull, List.take_of_length_le (by omega)] at hbytes
        obtain ⟨hname, hto, hfrom, hbody⟩ := RecvMessage.map_cells hbytes
        rw [← hin.message] at hname hto hfrom hbody
        cases hurl : RecvSide.setUrlForRecvMessage (c.recvMessage.from_.map rx.mem)
            (c.recvMessage.to_.map rx.mem) with
        | none =>
            refine BodyStep.rejected hstream rfl ⟨hin.state, ?_, ?_, ?_⟩
            · show 0 < c.totalRecvLen
              rw [hin.total]
              omega
            · show c.totalRecvLen ≤ h.payloadLen
              rw [hin.total]
              omega
            · rw [hreads.cells, show ({ c.rx with recvLen := 0 } : RxState).iov = c.rx.iov from rfl,
                hin.iov, List.drop_drop, hfull, List.drop_eq_nil_of_le (by omega)]
        | some urls =>
            refine BodyStep.done hstream rfl (hnew.trans hfull) ⟨?_, hname, hbody⟩ rfl rfl
              hin.recvLen hfrom hto
            rw [← hfrom, ← hto, hurl]
      · rw [if_pos hdone]
        by_cases hret : ret = .ok
        · rw [if_neg (not_not.mpr hret)]
          have hleft : payload.length + n ≠ h.payloadLen := by
            intro hfull
            rw [hlen, hin.total] at hdone
            omega
          refine BodyStep.more hstream rfl ⟨hin.state, hin.recvLen, hin.message, ?_, ?_, ?_, ?_, ?_⟩
          · rw [hnew]
            omega
          · rw [hnew]
            exact hroom
          · show c.totalRecvLen - rx.recvLen = _
            rw [hlen, hin.total, hnew]
            omega
          · rw [hnew, ← List.drop_drop, ← hin.iov]
            exact hreads.cells
          · rw [hnew]
            exact hbytes
        · rw [if_pos hret]
          exact BodyStep.failed rfl

end InStrings

/-- Behind a refused message nothing is read. -/
theorem Stuck.parseBody_step {c : RecvSide} {h : MessageHeader} (hstuck : Stuck c h)
    (answers : List ReadAnswer) :
    (c.parseBody answers).Sat fun message c' _ => message = none ∧ (c'.disconnecting = true ∨
      (c'.disconnecting = c.disconnecting ∧ c'.rx.stream = c.rx.stream ∧ Stuck c' h ∧
        ¬ Answered answers)) := by
  have hspec := @TCPSocketOperation.receiveMessageLoop_nowhere _ { c.rx with recvLen := 0 }
    hstuck.iov hstuck.total answers
  rw [RecvSide.parseBody, TCPSocketOperation.receiveMessage, if_neg (Nat.ne_of_gt hstuck.total)]
  cases hout : TCPSocketOperation.receiveMessageLoop c.totalRecvLen answers
      { c.rx with recvLen := 0 } with
  | pending => trivial
  | fault =>
      rw [hout] at hspec
      exact hspec.elim
  | returned ret rx rest =>
      rw [hout] at hspec
      obtain ⟨rfl, hret⟩ := hspec
      dsimp only
      rw [if_pos (Nat.ne_of_lt hstuck.total)]
      split
      · exact ⟨rfl, Or.inl rfl⟩
      · rename_i hok
        refine ⟨rfl, Or.inr ⟨rfl, rfl, ⟨hstuck.state, hstuck.total, hstuck.bound, hstuck.iov⟩, ?_⟩⟩
        intro hans
        exact hok (by rw [hret hans]; exact fun h => by cases h)

/-- Where the bytes of the body are makes no difference to the message. -/
theorem Built.deliver {h : MessageHeader} {payload : List UInt8} {m : MessageBase}
    (hbuilt : Built h payload m) (hdata : m.data = none) (data : Bool) :
    Built h payload (Receiver.deliver data m) := by
  have hbody : m.body = h.bodyField payload := by
    rw [← hbuilt.realData, MessageBase.realData, hdata]
    rfl
  cases data with
  | false => exact hbuilt
  | true => exact ⟨hbuilt.urls, hbuilt.name, hbody⟩

/-! ## The header -/

/-- What `FillRecvMessage` has been called with. -/
structure Head (r : Receiver) (head : List UInt8) : Prop where
  length : head.length = sizeofHeader
  header : r.recvMsgHeader = reorderHeader head
  magic : r.recvMsgHeader.magic = rpcMagicId
  valid : r.recvMsgHeader.Valid

/-- Where the receiver is after `bytes` of the current message. -/
inductive Place (r : Receiver) (alloc : Allocation) (bytes : List UInt8) : Prop where
  | header (hstate : r.side.recvState = .kMsgHeader) (hlen : r.side.recvLen = bytes.length)
      (hshort : bytes.length < sizeofHeader)
      (hbytes : (headerCells.take bytes.length).map r.side.rx.mem = bytes)
  | strings {head payload : List UInt8} {base : Nat} (hbytes : bytes = head ++ payload)
      (hhead : Head r head) (hin : InStrings r.side (r.recvMsgHeader.stored alloc) base payload)
  | stuck (hstuck : Stuck r.side (r.recvMsgHeader.stored alloc))

/-- `bytes` are a whole message and `m` is what has been made of it. -/
structure Whole (r : Receiver) (alloc : Allocation) (bytes head payload : List UInt8)
    (m : MessageBase) : Prop where
  bytes : bytes = head ++ payload
  head : Head r head
  all : payload.length = (r.recvMsgHeader.stored alloc).payloadLen
  built : Built (r.recvMsgHeader.stored alloc) payload m
  recvFrom : r.side.recvMessage.from_.map r.side.rx.mem =
    (r.recvMsgHeader.stored alloc).fromField payload
  recvTo : r.side.recvMessage.to_.map r.side.rx.mem =
    (r.recvMsgHeader.stored alloc).toField payload

/-- What a call of `ParseMessage` does after `bytes`. -/
inductive ParseStep (r : Receiver) (alloc : Allocation) (bytes : List UInt8) :
    Option MessageBase → Receiver → Prop where
  | failed {r' : Receiver} (hdis : r'.side.disconnecting = true) : ParseStep r alloc bytes none r'
  | inside {r' : Receiver} {new : List UInt8}
      (hstream : r.side.rx.stream = new ++ r'.side.rx.stream)
      (hdis : r'.side.disconnecting = r.side.disconnecting)
      (hplace : Place r' alloc (bytes ++ new)) :
      ParseStep r alloc bytes none r'
  | done {r' : Receiver} {new head payload : List UInt8} {m : MessageBase}
      (hstream : r.side.rx.stream = new ++ r'.side.rx.stream)
      (hdis : r'.side.disconnecting = r.side.disconnecting)
      (hwhole : Whole r' alloc (bytes ++ new) head payload m) (hplace : Place r' alloc []) :
      ParseStep r alloc bytes (some m) r'

/-- The rest of a call whose first part has read `new`. -/
theorem ParseStep.after {r r₁ r' : Receiver} {alloc : Allocation} {bytes new rest : List UInt8}
    {message : Option MessageBase} (h : ParseStep r₁ alloc (bytes ++ new ++ []) message r')
    (hstream : r.side.rx.stream = new ++ rest) (hrest : r₁.side.rx.stream = rest)
    (hdis : r₁.side.disconnecting = r.side.disconnecting) : ParseStep r alloc bytes message r' := by
  rw [List.append_nil] at h
  subst hrest
  cases h with
  | failed hbad => exact .failed hbad
  | inside hmore hkeep hplace =>
      rw [hmore, ← List.append_assoc] at hstream
      rw [List.append_assoc] at hplace
      exact .inside hstream (hkeep.trans hdis) hplace
  | done hmore hkeep hwhole hplace =>
      rw [hmore, ← List.append_assoc] at hstream
      rw [List.append_assoc] at hwhole
      exact .done hstream (hkeep.trans hdis) hwhole hplace

/-- A call of `ParseMessage` that has returned. -/
def ParseResult.Sat (P : Option MessageBase → Receiver → List ReadAnswer → Prop) :
    ParseResult → Prop
  | .returned message r rest => P message r rest
  | .pending => True
  | .fault => False

theorem ParseResult.Sat.mono {P Q : Option MessageBase → Receiver → List ReadAnswer → Prop}
    {o : ParseResult} (h : o.Sat P) (hpq : ∀ message r rest, P message r rest → Q message r rest) :
    o.Sat Q := by
  cases o with
  | returned message r rest => exact hpq _ _ _ h
  | pending => trivial
  | fault => exact h

/-- Bytes have been read, or the connection is given up. -/
def Moves (r r' : Receiver) : Prop :=
  r'.side.disconnecting = true ∨ r'.side.rx.stream.length < r.side.rx.stream.length

theorem ParseStep.length_le {r r' : Receiver} {alloc : Allocation} {bytes : List UInt8}
    {message : Option MessageBase} (h : ParseStep r alloc bytes message r') :
    r'.side.disconnecting = true ∨ r'.side.rx.stream.length ≤ r.side.rx.stream.length := by
  cases h with
  | failed hdis => exact Or.inl hdis
  | inside hstream =>
      rw [hstream, List.length_append]
      exact Or.inr (Nat.le_add_left ..)
  | done hstream =>
      rw [hstream, List.length_append]
      exact Or.inr (Nat.le_add_left ..)

theorem place_start {r : Receiver} (alloc : Allocation) (hstate : r.side.recvState = .kMsgHeader)
    (hlen : r.side.recvLen = 0) : Place r alloc [] :=
  .header hstate hlen (by decide) rfl

namespace Receiver

/-- The strings of a message. -/
theorem parseBody_step {r : Receiver} {alloc : Allocation} {head payload : List UInt8} {base : Nat}
    (hhead : Head r head) (hin : InStrings r.side (r.recvMsgHeader.stored alloc) base payload)
    (answers : List ReadAnswer) :
    (r.parseBody answers).Sat fun message r' _ =>
      ParseStep r alloc (head ++ payload) message r' := by
  have hspec := hin.parseBody_step answers
  rw [parseBody]
  cases hout : r.side.parseBody answers with
  | pending => trivial
  | fault =>
      rw [hout] at hspec
      exact hspec.elim
  | returned message side rest =>
      rw [hout] at hspec
      have hhead' : Head { r with side := side } head :=
        ⟨hhead.length, hhead.header, hhead.magic, hhead.valid⟩
      cases hspec with
      | failed hdis => exact ParseStep.failed hdis
      | more hstream hdis hin' =>
          exact ParseStep.inside hstream hdis
            (.strings (List.append_assoc ..) hhead' hin')
      | rejected hstream hdis hstuck => exact ParseStep.inside hstream hdis (.stuck hstuck)
      | done hstream hdis hall hbuilt hdata hstate hlen hfrom hto =>
          exact ParseStep.done hstream hdis
            ⟨List.append_assoc .., hhead', hall, hbuilt.deliver hdata _, hfrom, hto⟩
            (place_start alloc hstate hlen)

/-- Room for the strings of a message within the limits. -/
theorem fillRecvMessage_step {r : Receiver} (alloc : Allocation)
    (hlen : r.side.recvLen = 0) :
    let r' := r.fillRecvMessage alloc
    r'.side.disconnecting = true ∨ (r'.side.disconnecting = r.side.disconnecting ∧
      r'.side.rx.stream = r.side.rx.stream ∧ r'.recvMsgHeader = r.recvMsgHeader ∧
      r.recvMsgHeader.Valid ∧
      InStrings { r'.side with recvState := .kBody } (r.recvMsgHeader.stored alloc)
        r.side.heapTop []) := by
  intro r'
  have hr' : r' = r.fillRecvMessage alloc := rfl
  rw [fillRecvMessage] at hr'
  dsimp only at hr'
  split at hr'
  · left
    rw [hr']
  · rename_i hlimit
    right
    have hvalid : r.recvMsgHeader.Valid := by
      constructor <;> omega
    have hle : alloc.realDataSize r.recvMsgHeader.bodyLen ≤ r.recvMsgHeader.bodyLen := by
      cases alloc <;> simp [Allocation.realDataSize]
    have hlimit' : ¬ ((r.recvMsgHeader.stored alloc).nameLen > maxKmsgNameLen ∨
        (r.recvMsgHeader.stored alloc).toLen > maxKmsgToLen ∨
        (r.recvMsgHeader.stored alloc).fromLen > maxKmsgFromLen ∨
        (r.recvMsgHeader.stored alloc).bodyLen > maxKmsgBodyLen) := by
      simp only [MessageHeader.stored]
      omega
    have hside : r'.side = r.side.fillRecvMessage (r.recvMsgHeader.stored alloc) := by
      rw [hr']
      rfl
    have hheader : r'.recvMsgHeader = r.recvMsgHeader := by rw [hr']
    rw [RecvSide.fillRecvMessage, if_neg hlimit'] at hside
    rw [hside]
    refine ⟨rfl, rfl, hheader, hvalid, rfl, hlen, rfl, ?_, Nat.zero_le _, rfl, ?_, rfl⟩
    · rw [List.length_nil]
      omega
    · simp only [List.length_nil, List.drop_zero, List.flatten_cons, List.flatten_nil,
        List.append_nil, List.range'_append_1, MessageHeader.payloadLen]
      congr 1
      omega

/-- More bytes of the header, and with the last of them the strings. -/
theorem parseHeader_step {r : Receiver} {bytes : List UInt8} (alloc : Allocation)
    (hstate : r.side.recvState = .kMsgHeader) (hlen : r.side.recvLen = bytes.length)
    (hshort : bytes.length < sizeofHeader)
    (hbytes : (headerCells.take bytes.length).map r.side.rx.mem = bytes)
    (answers : List ReadAnswer) :
    (r.parseHeader alloc answers).Sat fun message r' _ =>
      ParseStep r alloc bytes message r' ∧ (Answered answers → Moves r r') := by
  have hcells : headerCells.length = sizeofHeader := by simp [headerCells]
  have htotal : ({ r.side.rx with recvLen := 0 } : RxState).recvLen +
      (headerCells.drop bytes.length).length = sizeofHeader - bytes.length := by
    rw [List.length_drop, hcells, Nat.zero_add]
  have hspec := @TCPSocketOperation.receiveLoop_received _ answers _ _ htotal
  have hfirst := @TCPSocketOperation.receiveLoop_first _ answers _ _ htotal
    (show 0 ≠ sizeofHeader - bytes.length by omega)
  rw [parseHeader, hlen, TCPSocketOperation.receive]
  dsimp only
  cases hout : TCPSocketOperation.receiveLoop (sizeofHeader - bytes.length) answers
      (headerCells.drop bytes.length) { r.side.rx with recvLen := 0 } with
  | pending => trivial
  | fault =>
      rw [hout] at hspec
      exact hspec.elim
  | returned ret rx rest =>
      rw [hout] at hspec hfirst
      obtain ⟨-, -, buf', used, -, hreads⟩ := hspec
      generalize readSum used = n at hreads
      have hrecv : rx.recvLen = n := by rw [hreads.recvLen, Nat.zero_add]
      have hroom : bytes.length + n ≤ sizeofHeader := by
        have hroom := hreads.room
        rw [List.length_drop, hcells] at hroom
        omega
      have hstream : r.side.rx.stream = r.side.rx.stream.take n ++ rx.stream := by
        rw [hreads.stream]
        exact (List.take_append_drop n _).symm
      have hnew : (bytes ++ r.side.rx.stream.take n).length = bytes.length + n := by
        have henough : n ≤ r.side.rx.stream.length := hreads.enough
        rw [List.length_append, List.length_take]
        omega
      have hgot : (headerCells.take (bytes.length + n)).map rx.mem =
          bytes ++ r.side.rx.stream.take n := by
        have hmem : rx.mem = Iovec.store r.side.rx.mem (headerCells.drop bytes.length)
            (((bytes ++ r.side.rx.stream.take n).drop bytes.length).take n) := by
          rw [List.drop_left, List.take_take, Nat.min_self]
          exact hreads.mem
        have hnodup : headerCells.Nodup := List.nodup_range' ..
        rw [hmem, Iovec.map_take_store hnodup _ (by omega) (by omega)]
        · exact List.take_of_length_le (by omega)
        · rw [List.take_left]
          exact hbytes
      dsimp only
      split
      · exact ⟨ParseStep.failed rfl, fun _ => Or.inl rfl⟩
      · rename_i hok
        have hless : Answered answers → rx.stream.length < r.side.rx.stream.length := by
          intro hans
          rcases hfirst hans with ⟨herr, -⟩ | hless
          · exact absurd (by rw [herr]; exact fun h => by cases h) hok
          · exact hless
        split
        · rename_i hpart
          refine ⟨ParseStep.inside hstream rfl (.header hstate ?_ ?_ ?_),
            fun hans => Or.inr (hless hans)⟩
          · show rx.recvLen + bytes.length = _
            rw [hrecv, hnew, Nat.add_comm]
          · rw [hnew]
            omega
          · rw [hnew]
            exact hgot
        · rename_i hfull
          have hfull : bytes.length + n = sizeofHeader := by
            rw [hrecv] at hfull
            omega
          rw [hfull, List.take_of_length_le (by omega)] at hgot
          split
          · exact ⟨ParseStep.failed rfl, fun _ => Or.inl rfl⟩
          · rename_i hmagic
            rw [hgot] at hmagic ⊢
            have hfill := fillRecvMessage_step
              (r := ⟨{ r.side with rx := rx, recvLen := 0 },
                reorderHeader (bytes ++ r.side.rx.stream.take n), r.data⟩) alloc rfl
            dsimp only at hfill
            generalize fillRecvMessage alloc _ = r' at hfill ⊢
            split
            · rename_i hdis
              exact ⟨ParseStep.failed hdis, fun _ => Or.inl hdis⟩
            · rename_i hdis
              rcases hfill with hbad | ⟨hkeep, hrest, hheader, hvalid, hin⟩
              · exact absurd hbad hdis
              · have hhead : Head { r' with side := { r'.side with recvState := .kBody } }
                    (bytes ++ r.side.rx.stream.take n) :=
                  ⟨hnew.trans hfull, hheader, by rw [hheader]; exact not_not.mp hmagic,
                    by rw [hheader]; exact hvalid⟩
                rw [← hheader] at hin
                have hbody := parseBody_step
                  (r := { r' with side := { r'.side with recvState := .kBody } }) hhead hin rest
                refine hbody.mono ?_
                intro message r'' _ hstep
                refine ⟨hstep.after hstream hrest hkeep, fun hans => ?_⟩
                rcases hstep.length_le with hbad | hle
                · exact Or.inl hbad
                · rw [hrest] at hle
                  exact Or.inr (Nat.lt_of_le_of_lt hle (hless hans))

/-- The allocation of the message that a call goes on with. -/
def current (r : Receiver) (alloc new : Allocation) : Allocation :=
  if r.side.recvState = .kMsgHeader then new else alloc

/-- The header that was accepted last asks for no byte. -/
def AsksNothing (r : Receiver) (alloc : Allocation) : Prop :=
  r.side.recvState = .kBody ∧ r.recvMsgHeader.nameLen = 0 ∧ r.recvMsgHeader.toLen = 0 ∧
    r.recvMsgHeader.fromLen = 0 ∧ (r.recvMsgHeader.bodyLen = 0 ∨ alloc = .null)

instance (r : Receiver) (alloc : Allocation) : Decidable (r.AsksNothing alloc) :=
  inferInstanceAs (Decidable (_ ∧ _ ∧ _ ∧ _ ∧ (_ ∨ _)))

theorem realDataSize_eq_zero (alloc : Allocation) (n : Nat) :
    alloc.realDataSize n = 0 ↔ n = 0 ∨ alloc = .null := by
  cases alloc <;> simp [Allocation.realDataSize]

theorem asksNothing_iff {r : Receiver} {alloc : Allocation} (hstate : r.side.recvState = .kBody) :
    r.AsksNothing alloc ↔ (r.recvMsgHeader.stored alloc).payloadLen = 0 := by
  rw [AsksNothing, ← realDataSize_eq_zero, MessageHeader.payloadLen, MessageHeader.stored]
  dsimp only
  constructor
  · rintro ⟨-, hname, hto, hfrom, hbody⟩
    omega
  · intro hzero
    exact ⟨hstate, by omega, by omega, by omega, by omega⟩

/-- A call from any place goes to a place, or gives the connection up. -/
theorem parseMessage_step {r : Receiver} {alloc : Allocation} {bytes : List UInt8}
    (hplace : Place r alloc bytes) (new : Allocation) (answers : List ReadAnswer) :
    (r.parseMessage new answers).Sat fun message r' _ =>
      ParseStep r (r.current alloc new) bytes message r' ∧
        (Answered answers → ¬ r.AsksNothing alloc → Moves r r') := by
  rw [parseMessage]
  cases hplace with
  | header hstate hlen hshort hbytes =>
      rw [current, if_pos hstate, hstate]
      refine (parseHeader_step new hstate hlen hshort hbytes answers).mono ?_
      rintro message r' - ⟨hstep, hmoves⟩
      exact ⟨hstep, fun hans _ => hmoves hans⟩
  | strings hbytes hhead hin =>
      rw [current, if_neg (by rw [hin.state]; exact fun h => by cases h), hin.state, hbytes]
      have hstep := parseBody_step hhead hin answers
      rw [parseBody] at hstep ⊢
      have hmoves : Answered answers → ¬ r.AsksNothing alloc → (r.side.parseBody answers).Sat
          fun _ c' _ => c'.disconnecting = true ∨
            c'.rx.stream.length < r.side.rx.stream.length := by
        intro hans hasks
        rw [asksNothing_iff hin.state] at hasks
        exact hin.parseBody_moves hasks hans
      dsimp only
      cases hout : r.side.parseBody answers with
      | pending => trivial
      | fault =>
          rw [hout] at hstep
          exact hstep.elim
      | returned message side rest =>
          rw [hout] at hstep hmoves
          exact ⟨hstep, hmoves⟩
  | stuck hstuck =>
      rw [current, if_neg (by rw [hstuck.state]; exact fun h => by cases h), hstuck.state]
      have hspec := hstuck.parseBody_step answers
      dsimp only
      rw [parseBody]
      cases hout : r.side.parseBody answers with
      | pending => trivial
      | fault =>
          rw [hout] at hspec
          exact hspec.elim
      | returned message side rest =>
          rw [hout] at hspec
          obtain ⟨rfl, hdis | ⟨hdis, hstream, hstuck', hnot⟩⟩ := hspec
          · exact ⟨ParseStep.failed hdis, fun _ _ => Or.inl hdis⟩
          · refine ⟨ParseStep.inside (show r.side.rx.stream = [] ++ _ from hstream.symm) hdis
              (.stuck hstuck'), ?_⟩
            intro hans
            exact absurd hans hnot

end Receiver

/-! ## What holds of every call -/

/-- `kDisconnecting` is not left, and the addresses of a message are the ones that
`SetUrlForRecvMessage` has found in `recv_from` and `recv_to`. -/
structure Lasts (c c' : RecvSide) (message : Option MessageBase) : Prop where
  disconnecting : c.disconnecting = true → c'.disconnecting = true
  urls : ∀ m ∈ message, RecvSide.setUrlForRecvMessage (c'.recvMessage.from_.map c'.rx.mem)
    (c'.recvMessage.to_.map c'.rx.mem) = some (m.from_, m.to_)

theorem Lasts.of_none {c c' : RecvSide} (h : c.disconnecting = true → c'.disconnecting = true) :
    Lasts c c' none :=
  ⟨h, nofun⟩

theorem RecvSide.lasts_parseBody {c c' : RecvSide} {answers rest : List ReadAnswer}
    {message : Option MessageBase} (h : c.parseBody answers = .returned message c' rest) :
    Lasts c c' message := by
  rw [parseBody] at h
  split at h
  · cases h
  · cases h
  · dsimp only at h
    split at h
    · split at h
      · cases h
        exact Lasts.of_none fun _ => rfl
      · cases h
        exact Lasts.of_none id
    · split at h
      · cases h
        exact Lasts.of_none id
      · rename_i urls hurls
        cases h
        refine ⟨id, ?_⟩
        intro m hm
        cases hm
        exact hurls

namespace Receiver

theorem lasts_parseBody {r r' : Receiver} {answers rest : List ReadAnswer}
    {message : Option MessageBase} (h : r.parseBody answers = .returned message r' rest) :
    Lasts r.side r'.side message := by
  rw [parseBody] at h
  split at h
  · rename_i found side rest' hbody
    cases h
    obtain ⟨hdis, hurls⟩ := RecvSide.lasts_parseBody hbody
    refine ⟨hdis, ?_⟩
    intro m hm
    obtain ⟨m', hm', rfl⟩ := Option.map_eq_some_iff.mp hm
    rw [hurls m' hm', deliver]
    split <;> rfl
  · cases h
  · cases h

theorem disconnecting_fillRecvMessage {r : Receiver} (alloc : Allocation)
    (h : r.side.disconnecting = true) : (r.fillRecvMessage alloc).side.disconnecting = true := by
  rw [fillRecvMessage]
  dsimp only
  split
  · rfl
  · rw [RecvSide.fillRecvMessage]
    split
    · rfl
    · exact h

/-- After the header. -/
theorem lasts_strings {c : RecvSide} {r r' : Receiver} {answers rest : List ReadAnswer}
    {message : Option MessageBase}
    (hside : c.disconnecting = true → r.side.disconnecting = true) :
    (if r.side.disconnecting then ParseResult.returned none r answers
      else parseBody answers { r with side := { r.side with recvState := .kBody } }) =
      .returned message r' rest → Lasts c r'.side message := by
  split
  · rename_i hdis
    rintro ⟨⟩
    exact Lasts.of_none fun _ => hdis
  · intro h
    obtain ⟨hdis, hurls⟩ := lasts_parseBody h
    exact ⟨fun hbad => hdis (hside hbad), hurls⟩

theorem lasts_parseMessage {r r' : Receiver} {alloc : Allocation} {answers rest : List ReadAnswer}
    {message : Option MessageBase} :
    r.parseMessage alloc answers = .returned message r' rest →
      Lasts r.side r'.side message := by
  rw [parseMessage]
  split
  · rw [parseHeader]
    dsimp only
    split
    · exact fun h => by cases h
    · exact fun h => by cases h
    · rename_i ret rx rest' _
      generalize reorderHeader (headerCells.map rx.mem) = header
      split
      · rintro ⟨⟩
        exact Lasts.of_none fun _ => rfl
      · split
        · rintro ⟨⟩
          exact Lasts.of_none id
        · split
          · rintro ⟨⟩
            exact Lasts.of_none fun _ => rfl
          · exact lasts_strings fun hdis => disconnecting_fillRecvMessage alloc (by exact hdis)
  · exact lasts_parseBody

end Receiver

/-! ## Runs -/

/-- A connection, the bytes that it has read since it handed over the last
message, and what the callback has answered for the message it is reading. -/
structure Reading where
  conn : Receiver
  bytes : List UInt8 := []
  alloc : Allocation := .unset

namespace Reading

def start (mem : Nat → UInt8) (stream : List UInt8) : Reading where
  conn := Receiver.fresh mem stream

/-- The bytes of the current message after a call that leaves `rest` unread. -/
def read (t : Reading) (rest : List UInt8) : List UInt8 :=
  t.bytes ++ t.conn.side.rx.stream.take (t.conn.side.rx.stream.length - rest.length)

/-- A call of `ReceiveMessage`, seen from outside. -/
def receive (t : Reading) (call : ReceiveCall) : Option (ReceiveReturn × Reading) :=
  (t.conn.receiveMessage call).map fun out =>
    (out,
      { conn := out.conn
        bytes := if out.message.isSome then [] else t.read out.conn.side.rx.stream
        alloc := t.conn.current t.alloc call.alloc })

/-- A step of a run. -/
def Step (t : Reading) (call : ReceiveCall) (t' : Reading) : Prop :=
  ∃ out, t.receive call = some (out, t')

/-- The connection is being closed, or it is in one of the three places. -/
def Inv (t : Reading) : Prop :=
  t.conn.side.disconnecting = true ∨ Place t.conn t.alloc t.bytes

theorem read_append {t : Reading} {new rest : List UInt8}
    (h : t.conn.side.rx.stream = new ++ rest) : t.read rest = t.bytes ++ new := by
  rw [read, h, List.length_append, Nat.add_sub_cancel, List.take_left]

end Reading

namespace Receiver

theorem closing_false (r : Receiver) : r.closing false = r := by
  rw [closing, Bool.or_false]

/-- `ReceiveMessage` is `ParseMessage` and the reply. -/
theorem parseMessage_of_receiveMessage {r : Receiver} {call : ReceiveCall} {out : ReceiveReturn}
    (h : r.receiveMessage call = some out) :
    ∃ r', r.parseMessage call.alloc call.answers = .returned out.message r' [] ∧
      out.conn = r'.closing (out.message.isSome && call.replyFails) := by
  rw [receiveMessage] at h
  split at h
  · rename_i r' hparse
    cases h
    exact ⟨r', hparse, (closing_false r').symm⟩
  · rename_i m r' hparse
    cases h
    exact ⟨r', hparse, by rw [Option.isSome_some, Bool.true_and]⟩
  · cases h

end Receiver

theorem Place.closing {r : Receiver} {alloc : Allocation} {bytes : List UInt8}
    (h : Place r alloc bytes) (b : Bool) : Place (r.closing b) alloc bytes := by
  cases h with
  | header hstate hlen hshort hbytes => exact .header hstate hlen hshort hbytes
  | strings hbytes hhead hin =>
      exact .strings hbytes ⟨hhead.length, hhead.header, hhead.magic, hhead.valid⟩
        ⟨hin.state, hin.recvLen, hin.message, hin.short, hin.bound, hin.total, hin.iov, hin.bytes⟩
  | stuck hstuck => exact .stuck ⟨hstuck.state, hstuck.total, hstuck.bound, hstuck.iov⟩

theorem Whole.closing {r : Receiver} {alloc : Allocation} {bytes head payload : List UInt8}
    {m : MessageBase} (h : Whole r alloc bytes head payload m) (b : Bool) :
    Whole (r.closing b) alloc bytes head payload m :=
  ⟨h.bytes, ⟨h.head.length, h.head.header, h.head.magic, h.head.valid⟩, h.all, h.built,
    h.recvFrom, h.recvTo⟩

namespace Reading

/-- What a call of `ReceiveMessage` has done. -/
structure Outcome (t : Reading) (call : ReceiveCall) (out : ReceiveReturn) (t' : Reading) :
    Prop where
  lasts : Lasts t.conn.side t'.conn.side out.message
  conn : t'.conn = out.conn
  alloc : t'.alloc = t.conn.current t.alloc call.alloc
  place : Place t.conn t.alloc t.bytes →
    (out.message = none ∧ t'.conn.side.disconnecting = true) ∨
    (t'.conn.side.disconnecting = (t.conn.side.disconnecting ||
        (out.message.isSome && call.replyFails)) ∧
      Place t'.conn t'.alloc t'.bytes ∧ ∀ m ∈ out.message, ∃ head payload,
        Whole t'.conn t'.alloc (t.read t'.conn.side.rx.stream) head payload m)
  moves : Place t.conn t.alloc t.bytes → Answered call.answers → ¬ t.conn.AsksNothing t.alloc →
    Moves t.conn t'.conn

theorem outcome_of_receive {t t' : Reading} {call : ReceiveCall} {out : ReceiveReturn}
    (h : t.receive call = some (out, t')) : Outcome t call out t' := by
  obtain ⟨out', hout, heq⟩ := Option.map_eq_some_iff.mp h
  cases heq
  obtain ⟨r', hparse, hconn⟩ := Receiver.parseMessage_of_receiveMessage hout
  have hlasts := Receiver.lasts_parseMessage hparse
  refine ⟨?_, rfl, rfl, ?_, ?_⟩
  · rw [hconn]
    refine ⟨fun hdis => ?_, hlasts.urls⟩
    show (r'.side.disconnecting || _) = true
    rw [hlasts.disconnecting hdis, Bool.true_or]
  · intro hplace
    have hstep := Receiver.parseMessage_step hplace call.alloc call.answers
    rw [hparse] at hstep
    obtain ⟨hstep, -⟩ := hstep
    dsimp only
    cases hmessage : out.message with
    | none =>
        rw [hmessage] at hstep hconn
        rw [Option.isSome_none, Bool.false_and, Receiver.closing_false] at hconn
        rw [hconn]
        cases hstep with
        | failed hdis => exact Or.inl ⟨rfl, hdis⟩
        | inside hstream hdis hplace' =>
            refine Or.inr ⟨by rw [hdis]; simp, ?_, nofun⟩
            rw [read_append hstream]
            exact hplace'
    | some m =>
        rw [hmessage] at hstep hconn
        rw [Option.isSome_some, Bool.true_and] at hconn
        rw [hconn]
        cases hstep with
        | done hstream hdis hwhole hplace' =>
            right
            refine ⟨?_, hplace'.closing _, ?_⟩
            · show (r'.side.disconnecting || _) = _
              rw [hdis, Option.isSome_some, Bool.true_and]
            · intro m' hm'
              cases hm'
              rw [← read_append hstream] at hwhole
              exact ⟨_, _, hwhole.closing _⟩
  · intro hplace hans hasks
    have hstep := Receiver.parseMessage_step hplace call.alloc call.answers
    rw [hparse] at hstep
    rw [hconn]
    rcases hstep.2 hans hasks with hdis | hless
    · left
      show (r'.side.disconnecting || _) = true
      rw [hdis, Bool.true_or]
    · exact Or.inr hless

/-- Every run is somewhere. -/
theorem inv_of_run {mem : Nat → UInt8} {stream : List UInt8} {calls : List ReceiveCall}
    {t : Reading} (h : Run Step (start mem stream) calls t) : t.Inv := by
  refine h.state_inv (Or.inr (place_start _ rfl rfl)) ?_
  rintro t call t' hinv ⟨out, hcall⟩
  have hspec := outcome_of_receive hcall
  rcases hinv with hdis | hplace
  · exact Or.inl (hspec.lasts.disconnecting hdis)
  · rcases hspec.place hplace with ⟨-, hdis⟩ | ⟨-, hplace', -⟩
    · exact Or.inl hdis
    · exact Or.inr hplace'

end Reading

end Ccbase.Net

import Ccbase.Net.Message
import Ccbase.Net.Returns

/-!
# `Connection::ParseMessage` over TCP

The receiving side of a connection. `ParseMessage` goes on where the last call
has stopped: in the header, of which `recv_len` bytes are there, or in the four
strings of the message, of which `total_recv_len` bytes are missing. The strings
are at cells of a memory that the iovecs point to; `FillRecvMessage` takes fresh
cells for them. `allocate_cb_` is not set, so the data go to `body`.

Whatever the chunks are, the messages come out as they were put in.
-/

namespace Ccbase.Net

open Ccbase.Lib

/-! ## The model -/

def maxKmsgFromLen : Nat := 1024

def maxKmsgToLen : Nat := 1024

def maxKmsgNameLen : Nat := 1024

def maxKmsgBodyLen : Nat := 1073741824

/-- `kMsgHeader` and `kBody`. -/
inductive RecvState where
  | kMsgHeader
  | kBody
  deriving DecidableEq, Repr

/-- Where the strings of the message that is being received are. -/
structure RecvMessage where
  name : List Nat := []
  to_ : List Nat := []
  from_ : List Nat := []
  body : List Nat := []
  deriving DecidableEq, Repr

/-- `rx` is `recv_kernel_msg` with the memory it points to and the stream; cells
from `heapTop` on are free. -/
structure RecvSide where
  disconnecting : Bool := false
  recvState : RecvState := .kMsgHeader
  recvLen : Nat := 0
  totalRecvLen : Nat := 0
  recvMessage : RecvMessage := {}
  heapTop : Nat := sizeofHeader
  rx : RxState

/-- What `ParseMessage` returns: a message stands for `true`. -/
inductive Parsed where
  | returned (message : Option MessageBase) (c : RecvSide) (rest : List ReadAnswer)
  | pending
  | fault

/-- The cells of `recv_msg_header`. -/
def headerCells : List Nat := List.range' 0 sizeofHeader

/-- `substr(0, pos)` and `substr(pos + 1)` for the first `@`; without one `pos`
is the largest `size_t`, and both are the whole string. -/
def splitUrl (s : List UInt8) : AID :=
  match s.idxOf? at_ with
  | some pos => ⟨s.take pos, s.drop (pos + 1)⟩
  | none => ⟨s, s⟩

namespace RecvSide

/-- The two addresses, unless neither has a separator. -/
def setUrlForRecvMessage (recvFrom recvTo : List UInt8) : Option (AID × AID) :=
  if recvFrom.idxOf? at_ = none ∧ recvTo.idxOf? at_ = none then none
  else some (splitUrl recvFrom, splitUrl recvTo)

/-- The strings are resized and the iovecs point to them, unless a length is too
large. -/
def fillRecvMessage (h : MessageHeader) (c : RecvSide) : RecvSide :=
  if h.nameLen > maxKmsgNameLen ∨ h.toLen > maxKmsgToLen ∨ h.fromLen > maxKmsgFromLen ∨
      h.bodyLen > maxKmsgBodyLen then
    { c with disconnecting := true }
  else
    let name := List.range' c.heapTop h.nameLen
    let to_ := List.range' (c.heapTop + h.nameLen) h.toLen
    let from_ := List.range' (c.heapTop + h.nameLen + h.toLen) h.fromLen
    let body := List.range' (c.heapTop + h.nameLen + h.toLen + h.fromLen) h.bodyLen
    { c with
      recvMessage := { name := name, to_ := to_, from_ := from_, body := body }
      heapTop := c.heapTop + h.nameLen + h.toLen + h.fromLen + h.bodyLen
      rx := { c.rx with iov := [name, to_, from_, body] }
      totalRecvLen := h.nameLen + h.toLen + h.fromLen + h.bodyLen }

/-- The case `kBody`. -/
def parseBody (answers : List ReadAnswer) (c : RecvSide) : Parsed :=
  match TCPSocketOperation.receiveMessage c.totalRecvLen answers
      { c.rx with recvLen := 0 } with
  | .pending => .pending
  | .fault => .fault
  | .returned ret rx rest =>
      let c := { c with rx := rx }
      if rx.recvLen ≠ c.totalRecvLen then
        if ret ≠ .ok then .returned none { c with disconnecting := true } rest
        else .returned none { c with totalRecvLen := c.totalRecvLen - rx.recvLen } rest
      else
        match setUrlForRecvMessage (c.recvMessage.from_.map rx.mem)
            (c.recvMessage.to_.map rx.mem) with
        | none => .returned none c rest
        | some (from_, to_) =>
            .returned
              (some
                { from_ := from_, to_ := to_, name := c.recvMessage.name.map rx.mem
                  body := c.recvMessage.body.map rx.mem })
              { c with recvState := .kMsgHeader } rest

/-- The case `kMsgHeader`, which goes on with the body. -/
def parseHeader (answers : List ReadAnswer) (c : RecvSide) : Parsed :=
  match TCPSocketOperation.receive (headerCells.drop c.recvLen) (sizeofHeader - c.recvLen) answers
      c.rx with
  | .pending => .pending
  | .fault => .fault
  | .returned ret rx rest =>
      let recvLen := rx.recvLen + c.recvLen
      let c := { c with rx := rx }
      if ret ≠ .ok then .returned none { c with disconnecting := true, recvLen := recvLen } rest
      else if recvLen ≠ sizeofHeader then .returned none { c with recvLen := recvLen } rest
      else
        let c := { c with recvLen := 0 }
        let header := reorderHeader (headerCells.map rx.mem)
        if header.magic ≠ rpcMagicId then .returned none { c with disconnecting := true } rest
        else
          let c := c.fillRecvMessage header
          if c.disconnecting then .returned none c rest
          else parseBody rest { c with recvState := .kBody }

def parseMessage (answers : List ReadAnswer) (c : RecvSide) : Parsed :=
  match c.recvState with
  | .kMsgHeader => parseHeader answers c
  | .kBody => parseBody answers c

/-- Calls of `ParseMessage`, the messages they return and the answers they leave:
a call gets the answers that the ones before it have left. -/
def parseCalls : Nat → List ReadAnswer → RecvSide →
    Option (List MessageBase × RecvSide × List ReadAnswer)
  | 0, answers, c => some ([], c, answers)
  | calls + 1, answers, c =>
      match parseMessage answers c with
      | .returned message c rest =>
          (parseCalls calls rest c).map fun r => (message.toList ++ r.1, r.2)
      | _ => none

end RecvSide

/-! ## Messages that can be received -/

/-- A message in `body` within the limits of the receiver, with names that have
no separator. -/
structure MessageBase.Plain (m : MessageBase) : Prop where
  type : m.type = .kmsg
  data : m.data = none
  name : m.name.length ≤ maxKmsgNameLen
  to_ : m.to_.str.length ≤ maxKmsgToLen
  from_ : m.from_.str.length ≤ maxKmsgFromLen
  body : m.body.length ≤ maxKmsgBodyLen
  toName : at_ ∉ m.to_.name
  fromName : at_ ∉ m.from_.name

/-- The bytes of a list of messages. -/
def encodeAll (ms : List MessageBase) : List UInt8 := (ms.map MessageBase.encode).flatten

theorem encodeAll_cons (m : MessageBase) (ms : List MessageBase) :
    encodeAll (m :: ms) = m.encode ++ encodeAll ms := by
  simp [encodeAll]

theorem idxOf?_append_at {s : List UInt8} (url : List UInt8) (h : at_ ∉ s) :
    (s ++ at_ :: url).idxOf? at_ = some s.length := by
  induction s with
  | nil => simp [List.idxOf?_cons]
  | cons x s ih =>
      simp only [List.mem_cons, not_or] at h
      have hx : (x == at_) = false := by
        rw [beq_eq_false_iff_ne]
        exact fun heq => h.1 heq.symm
      rw [List.cons_append, List.idxOf?_cons, hx, ih h.2]
      rfl

theorem idxOf?_str {a : AID} (h : at_ ∉ a.name) : a.str.idxOf? at_ = some a.name.length :=
  idxOf?_append_at a.url h

theorem splitUrl_str {a : AID} (h : at_ ∉ a.name) : splitUrl a.str = a := by
  rw [splitUrl, idxOf?_str h]
  simp [AID.str]

/-- What is sent after the header. -/
def MessageBase.payload (m : MessageBase) : List UInt8 :=
  m.name ++ (m.to_.str ++ (m.from_.str ++ m.body))

namespace MessageBase.Plain

variable {m : MessageBase}

theorem encode_eq (h : m.Plain) : m.encode = fillMessageHeader m ++ m.payload := by
  rw [MessageBase.encode_eq, payload, realData, h.data]
  rfl

theorem reorderHeader_eq (h : m.Plain) : reorderHeader (fillMessageHeader m) =
    { magic := rpcMagicId, nameLen := m.name.length, toLen := m.to_.str.length,
      fromLen := m.from_.str.length, bodyLen := m.body.length } := by
  have hreal : m.realData = m.body := by rw [realData, h.data]; rfl
  have hname := h.name
  have hto := h.to_
  have hfrom := h.from_
  have hbody := h.body
  simp only [maxKmsgNameLen, maxKmsgToLen, maxKmsgFromLen, maxKmsgBodyLen] at *
  rw [reorderHeader_fillMessageHeader m (by omega) (by omega) (by omega) (by rw [hreal]; omega),
    hreal]

theorem setUrlForRecvMessage_eq (h : m.Plain) :
    RecvSide.setUrlForRecvMessage m.from_.str m.to_.str = some (m.from_, m.to_) := by
  rw [RecvSide.setUrlForRecvMessage, if_neg, splitUrl_str h.fromName, splitUrl_str h.toName]
  rw [idxOf?_str h.fromName]
  rintro ⟨hnone, -⟩
  cases hnone

/-- The message that the receiver builds. -/
theorem rebuild (h : m.Plain) :
    ({ from_ := m.from_, to_ := m.to_, name := m.name, body := m.body } : MessageBase) = m := by
  obtain ⟨type, from_, to_, name, body, data⟩ := m
  have htype := h.type
  have hdata := h.data
  dsimp only at htype hdata
  subst htype hdata
  rfl

theorem payload_pos (m : MessageBase) : 0 < m.payload.length := by
  simp only [payload, AID.str, List.length_append, List.length_cons]
  omega

theorem length_encode (h : m.Plain) : m.encode.length = sizeofHeader + m.payload.length := by
  rw [h.encode_eq, List.length_append, length_fillMessageHeader]

end MessageBase.Plain

/-- What the calls ask for, header and strings of one message after the other. -/
def pieces (ms : List MessageBase) : List Nat :=
  ms.flatMap fun m => [sizeofHeader, m.payload.length]

theorem pieces_cons (m : MessageBase) (ms : List MessageBase) :
    pieces (m :: ms) = sizeofHeader :: m.payload.length :: pieces ms := rfl

theorem pieces_pos (ms : List MessageBase) : ∀ l ∈ pieces ms, 0 < l := by
  intro l hl
  obtain ⟨m, -, hl⟩ := List.mem_flatMap.mp hl
  simp only [List.mem_cons, List.not_mem_nil, or_false] at hl
  rcases hl with rfl | rfl
  · decide
  · exact MessageBase.Plain.payload_pos m

/-! ## What has been received -/

/-- A call of `ParseMessage` that has returned. -/
def Parsed.Sat (P : Option MessageBase → RecvSide → List ReadAnswer → Prop) : Parsed → Prop
  | .returned message c rest => P message c rest
  | .pending => True
  | .fault => False

theorem Parsed.Sat.mono {P Q : Option MessageBase → RecvSide → List ReadAnswer → Prop}
    {p : Parsed} (h : p.Sat P) (hpq : ∀ message c rest, P message c rest → Q message c rest) :
    p.Sat Q := by
  cases p with
  | returned message c rest => exact hpq _ _ _ h
  | pending => trivial
  | fault => exact h

/-- Where the strings of `m` are when they start at `base`. -/
def RecvMessage.layout (base : Nat) (m : MessageBase) : RecvMessage where
  name := List.range' base m.name.length
  to_ := List.range' (base + m.name.length) m.to_.str.length
  from_ := List.range' (base + m.name.length + m.to_.str.length) m.from_.str.length
  body := List.range' (base + m.name.length + m.to_.str.length + m.from_.str.length) m.body.length

theorem RecvMessage.layout_append (base : Nat) (m : MessageBase) :
    (layout base m).name ++ ((layout base m).to_ ++ ((layout base m).from_ ++
      (layout base m).body)) = List.range' base m.payload.length := by
  simp only [layout, List.range'_append_1, MessageBase.payload, List.length_append]

/-- Cells that hold the payload hold the strings. -/
theorem RecvMessage.layout_map {base : Nat} {m : MessageBase} {mem : Nat → UInt8}
    (h : (List.range' base m.payload.length).map mem = m.payload) :
    (layout base m).name.map mem = m.name ∧ (layout base m).to_.map mem = m.to_.str ∧
      (layout base m).from_.map mem = m.from_.str ∧ (layout base m).body.map mem = m.body := by
  rw [← layout_append, List.map_append, List.map_append, List.map_append,
    MessageBase.payload] at h
  obtain ⟨hname, h⟩ := List.append_inj h (by simp [layout])
  obtain ⟨hto, h⟩ := List.append_inj h (by simp [layout])
  obtain ⟨hfrom, hbody⟩ := List.append_inj h (by simp [layout])
  exact ⟨hname, hto, hfrom, hbody⟩

/-- `got` bytes of the header of the next message are there. -/
structure InHeader (c : RecvSide) (ms : List MessageBase) (got : Nat) : Prop where
  live : c.disconnecting = false
  state : c.recvState = .kMsgHeader
  recvLen : c.recvLen = got
  short : got < sizeofHeader
  bound : got ≤ (encodeAll ms).length
  stream : c.rx.stream = (encodeAll ms).drop got
  bytes : (headerCells.take got).map c.rx.mem = (encodeAll ms).take got

/-- The header of `m` and `got` bytes of its strings are there. -/
structure InBody (c : RecvSide) (m : MessageBase) (ms : List MessageBase) (base got : Nat) :
    Prop where
  live : c.disconnecting = false
  state : c.recvState = .kBody
  recvLen : c.recvLen = 0
  message : c.recvMessage = RecvMessage.layout base m
  short : got < m.payload.length
  total : c.totalRecvLen = m.payload.length - got
  iov : c.rx.iov.flatten = (List.range' base m.payload.length).drop got
  stream : c.rx.stream = (m.payload ++ encodeAll ms).drop got
  bytes : ((List.range' base m.payload.length).take got).map c.rx.mem =
    (m.payload ++ encodeAll ms).take got

/-- Where the receiver is: the messages that are still to come and the bytes of
the first of them that have been read. -/
inductive Receiving : RecvSide → List MessageBase → Nat → Prop where
  | header {c : RecvSide} {ms : List MessageBase} {got : Nat} (h : InHeader c ms got) :
      Receiving c ms got
  | body {c : RecvSide} {m : MessageBase} {ms : List MessageBase} {base got : Nat}
      (h : InBody c m ms base got) : Receiving c (m :: ms) (sizeofHeader + got)

/-- The effect of a call that has read `n` bytes on the messages that are still to
come: it has returned the first of them and read what was missing of it, or less
than that has been read. -/
def Advances (ms : List MessageBase) (got n : Nat) (message : Option MessageBase)
    (c : RecvSide) : Prop :=
  (message = none ∧ Receiving c ms (got + n)) ∨
  (∃ m ms', ms = m :: ms' ∧ message = some m ∧ got + n = m.encode.length ∧ InHeader c ms' 0)

namespace RecvSide

/-- The strings are received, all or a part of what is missing. -/
theorem parseBody_spec {answers : List ReadAnswer} {c : RecvSide} {m : MessageBase}
    {ms : List MessageBase} {base got : Nat} (hplain : m.Plain) (h : InBody c m ms base got)
    (hok : ∀ r ∈ answers, r.Harmless) :
    (parseBody answers c).Sat fun message c' rest => ∃ used, answers = used ++ rest ∧
      Advances (m :: ms) (sizeofHeader + got) (readSum used) message c' := by
  have hshort := h.short
  have hcells : (List.range' base m.payload.length).length = m.payload.length := by simp
  have htotal : ({ c.rx with recvLen := 0 } : RxState).recvLen + c.rx.iov.flatten.length =
      c.totalRecvLen := by
    rw [h.iov, List.length_drop, hcells, h.total, Nat.zero_add]
  have hspec := TCPSocketOperation.receiveMessageLoop_spec hok htotal
  have hcall : TCPSocketOperation.receiveMessage c.totalRecvLen answers
      { c.rx with recvLen := 0 } = TCPSocketOperation.receiveMessageLoop c.totalRecvLen answers
      { c.rx with recvLen := 0 } := by
    rw [TCPSocketOperation.receiveMessage, if_neg]
    rw [h.total]
    omega
  rw [parseBody, hcall]
  cases hout : TCPSocketOperation.receiveMessageLoop c.totalRecvLen answers
      { c.rx with recvLen := 0 } with
  | pending => trivial
  | fault =>
      rw [hout] at hspec
      exact hspec.elim
  | returned ret rx rest =>
      rw [hout] at hspec
      obtain ⟨rfl, used, hused, hreads⟩ := hspec
      generalize hn : readSum used = n at hreads
      have hroom := hreads.room
      have hlen : rx.recvLen = n := by rw [hreads.recvLen, Nat.zero_add]
      have hroom : got + n ≤ m.payload.length := by
        rw [show ({ c.rx with recvLen := 0 } : RxState).iov.flatten = c.rx.iov.flatten from rfl,
          h.iov, List.length_drop, hcells] at hroom
        omega
      have hall : got + n ≤ (m.payload ++ encodeAll ms).length := by
        rw [List.length_append]
        omega
      have hmem : rx.mem = Iovec.store c.rx.mem ((List.range' base m.payload.length).drop got)
          (((m.payload ++ encodeAll ms).drop got).take n) := by
        rw [hreads.mem, ← h.iov, ← h.stream]
      have hbytes : ((List.range' base m.payload.length).take (got + n)).map rx.mem =
          (m.payload ++ encodeAll ms).take (got + n) := by
        rw [hmem]
        exact Iovec.map_take_store (List.nodup_range' ..) h.bytes (by omega) hall
      have hstream : rx.stream = (m.payload ++ encodeAll ms).drop (got + n) := by
        rw [hreads.stream, ← List.drop_drop, ← h.stream]
      dsimp only
      by_cases hdone : rx.recvLen = c.totalRecvLen
      · have hfull : got + n = m.payload.length := by
          rw [hlen, h.total] at hdone
          omega
        rw [hfull] at hbytes hstream
        rw [List.take_left, List.take_of_length_le (by omega)] at hbytes
        rw [List.drop_left] at hstream
        obtain ⟨hname, hto, hfrom, hbody⟩ := RecvMessage.layout_map hbytes
        rw [if_neg (not_not.mpr hdone), h.message, hfrom, hto, hname, hbody,
          hplain.setUrlForRecvMessage_eq]
        refine ⟨used, hused, Or.inr ⟨m, ms, rfl, ?_, ?_, ?_⟩⟩
        · exact congrArg some hplain.rebuild
        · rw [hn, Nat.add_assoc, hfull, hplain.length_encode]
        · exact ⟨h.live, rfl, h.recvLen, by decide, Nat.zero_le _, hstream, rfl⟩
      · rw [if_pos hdone, if_neg (not_not.mpr rfl)]
        have hleft : got + n ≠ m.payload.length := by
          intro hfull
          rw [hlen, h.total] at hdone
          omega
        have htotal' : c.totalRecvLen - rx.recvLen = m.payload.length - (got + n) := by
          rw [hlen, h.total]
          omega
        have hiov : rx.iov.flatten = (List.range' base m.payload.length).drop (got + n) := by
          rw [hreads.cells, ← List.drop_drop, ← h.iov]
        refine ⟨used, hused, Or.inl ⟨rfl, ?_⟩⟩
        rw [hn, Nat.add_assoc]
        exact Receiving.body
          ⟨h.live, h.state, h.recvLen, h.message, by omega, htotal', hiov, hstream, hbytes⟩

/-- With the lengths of `m` the strings get the cells for it. -/
theorem fillRecvMessage_spec {c : RecvSide} {m : MessageBase} {ms : List MessageBase}
    (hplain : m.Plain) (hlive : c.disconnecting = false) (hlen : c.recvLen = 0)
    (hstream : c.rx.stream = m.payload ++ encodeAll ms) :
    let c' := c.fillRecvMessage (reorderHeader (fillMessageHeader m))
    c'.disconnecting = false ∧ InBody { c' with recvState := .kBody } m ms c.heapTop 0 := by
  have hname := hplain.name
  have hto := hplain.to_
  have hfrom := hplain.from_
  have hbody := hplain.body
  have hsum : m.name.length + m.to_.str.length + m.from_.str.length + m.body.length =
      m.payload.length := by
    simp only [MessageBase.payload, List.length_append]
    omega
  intro c'
  have hc' : c' = c.fillRecvMessage (reorderHeader (fillMessageHeader m)) := rfl
  rw [hplain.reorderHeader_eq, fillRecvMessage, if_neg (by dsimp only; omega)] at hc'
  rw [hc']
  refine ⟨hlive, hlive, rfl, hlen, rfl, MessageBase.Plain.payload_pos m, hsum, ?_, hstream, rfl⟩
  rw [List.drop_zero, ← RecvMessage.layout_append]
  simp [RecvMessage.layout]

/-- What the call does once `recv` has returned: the header has come, all or a part
of what is missing, and with the last byte of it the strings begin. -/
theorem parseHeader_received {answers rest : List ReadAnswer} {c : RecvSide}
    {ms : List MessageBase} {got : Nat} {ret : IoRet} {rx : RxState}
    (hplain : ∀ m ∈ ms, m.Plain) (h : InHeader c ms got) (hok : ∀ r ∈ answers, r.Harmless)
    (hout : TCPSocketOperation.receive (headerCells.drop got) (sizeofHeader - got) answers c.rx =
      .returned ret rx rest) :
    ∃ used, answers = used ++ rest ∧
      ((∃ c', parseHeader answers c = .returned none c' rest ∧
          InHeader c' ms (got + readSum used)) ∨
        (∃ m ms' c' base, ms = m :: ms' ∧ got + readSum used = sizeofHeader ∧
          parseHeader answers c = parseBody rest c' ∧ InBody c' m ms' base 0)) := by
  have hcells : headerCells.length = sizeofHeader := by simp [headerCells]
  have hshort := h.short
  have hbound := h.bound
  have htotal : ({ c.rx with recvLen := 0 } : RxState).recvLen + (headerCells.drop got).length =
      sizeofHeader - got := by
    rw [List.length_drop, hcells, Nat.zero_add]
  have hspec := TCPSocketOperation.receiveLoop_spec hok htotal
  rw [← TCPSocketOperation.receive, hout] at hspec
  obtain ⟨rfl, -, buf', used, hused, hreads⟩ := hspec
  refine ⟨used, hused, ?_⟩
  generalize readSum used = n at hreads
  have hlen : rx.recvLen = n := by rw [hreads.recvLen, Nat.zero_add]
  have hroom : got + n ≤ sizeofHeader := by
    have hroom := hreads.room
    rw [List.length_drop, hcells] at hroom
    omega
  have henough : got + n ≤ (encodeAll ms).length := by
    have henough := hreads.enough
    rw [show ({ c.rx with recvLen := 0 } : RxState).stream = c.rx.stream from rfl, h.stream,
      List.length_drop] at henough
    omega
  have hmem : rx.mem = Iovec.store c.rx.mem (headerCells.drop got)
      (((encodeAll ms).drop got).take n) := by
    rw [hreads.mem, ← h.stream]
  have hbytes : (headerCells.take (got + n)).map rx.mem = (encodeAll ms).take (got + n) := by
    rw [hmem]
    exact Iovec.map_take_store (List.nodup_range' ..) h.bytes (by omega) henough
  have hstream : rx.stream = (encodeAll ms).drop (got + n) := by
    rw [hreads.stream, ← List.drop_drop, ← h.stream]
  rw [parseHeader, h.recvLen, hout]
  dsimp only
  rw [if_neg (not_not.mpr rfl), hlen, Nat.add_comm n got]
  by_cases hdone : got + n = sizeofHeader
  · rw [if_neg (not_not.mpr hdone)]
    rw [hdone] at hbytes hstream henough
    cases ms with
    | nil => exact absurd henough (by decide)
    | cons m ms =>
        have hm := hplain m (List.mem_cons_self ..)
        rw [encodeAll_cons, hm.encode_eq, List.append_assoc] at hbytes hstream
        rw [List.take_of_length_le (by omega),
          List.take_left' (length_fillMessageHeader m)] at hbytes
        rw [List.drop_left' (length_fillMessageHeader m)] at hstream
        have hmagic : (reorderHeader (fillMessageHeader m)).magic = rpcMagicId := by
          rw [hm.reorderHeader_eq]
        obtain ⟨hlive, hbody⟩ := fillRecvMessage_spec (c := { c with rx := rx, recvLen := 0 })
          hm h.live rfl hstream
        rw [hbytes, if_neg (not_not.mpr hmagic), if_neg (by rw [hlive]; exact Bool.false_ne_true)]
        exact Or.inr ⟨m, ms, _, _, rfl, hdone, rfl, hbody⟩
  · rw [if_pos hdone]
    exact Or.inl ⟨_, rfl, h.live, h.state, rfl, by omega, henough, hstream, hbytes⟩

theorem parseHeader_spec {answers : List ReadAnswer} {c : RecvSide} {ms : List MessageBase}
    {got : Nat} (hplain : ∀ m ∈ ms, m.Plain) (h : InHeader c ms got)
    (hok : ∀ r ∈ answers, r.Harmless) :
    (parseHeader answers c).Sat fun message c' rest => ∃ used, answers = used ++ rest ∧
      Advances ms got (readSum used) message c' := by
  cases hout : TCPSocketOperation.receive (headerCells.drop got) (sizeofHeader - got) answers
      c.rx with
  | pending =>
      rw [parseHeader, h.recvLen, hout]
      trivial
  | fault =>
      have htotal : ({ c.rx with recvLen := 0 } : RxState).recvLen +
          (headerCells.drop got).length = sizeofHeader - got := by
        simp [headerCells]
      have hspec := TCPSocketOperation.receiveLoop_spec hok htotal
      rw [← TCPSocketOperation.receive, hout] at hspec
      exact hspec.elim
  | returned ret rx rest =>
      obtain ⟨used, rfl, ⟨c', hcall, hheader⟩ | ⟨m, ms', c', base, rfl, hgot, hcall, hbody⟩⟩ :=
        parseHeader_received hplain h hok hout
      · rw [hcall]
        exact ⟨used, rfl, Or.inl ⟨rfl, Receiving.header hheader⟩⟩
      · rw [hcall]
        refine (parseBody_spec (hplain m (List.mem_cons_self ..)) hbody
          fun r hr => hok r (List.mem_append_right _ hr)).mono ?_
        rintro message c'' rest' ⟨used', rfl, hadv⟩
        refine ⟨used ++ used', (List.append_assoc ..).symm, ?_⟩
        rw [Advances, readSum_append, ← Nat.add_assoc, hgot]
        exact hadv

theorem parseMessage_spec {answers : List ReadAnswer} {c : RecvSide} {ms : List MessageBase}
    {got : Nat} (hplain : ∀ m ∈ ms, m.Plain) (h : Receiving c ms got)
    (hok : ∀ r ∈ answers, r.Harmless) :
    (parseMessage answers c).Sat fun message c' rest => ∃ used, answers = used ++ rest ∧
      Advances ms got (readSum used) message c' := by
  rw [parseMessage]
  cases h with
  | header h =>
      rw [h.state]
      exact parseHeader_spec hplain h hok
  | body h =>
      rw [h.state]
      exact parseBody_spec (hplain _ (List.mem_cons_self ..)) h hok

/-- A call returns when `recvmsg` does. -/
theorem parseBody_of_returned {answers rest : List ReadAnswer} {c : RecvSide} {ret : IoRet}
    {rx : RxState} (h : TCPSocketOperation.receiveMessage c.totalRecvLen answers
      { c.rx with recvLen := 0 } = .returned ret rx rest) :
    ∃ message c', parseBody answers c = .returned message c' rest ∧ c'.rx = rx := by
  rw [parseBody, h]
  dsimp only
  split
  · split
    · exact ⟨_, _, rfl, rfl⟩
    · exact ⟨_, _, rfl, rfl⟩
  · split
    · exact ⟨_, _, rfl, rfl⟩
    · exact ⟨_, _, rfl, rfl⟩

/-- Chunks that come to the end of the strings make the call return. -/
theorem parseBody_returns {answers : List ReadAnswer} {c : RecvSide} {m : MessageBase}
    {ms : List MessageBase} {base got : Nat} {ls : List Nat} (h : InBody c m ms base got)
    (hpositive : Positive answers)
    (hfrag : Fragments ((m.payload.length - got) :: ls) (answers.map ReadAnswer.moves)) :
    ∃ message c' rest, parseBody answers c = .returned message c' rest ∧
      rest.length < answers.length := by
  have hshort := h.short
  have hiov : c.rx.iov.flatten.length = m.payload.length - got := by
    rw [h.iov, List.length_drop, List.length_range']
  have hstream : c.rx.iov.flatten.length ≤ c.rx.stream.length := by
    rw [hiov, h.stream, List.length_drop, List.length_append]
    omega
  have htotal : ({ c.rx with recvLen := 0 } : RxState).recvLen + c.rx.iov.flatten.length =
      c.totalRecvLen := by
    rw [hiov, h.total, Nat.zero_add]
  rw [← hiov] at hfrag
  obtain ⟨ret, rx, rest, hout, hlt, -⟩ := TCPSocketOperation.receiveMessageLoop_returns
    hpositive htotal (by rw [hiov]; omega) hstream hfrag
  obtain ⟨message, c', hcall, -⟩ := parseBody_of_returned
    ((if_neg (by rw [h.total]; omega)).trans hout)
  exact ⟨message, c', rest, hcall, hlt⟩

/-- So do chunks that come to the end of the header and of the strings. -/
theorem parseHeader_returns {answers : List ReadAnswer} {c : RecvSide} {m : MessageBase}
    {ms : List MessageBase} {got : Nat} (hplain : ∀ m' ∈ m :: ms, m'.Plain)
    (h : InHeader c (m :: ms) got) (hok : ∀ r ∈ answers, r.Harmless)
    (hpositive : Positive answers)
    (hfrag : Fragments (leftOf got (pieces (m :: ms))) (answers.map ReadAnswer.moves)) :
    ∃ message c' rest, parseHeader answers c = .returned message c' rest ∧
      rest.length < answers.length := by
  have hshort := h.short
  have hlong := (hplain m (List.mem_cons_self ..)).length_encode
  have hstream : sizeofHeader - got ≤ c.rx.stream.length := by
    rw [h.stream, encodeAll_cons, List.length_drop, List.length_append]
    omega
  have htotal : ({ c.rx with recvLen := 0 } : RxState).recvLen + (sizeofHeader - got) =
      sizeofHeader - got := Nat.zero_add _
  have hleft : leftOf got (pieces (m :: ms)) =
      (sizeofHeader - got) :: m.payload.length :: pieces ms := leftOf_lt _ hshort
  obtain ⟨ret, rx, rest, hout, hlt, -⟩ := @TCPSocketOperation.receiveLoop_returns
    (sizeofHeader - got) _ answers (headerCells.drop got) _ _ hpositive htotal (by omega) hstream
    (hleft ▸ hfrag)
  obtain ⟨used, rfl, ⟨c', hcall, -⟩ | ⟨m', ms', c', base, hms, hgot, hcall, hbody⟩⟩ :=
    parseHeader_received hplain h hok hout
  · exact ⟨_, _, _, hcall, hlt⟩
  · -- with the header complete the same call reads the strings
    cases hms
    rw [List.map_append] at hfrag
    have hrest := hfrag.drop (leftOf_pos (pieces_pos _))
    have hpos : ∀ l ∈ m.payload.length :: pieces ms, 0 < l :=
      fun l hl => pieces_pos (m :: ms) l (List.mem_cons_of_mem sizeofHeader hl)
    rw [leftOf_leftOf, ← readSum, hgot, pieces_cons, leftOf_self, leftOf_zero hpos] at hrest
    obtain ⟨message, c'', rest', hout', hlt'⟩ := parseBody_returns hbody hpositive.drop hrest
    exact ⟨message, c'', rest', hcall.trans hout', Nat.lt_trans hlt' hlt⟩

/-- While a message is still to come, chunks that come to its end make the call
return. -/
theorem parseMessage_returns {answers : List ReadAnswer} {c : RecvSide} {m : MessageBase}
    {ms : List MessageBase} {got : Nat} (hplain : ∀ m' ∈ m :: ms, m'.Plain)
    (h : Receiving c (m :: ms) got) (hok : ∀ r ∈ answers, r.Harmless)
    (hpositive : Positive answers)
    (hfrag : Fragments (leftOf got (pieces (m :: ms))) (answers.map ReadAnswer.moves)) :
    ∃ message c' rest, parseMessage answers c = .returned message c' rest ∧
      rest.length < answers.length := by
  rw [parseMessage]
  cases h with
  | header h =>
      rw [h.state]
      exact parseHeader_returns hplain h hok hpositive hfrag
  | body h =>
      rw [h.state]
      rw [pieces_cons, leftOf_add, leftOf_lt _ h.short] at hfrag
      exact parseBody_returns h hpositive hfrag

/-- What a list of calls returns are the first of the messages. -/
theorem parseCalls_spec : ∀ {calls : Nat} {answers rest : List ReadAnswer} {c c' : RecvSide}
    {ms out : List MessageBase} {got : Nat}, (∀ m ∈ ms, m.Plain) → Receiving c ms got →
    (∀ r ∈ answers, r.Harmless) → parseCalls calls answers c = some (out, c', rest) →
    ∃ ms' got' used, ms = out ++ ms' ∧ answers = used ++ rest ∧
      got + readSum used = (encodeAll out).length + got' ∧ Receiving c' ms' got' := by
  intro calls
  induction calls with
  | zero =>
      intro answers rest c c' ms out got _ hrec _ h
      cases h
      exact ⟨ms, got, [], rfl, rfl, (Nat.zero_add got).symm, hrec⟩
  | succ calls ih =>
      intro answers rest c c' ms out got hplain hrec hok h
      have hspec := parseMessage_spec hplain hrec hok
      rw [parseCalls] at h
      split at h
      · rename_i message c₁ rest₁ hcall
        rw [hcall] at hspec
        obtain ⟨used₁, rfl, hadv⟩ := hspec
        have hoks : ∀ r ∈ rest₁, r.Harmless := fun r hr => hok r (List.mem_append_right _ hr)
        obtain ⟨⟨out', c₂, rest₂⟩, hcalls, h⟩ := Option.map_eq_some_iff.mp h
        cases h
        rcases hadv with ⟨rfl, hrec₁⟩ | ⟨m, ms₁, rfl, rfl, hread, hheader⟩
        · obtain ⟨ms', got', used, hms, rfl, hlen, hrec'⟩ := ih hplain hrec₁ hoks hcalls
          refine ⟨ms', got', used₁ ++ used, hms, (List.append_assoc ..).symm, ?_, hrec'⟩
          rw [readSum_append, ← Nat.add_assoc]
          exact hlen
        · obtain ⟨ms', got', used, hms, rfl, hlen, hrec'⟩ :=
            ih (fun x hx => hplain x (List.mem_cons_of_mem m hx)) (Receiving.header hheader) hoks
              hcalls
          refine ⟨ms', got', used₁ ++ used, by rw [hms]; rfl, (List.append_assoc ..).symm, ?_,
            hrec'⟩
          rw [readSum_append, ← Nat.add_assoc, hread]
          show _ = (encodeAll (m :: out')).length + got'
          rw [encodeAll_cons, List.length_append]
          omega
      · cases h

end RecvSide

namespace Receiving

variable {c : RecvSide} {m : MessageBase} {ms : List MessageBase} {got : Nat}

theorem live (h : Receiving c ms got) : c.disconnecting = false := by
  cases h with
  | header h => exact h.live
  | body h => exact h.live

/-- Nothing but the bytes of the next message has been read. -/
theorem stream (hplain : ∀ m ∈ ms, m.Plain) (h : Receiving c ms got) :
    c.rx.stream = (encodeAll ms).drop got := by
  cases h with
  | header h => exact h.stream
  | body h =>
      rename_i m ms base got
      rw [h.stream, encodeAll_cons, (hplain m (List.mem_cons_self ..)).encode_eq,
        List.append_assoc, ← length_fillMessageHeader m, List.drop_length_add_append]

theorem stream_nil (h : Receiving c [] got) : c.rx.stream = [] := by
  rw [h.stream (fun m hm => by cases hm), encodeAll, List.map_nil, List.flatten_nil,
    List.drop_nil]

/-- Not all of them have. -/
theorem lt_encode (hplain : ∀ m' ∈ m :: ms, m'.Plain) (h : Receiving c (m :: ms) got) :
    got < m.encode.length := by
  rw [(hplain m (List.mem_cons_self ..)).length_encode]
  cases h with
  | header h => exact Nat.lt_add_right _ h.short
  | body h => exact Nat.add_lt_add_left h.short _

theorem eq_zero (h : Receiving c [] got) : got = 0 := by
  cases h with
  | header h => exact Nat.le_zero.mp h.bound

end Receiving

/-- A connection that has just been made, with the bytes that will arrive. -/
def RecvSide.fresh (mem : Nat → UInt8) (stream : List UInt8) : RecvSide where
  rx := { iov := [], stream := stream, mem := mem }

theorem receiving_fresh (mem : Nat → UInt8) (ms : List MessageBase) :
    Receiving (RecvSide.fresh mem (encodeAll ms)) ms 0 :=
  Receiving.header ⟨rfl, rfl, rfl, by decide, Nat.zero_le _, rfl, rfl⟩

/-- With chunks that come to the end of all messages, as many calls as there are
answers return all of them. -/
theorem RecvSide.parseCalls_returns : ∀ {n : Nat} {answers : List ReadAnswer} {c : RecvSide}
    {ms : List MessageBase} {got : Nat}, answers.length ≤ n → (∀ m ∈ ms, m.Plain) →
    Receiving c ms got → (∀ r ∈ answers, r.Harmless) → Positive answers →
    Fragments (leftOf got (pieces ms)) (answers.map ReadAnswer.moves) →
    ∃ calls c' rest, calls ≤ n ∧ parseCalls calls answers c = some (ms, c', rest) ∧
      c'.rx.stream = [] := by
  intro n
  induction n with
  | zero =>
      intro answers c ms got hlen hplain hrec hok hpositive hfrag
      cases ms with
      | nil => exact ⟨0, c, answers, Nat.le_refl _, rfl, hrec.stream_nil⟩
      | cons m ms =>
          -- a message is still to come, and its chunks are among no answers
          obtain ⟨message, c', rest, -, hlt⟩ :=
            parseMessage_returns hplain hrec hok hpositive hfrag
          omega
  | succ n ih =>
      intro answers c ms got hlen hplain hrec hok hpositive hfrag
      cases ms with
      | nil => exact ⟨0, c, answers, Nat.zero_le _, rfl, hrec.stream_nil⟩
      | cons m ms =>
          obtain ⟨message, c', rest, hcall, hlt⟩ :=
            parseMessage_returns hplain hrec hok hpositive hfrag
          have hspec := parseMessage_spec hplain hrec hok
          rw [hcall] at hspec
          obtain ⟨used, rfl, hadv⟩ := hspec
          have hoks : ∀ r ∈ rest, r.Harmless := fun r hr => hok r (List.mem_append_right _ hr)
          rw [List.map_append] at hfrag
          have hrest := hfrag.drop (leftOf_pos (pieces_pos _))
          rw [leftOf_leftOf, ← readSum] at hrest
          rcases hadv with ⟨rfl, hrec'⟩ | ⟨m', ms', hms, rfl, hread, hheader⟩
          · -- the call has read a part of the message
            obtain ⟨calls, c'', rest', hle, hcalls, hnil⟩ :=
              ih (by omega) hplain hrec' hoks hpositive.drop hrest
            refine ⟨calls + 1, c'', rest', Nat.succ_le_succ hle, ?_, hnil⟩
            rw [parseCalls, hcall]
            simp only [hcalls, Option.map_some, Option.toList_none, List.nil_append]
          · -- it has returned the message
            cases hms
            rw [hread, (hplain m (List.mem_cons_self ..)).length_encode, pieces_cons, leftOf_add,
              leftOf_self] at hrest
            obtain ⟨calls, c'', rest', hle, hcalls, hnil⟩ :=
              ih (by omega) (fun x hx => hplain x (List.mem_cons_of_mem m hx))
                (Receiving.header hheader) hoks hpositive.drop hrest
            refine ⟨calls + 1, c'', rest', Nat.succ_le_succ hle, ?_, hnil⟩
            rw [parseCalls, hcall]
            simp only [hcalls, Option.map_some, Option.toList_some, List.singleton_append]

/-- However the stream is cut into chunks, the calls of `ParseMessage` return the
messages that were sent, in their order. Wherever the calls have got to, the
messages for which they have returned true are the first ones, less than the next
message has been read, and a call that returns a message has read exactly the
bytes of it that were missing. -/
theorem parseMessage_returns_sent {ms : List MessageBase} (hplain : ∀ m ∈ ms, m.Plain)
    (mem : Nat → UInt8) {answers : List ReadAnswer} (hok : ∀ r ∈ answers, r.Harmless) :
    let c₀ := RecvSide.fresh mem (encodeAll ms)
    (Positive answers → Fragments (pieces ms) (answers.map ReadAnswer.moves) →
      ∃ calls c rest, calls ≤ answers.length ∧
        RecvSide.parseCalls calls answers c₀ = some (ms, c, rest) ∧ c.rx.stream = []) ∧
    ∀ calls out c rest, RecvSide.parseCalls calls answers c₀ = some (out, c, rest) →
      ∃ ms' got used, ms = out ++ ms' ∧ answers = used ++ rest ∧
        readSum used = (encodeAll out).length + got ∧ c.disconnecting = false ∧
        c.rx.stream = (encodeAll ms').drop got ∧
        (∀ m ∈ ms'.head?, got < m.encode.length) ∧
        (c.rx.stream = [] → out = ms) ∧
        ∀ script, (∀ r ∈ script, r.Harmless) →
          c.parseMessage script ≠ .fault ∧
          ∀ message c' rest', c.parseMessage script = .returned (some message) c' rest' →
            ∃ ms'' used', ms' = message :: ms'' ∧ script = used' ++ rest' ∧
              got + readSum used' = message.encode.length ∧ c'.rx.stream = encodeAll ms'' := by
  intro c₀
  refine ⟨fun hpositive hfrag => ?_, ?_⟩
  · refine RecvSide.parseCalls_returns (Nat.le_refl _) hplain (receiving_fresh mem ms) hok
      hpositive ?_
    rw [leftOf_zero (pieces_pos _)]
    exact hfrag
  · intro calls out c rest h
    obtain ⟨ms', got, used, hms, hused, hread, hrec⟩ :=
      RecvSide.parseCalls_spec hplain (receiving_fresh mem ms) hok h
    have hplain' : ∀ m ∈ ms', m.Plain := by
      intro m hm
      exact hplain m (by rw [hms]; exact List.mem_append_right _ hm)
    have hstream := hrec.stream hplain'
    refine ⟨ms', got, used, hms, hused, by omega, hrec.live, hstream, ?_, ?_, ?_⟩
    · intro m hm
      obtain ⟨tail, rfl⟩ := List.head?_eq_some_iff.mp hm
      exact hrec.lt_encode hplain'
    · intro hnil
      cases ms' with
      | nil => rw [hms, List.append_nil]
      | cons m ms'' =>
          have hlt := hrec.lt_encode hplain'
          rw [hnil, encodeAll_cons, eq_comm, List.drop_eq_nil_iff, List.length_append] at hstream
          omega
    · intro script hscript
      have hspec := RecvSide.parseMessage_spec hplain' hrec hscript
      refine ⟨?_, ?_⟩
      · intro hfault
        rw [hfault] at hspec
        exact hspec
      · intro message c' rest' hcall
        rw [hcall] at hspec
        obtain ⟨used', hused', ⟨hnone, -⟩ | ⟨m, ms'', hcons, hsome, hread', hheader⟩⟩ := hspec
        · cases hnone
        · cases hsome
          exact ⟨ms'', used', hcons, hused', hread', hheader.stream⟩

/-- The second of these has neither name, url nor body. -/
def twoMessages : List MessageBase :=
  [{ from_ := ⟨[97], [98]⟩, to_ := ⟨[99], []⟩, name := [100], body := [101, 102] },
    { from_ := ⟨[], []⟩, to_ := ⟨[], []⟩, name := [], body := [] }]

/-- The header comes in two pieces, an `EAGAIN` ends the first call and another
errno the second, and there is one between the bytes of the strings. -/
def sixPieces : List ReadAnswer :=
  [.moved 3, .again, .moved 17, .moved 2, .again, .otherErrno, .moved 6, .moved 20, .moved 2]

theorem parseMessage_returns_sent_two :
    ∃ calls c rest, calls ≤ 9 ∧
      RecvSide.parseCalls calls sixPieces (RecvSide.fresh (fun _ => 0) (encodeAll twoMessages)) =
        some (twoMessages, c, rest) ∧ c.rx.stream = [] := by
  have hplain : ∀ m ∈ twoMessages, m.Plain := by
    intro m hm
    simp only [twoMessages, List.mem_cons, List.not_mem_nil, or_false] at hm
    rcases hm with rfl | rfl
    · exact ⟨rfl, rfl, by decide, by decide, by decide, by decide, by decide, by decide⟩
    · exact ⟨rfl, rfl, by decide, by decide, by decide, by decide, by decide, by decide⟩
  have hok : ∀ r ∈ sixPieces, r.Harmless := by
    simp [sixPieces, ReadAnswer.Harmless]
  have hpositive : Positive sixPieces := by
    simp [sixPieces, Positive]
  have hfrag : Fragments (pieces twoMessages) (sixPieces.map ReadAnswer.moves) := by
    simp [sixPieces, pieces, twoMessages, MessageBase.payload, AID.str, sizeofHeader,
      ReadAnswer.moves, Fragments]
  exact (parseMessage_returns_sent hplain (fun _ => 0) hok).1 hpositive hfrag

end Ccbase.Net

import Ccbase.Net.Flush
import Ccbase.Net.ReceiveRuns

/-!
# What a peer can make of a connection

A call of `ReceiveMessage` that has something to read gets on, a message takes
the bytes that its header has announced, and its addresses are split at an `@`:
each of these holds up to one kind of message, on which it fails.
-/

namespace Ccbase.Net

open Ccbase.Lib

/-! ## A call that waits -/

namespace RecvSide

/-- Without another byte the strings are left for the next call. -/
theorem parseBody_ends (c : RecvSide) : ∃ script message c',
    c.parseBody script = .returned message c' [] ∧ c'.rx.stream = c.rx.stream := by
  by_cases hzero : c.totalRecvLen = 0
  · have hout : TCPSocketOperation.receiveMessage c.totalRecvLen []
        { c.rx with recvLen := 0 } = .returned .ok { c.rx with recvLen := 0 } [] := if_pos hzero
    obtain ⟨message, c', hcall, hrx⟩ := parseBody_of_returned hout
    exact ⟨[], message, c', hcall, by rw [hrx]⟩
  · have hlt : ({ c.rx with recvLen := 0 } : RxState).recvLen < c.totalRecvLen :=
      Nat.pos_of_ne_zero hzero
    have hout : TCPSocketOperation.receiveMessage c.totalRecvLen [.otherErrno]
        { c.rx with recvLen := 0 } = .returned .ok { c.rx with recvLen := 0 } [] := by
      rw [TCPSocketOperation.receiveMessage, if_neg hzero]
      unfold TCPSocketOperation.receiveMessageLoop
      exact if_neg (not_not.mpr hlt)
    obtain ⟨message, c', hcall, hrx⟩ := parseBody_of_returned hout
    exact ⟨_, message, c', hcall, by rw [hrx]⟩

/-- The first bytes of the strings, and the call ends. -/
theorem parseBody_moved {c : RecvSide} {n : Nat} (htotal : c.totalRecvLen ≠ 0)
    (hcan : c.rx.CanRead c.rx.iov.flatten.length n) : ∃ script message c',
    c.parseBody (.moved n :: script) = .returned message c' [] ∧
      c'.rx.stream = c.rx.stream.drop n := by
  obtain ⟨script, rx, hout, hstream⟩ := TCPSocketOperation.receiveMessageLoop_ends
    (s := { c.rx with recvLen := 0 }) (Nat.pos_of_ne_zero htotal) hcan
  obtain ⟨message, c', hcall, hrx⟩ := parseBody_of_returned ((if_neg htotal).trans hout)
  exact ⟨script, message, c', hcall, by rw [hrx, hstream]⟩

end RecvSide

namespace Receiver

/-- How many bytes the next call asks for at first. -/
def asks (r : Receiver) : Nat :=
  match r.side.recvState with
  | .kMsgHeader => sizeofHeader - r.side.recvLen
  | .kBody => if r.side.totalRecvLen = 0 then 0 else r.side.rx.iov.flatten.length

theorem parseBody_of_side {r : Receiver} {answers rest : List ReadAnswer}
    {message : Option MessageBase} {c : RecvSide}
    (h : r.side.parseBody answers = .returned message c rest) :
    r.parseBody answers = .returned (message.map (deliver r.data)) { r with side := c } rest := by
  rw [parseBody, h]

theorem stream_fillRecvMessage (alloc : Allocation) (r : Receiver) :
    (r.fillRecvMessage alloc).side.rx.stream = r.side.rx.stream := by
  rw [fillRecvMessage]
  dsimp only
  split
  · rfl
  · rw [RecvSide.fillRecvMessage]
    split
    · rfl
    · rfl

theorem parseHeader_moved {r : Receiver} {n : Nat} (alloc : Allocation)
    (hcan : r.side.rx.CanRead (sizeofHeader - r.side.recvLen) n) : ∃ script message r',
    r.parseHeader alloc (.moved n :: script) = .returned message r' [] ∧
      r'.side.rx.stream = r.side.rx.stream.drop n := by
  have hpos := hcan.1
  have hle := hcan.2.1
  have hcan' : ({ r.side.rx with recvLen := 0 } : RxState).CanRead
      (sizeofHeader - r.side.recvLen - ({ r.side.rx with recvLen := 0 } : RxState).recvLen) n :=
    hcan
  by_cases hall : n = sizeofHeader - r.side.recvLen
  · -- with the last byte of the header the call goes on, and ends in the strings at the latest
    have hdone : 0 + n + r.side.recvLen = sizeofHeader := by omega
    have hreceive : ∀ script, TCPSocketOperation.receive (headerCells.drop r.side.recvLen)
        (sizeofHeader - r.side.recvLen) (.moved n :: script) r.side.rx =
        .returned .ok (RxState.arrive (headerCells.drop r.side.recvLen) n
          { r.side.rx with recvLen := 0 }) script :=
      fun script => TCPSocketOperation.receiveLoop_all script hcan'
        (by rw [Nat.zero_add]; exact hall)
    generalize hrx : RxState.arrive (headerCells.drop r.side.recvLen) n
      { r.side.rx with recvLen := 0 } = rx at hreceive
    have hstream : rx.stream = r.side.rx.stream.drop n := by rw [← hrx]; rfl
    have hlen : rx.recvLen + r.side.recvLen = sizeofHeader := by rw [← hrx]; exact hdone
    by_cases hmagic : (reorderHeader (headerCells.map rx.mem)).magic = rpcMagicId
    · obtain ⟨r₁, hr₁⟩ : ∃ r₁ : Receiver, r₁ = fillRecvMessage alloc
          { r with
            side := { r.side with rx := rx, recvLen := 0 }
            recvMsgHeader := reorderHeader (headerCells.map rx.mem) } := ⟨_, rfl⟩
      have hstream₁ : r₁.side.rx.stream = r.side.rx.stream.drop n := by
        rw [hr₁, stream_fillRecvMessage]
        exact hstream
      have hcall : ∀ script, r.parseHeader alloc (.moved n :: script) =
          if r₁.side.disconnecting then .returned none r₁ script
          else parseBody script { r₁ with side := { r₁.side with recvState := .kBody } } := by
        intro script
        rw [parseHeader]
        dsimp only
        rw [hreceive]
        dsimp only
        rw [if_neg (not_not.mpr rfl), if_neg (not_not.mpr hlen), if_neg (not_not.mpr hmagic), hr₁]
      by_cases hdis : r₁.side.disconnecting = true
      · exact ⟨[], none, r₁, by rw [hcall, if_pos hdis], hstream₁⟩
      · obtain ⟨script, message, c, hbody, hsame⟩ :=
          RecvSide.parseBody_ends { r₁.side with recvState := .kBody }
        refine ⟨script, message.map (deliver r₁.data), { r₁ with side := c }, ?_,
          hsame.trans hstream₁⟩
        rw [hcall, if_neg hdis]
        exact parseBody_of_side hbody
    · refine ⟨[], none, ?_⟩
      rw [parseHeader]
      dsimp only
      rw [hreceive]
      dsimp only
      rw [if_neg (not_not.mpr rfl), if_neg (not_not.mpr hlen), if_pos hmagic]
      exact ⟨_, rfl, hstream⟩
  · refine ⟨[.otherErrno], ?_⟩
    rw [parseHeader, TCPSocketOperation.receive]
    dsimp only
    rw [TCPSocketOperation.receiveLoop_part hcan' (by rw [Nat.zero_add]; exact hall)]
    dsimp only
    rw [if_neg (not_not.mpr rfl), if_pos]
    · exact ⟨_, _, rfl, rfl⟩
    · show 0 + n + r.side.recvLen ≠ sizeofHeader
      omega

theorem parseMessage_moved {r : Receiver} {n : Nat} (alloc : Allocation)
    (hcan : r.side.rx.CanRead r.asks n) : ∃ script message r',
    r.parseMessage alloc (.moved n :: script) = .returned message r' [] ∧
      r'.side.rx.stream = r.side.rx.stream.drop n := by
  rw [asks] at hcan
  cases hstate : r.side.recvState with
  | kMsgHeader =>
      rw [hstate] at hcan
      obtain ⟨script, message, r', hcall, hstream⟩ := parseHeader_moved alloc hcan
      refine ⟨script, message, r', ?_, hstream⟩
      rw [parseMessage, hstate]
      exact hcall
  | kBody =>
      rw [hstate] at hcan
      dsimp only at hcan
      have hpos := hcan.1
      split at hcan
      · exact absurd hcan.2.1 (Nat.not_le.mpr hpos)
      · rename_i htotal
        obtain ⟨script, message, c, hcall, hstream⟩ := RecvSide.parseBody_moved htotal hcan
        refine ⟨script, message.map (deliver r.data), { r with side := c }, ?_, hstream⟩
        rw [parseMessage, hstate]
        exact parseBody_of_side hcall

end Receiver

namespace Reading

variable {mem : Nat → UInt8} {stream : List UInt8} {calls : List ReceiveCall} {t t' : Reading}
  {call : ReceiveCall} {out : ReceiveReturn} {m : MessageBase}

/-- A call does not wait before it has read: once `recv` or `recvmsg` has brought
any number of the bytes it was asked for, the call can be brought to its end, and
it has read these bytes. -/
theorem receive_moved {n : Nat} (alloc : Allocation)
    (hcan : t.conn.side.rx.CanRead t.conn.asks n) : ∃ script out t',
    t.receive { alloc := alloc, answers := .moved n :: script } = some (out, t') ∧
      out.conn.side.rx.stream = t.conn.side.rx.stream.drop n := by
  obtain ⟨script, message, r', hparse, hstream⟩ := Receiver.parseMessage_moved alloc hcan
  refine ⟨script, ?_⟩
  rw [receive, Receiver.receiveMessage, hparse]
  cases message with
  | none => exact ⟨_, _, rfl, hstream⟩
  | some m => exact ⟨_, _, rfl, hstream⟩

/-! ## Getting on -/

/-- The call has read a byte, handed over a message or left the connection in
`kDisconnecting`. -/
def Progress (t : Reading) (out : ReceiveReturn) : Prop :=
  out.conn.side.rx.stream.length < t.conn.side.rx.stream.length ∨ out.message.isSome = true ∨
    out.conn.side.disconnecting = true

instance (t : Reading) (out : ReceiveReturn) : Decidable (t.Progress out) :=
  inferInstanceAs (Decidable (_ ∨ _ ∨ _))

/-- An empty message is refused again and again. -/
theorem not_progress_of_asksNothing (hdis : t.conn.side.disconnecting = false)
    (hplace : Place t.conn t.alloc t.bytes) (hasks : t.conn.AsksNothing t.alloc)
    (hcall : t.receive call = some (out, t')) : ¬ t.Progress out := by
  obtain ⟨out', hout, heq⟩ := Option.map_eq_some_iff.mp hcall
  cases heq
  obtain ⟨r', hparse, hconn⟩ := Receiver.parseMessage_of_receiveMessage hout
  have hstate := hasks.1
  have hzero := (Receiver.asksNothing_iff hstate).mp hasks
  cases hplace with
  | header hheader =>
      rw [hstate] at hheader
      cases hheader
  | stuck hstuck =>
      have hpos := hstuck.total
      have hbound := hstuck.bound
      omega
  | strings hbytes hhead hin =>
      rw [Receiver.parseMessage, hstate] at hparse
      dsimp only at hparse
      rw [Receiver.parseBody, hin.parseBody_empty hzero] at hparse
      dsimp only at hparse
      rw [ParseResult.returned.injEq] at hparse
      obtain ⟨hnone, rfl, -⟩ := hparse
      rw [Option.map_none] at hnone
      rw [← hnone, Option.isSome_none, Bool.false_and, Receiver.closing_false] at hconn
      rw [Progress, hconn, ← hnone]
      rintro (hless | hsome | hbad)
      · exact Nat.lt_irrefl _ hless
      · cases hsome
      · exact absurd (hdis.symm.trans hbad) (by simp)

/-- In every run, whatever the peer sends, a call that is answered gets on exactly
if the connection is in `kDisconnecting` or the header accepted last has asked
for a byte. -/
theorem progress_iff (hrun : Run Step (start mem stream) calls t)
    (hcall : t.receive call = some (out, t')) (hans : Answered call.answers) :
    t.Progress out ↔
      t.conn.side.disconnecting = true ∨ ¬ t.conn.AsksNothing t.alloc := by
  have hspec := outcome_of_receive hcall
  have hconn := hspec.conn
  constructor
  · intro hprogress
    by_cases hdis : t.conn.side.disconnecting = true
    · exact Or.inl hdis
    · right
      intro hasks
      rcases inv_of_run hrun with hbad | hplace
      · exact hdis hbad
      · exact not_progress_of_asksNothing (Bool.eq_false_iff.mpr hdis) hplace hasks hcall hprogress
  · rintro (hdis | hasks)
    · right
      right
      rw [← hconn]
      exact hspec.lasts.disconnecting hdis
    · rcases inv_of_run hrun with hbad | hplace
      · right
        right
        rw [← hconn]
        exact hspec.lasts.disconnecting hbad
      · have hmoves := hspec.moves hplace hans hasks
        rw [hconn] at hmoves
        rcases hmoves with hbad | hless
        · exact Or.inr (Or.inr hbad)
        · exact Or.inl hless

theorem progress_iff_fresh :
    ∃ out t', (start (fun _ => 0) SendSide.emptyMessage.encode).receive
      { answers := [.moved 3, .again] } =
      some (out, t') ∧ Progress (start (fun _ => 0) SendSide.emptyMessage.encode) out := by
  have hsome : ((start (fun _ => 0) SendSide.emptyMessage.encode).receive
      { answers := [.moved 3, .again] }).isSome := by
    decide +kernel
  obtain ⟨⟨out, t'⟩, hcall⟩ := Option.isSome_iff_exists.mp hsome
  refine ⟨out, t', hcall, (progress_iff .nil hcall ?_).mpr (Or.inr (by decide))⟩
  intro r hr
  cases hr
  exact ⟨nofun, nofun⟩

/-- A header that asks for nothing, and one more byte. -/
def emptyHeader : List UInt8 :=
  rpcMagicId ++ htonl 0 ++ htonl 0 ++ htonl 0 ++ htonl 0 ++ [82]

/-- After such a header the next call leaves everything as it is, for ever. -/
theorem empty_header_wedges :
    ¬ ∀ mem stream calls t call out t', Run Step (start mem stream) calls t →
      t.conn.side.rx.stream ≠ [] → t.receive call = some (out, t') → Answered call.answers →
      t.Progress out := by
  intro hall
  have heval : ((start (fun _ => 0) emptyHeader).receive { answers := [.moved 20] }).bind
      (fun p => (p.2.receive { answers := [] }).map fun q =>
        (decide (p.2.conn.side.rx.stream = []), decide (p.2.Progress q.1))) =
      some (false, false) := by
    decide +kernel
  obtain ⟨⟨out, t⟩, hfirst, hsecond⟩ := Option.bind_eq_some_iff.mp heval
  obtain ⟨⟨out', t'⟩, hcall, hfalse⟩ := Option.map_eq_some_iff.mp hsecond
  simp only [Prod.mk.injEq, decide_eq_false_iff_not] at hfalse
  exact hfalse.2 (hall _ _ _ t _ out' t' (Run.single ⟨out, hfirst⟩) hfalse.1 hcall nofun)

/-! ## Framing -/

/-- The bytes that the header in `recv_msg_header` announces, itself included. -/
def announced (t : Reading) : Nat :=
  let h := t.conn.recvMsgHeader
  sizeofHeader + h.nameLen + h.toLen + h.fromLen + h.bodyLen

theorem realDataSize_eq_iff (alloc : Allocation) (n : Nat) :
    alloc.realDataSize n = n ↔ (alloc = .null → n = 0) := by
  cases alloc <;> simp [Allocation.realDataSize, eq_comm]

/-- In every run a message that is handed over has taken the bytes that its header
announces, or the connection is in `kDisconnecting`, exactly if the connection was
already being closed, or the reply fails, or the callback has not returned
`nullptr` for a body that is not empty. -/
theorem read_eq_announced_iff (hrun : Run Step (start mem stream) calls t)
    (hcall : t.receive call = some (out, t')) (hmessage : out.message = some m) :
    ((t.read t'.conn.side.rx.stream).length = t'.announced ∨
        t'.conn.side.disconnecting = true) ↔
      (t.conn.side.disconnecting = true ∨ call.replyFails = true ∨
        (t'.alloc = .null → t'.conn.recvMsgHeader.bodyLen = 0)) := by
  have hspec := outcome_of_receive hcall
  by_cases hdis : t.conn.side.disconnecting = true
  · exact ⟨fun _ => Or.inl hdis, fun _ => Or.inr (hspec.lasts.disconnecting hdis)⟩
  · have hplace := (inv_of_run hrun).resolve_left hdis
    rcases hspec.place hplace with ⟨hnone, -⟩ | ⟨hkeep, -, hwhole⟩
    · rw [hmessage] at hnone
      cases hnone
    · obtain ⟨head, payload, hwhole⟩ := hwhole m hmessage
      rw [Bool.eq_false_iff.mpr hdis, hmessage, Option.isSome_some, Bool.true_and,
        Bool.false_or] at hkeep
      have hlen : (t.read t'.conn.side.rx.stream).length = t'.announced ↔
          (t'.alloc = .null → t'.conn.recvMsgHeader.bodyLen = 0) := by
        rw [hwhole.bytes, List.length_append, hwhole.head.length, hwhole.all, announced,
          ← realDataSize_eq_iff]
        simp only [MessageHeader.payloadLen, MessageHeader.stored]
        omega
      rw [hlen, hkeep]
      constructor
      · rintro (hbody | hfails)
        · exact Or.inr (Or.inr hbody)
        · exact Or.inr (Or.inl hfails)
      · rintro (hbad | hfails | hbody)
        · exact absurd hbad hdis
        · exact Or.inr hfails
        · exact Or.inl hbody

/-- A message with one byte in its body. -/
def oneByte : MessageBase :=
  { from_ := ⟨[], []⟩, to_ := ⟨[], []⟩, name := [], body := [7] }

theorem read_eq_announced_iff_memory :
    ∃ out t', (start (fun _ => 0) oneByte.encode).receive
      { alloc := .memory, answers := [.moved 20, .moved 3] } = some (out, t') ∧
      ((read (start (fun _ => 0) oneByte.encode) t'.conn.side.rx.stream).length = t'.announced ∨
        t'.conn.side.disconnecting = true) := by
  have heval : ((start (fun _ => 0) oneByte.encode).receive
      { alloc := .memory, answers := [.moved 20, .moved 3] }).map (fun p => p.1.message.isSome) =
      some true := by
    decide +kernel
  obtain ⟨⟨out, t'⟩, hcall, hsome⟩ := Option.map_eq_some_iff.mp heval
  obtain ⟨m, hmessage⟩ := Option.isSome_iff_exists.mp hsome
  refine ⟨out, t', hcall, (read_eq_announced_iff .nil hcall hmessage).mpr ?_⟩
  right
  right
  rw [(outcome_of_receive hcall).alloc]
  exact nofun

/-- If the callback returns `nullptr` the byte of the body stays in the stream, in
front of the next header. -/
theorem null_allocation_misframes :
    ¬ ∀ mem stream calls t call out t' m, Run Step (start mem stream) calls t →
      t.receive call = some (out, t') → out.message = some m →
      (t.read t'.conn.side.rx.stream).length = t'.announced ∨
        t'.conn.side.disconnecting = true := by
  intro hall
  have heval : ((start (fun _ => 0) oneByte.encode).receive
      { alloc := .null, answers := [.moved 20, .moved 2] }).map (fun p => (p.1.message.isSome,
        decide ((read (start (fun _ => 0) oneByte.encode) p.2.conn.side.rx.stream).length =
          p.2.announced ∨ p.2.conn.side.disconnecting = true))) = some (true, false) := by
    decide +kernel
  obtain ⟨⟨out, t'⟩, hcall, hpair⟩ := Option.map_eq_some_iff.mp heval
  simp only [Prod.mk.injEq, decide_eq_false_iff_not] at hpair
  obtain ⟨m, hmessage⟩ := Option.isSome_iff_exists.mp hpair.1
  exact hpair.2 (hall _ _ [] _ _ out t' m .nil hcall hmessage)

/-! ## Addresses -/

/-- `a` are the texts before and behind the first `@` of `s`. -/
def SplitsAtFirst (a : AID) (s : List UInt8) : Prop := at_ ∉ a.name ∧ s = a.str

instance (a : AID) (s : List UInt8) : Decidable (SplitsAtFirst a s) :=
  inferInstanceAs (Decidable (_ ∧ _))

theorem splitsAtFirst_splitUrl_iff (s : List UInt8) : SplitsAtFirst (splitUrl s) s ↔ at_ ∈ s := by
  constructor
  · rintro ⟨-, hs⟩
    rw [hs, AID.str]
    simp
  · intro hmem
    obtain ⟨name, url, hs, hname⟩ := List.eq_append_cons_of_mem hmem
    have hurl : splitUrl s = ⟨name, url⟩ := by
      rw [hs, ← AID.str.eq_1 ⟨name, url⟩]
      exact splitUrl_str hname
    rw [hurl]
    exact ⟨hname, hs⟩

theorem idxOf?_eq_none_iff (s : List UInt8) : s.idxOf? at_ = none ↔ at_ ∉ s := by
  rw [List.idxOf?_eq_none_iff]

/-- What `SetUrlForRecvMessage` makes of two texts of which one has an `@`. -/
theorem setUrlForRecvMessage_eq_some {recvFrom recvTo : List UInt8} {from_ to_ : AID}
    (h : RecvSide.setUrlForRecvMessage recvFrom recvTo = some (from_, to_)) :
    (at_ ∈ recvFrom ∨ at_ ∈ recvTo) ∧ from_ = splitUrl recvFrom ∧ to_ = splitUrl recvTo := by
  rw [RecvSide.setUrlForRecvMessage] at h
  split at h
  · cases h
  · rename_i hsep
    cases h
    rw [idxOf?_eq_none_iff, idxOf?_eq_none_iff] at hsep
    exact ⟨by tauto, rfl, rfl⟩

/-- `recv_from` and `recv_to`. -/
def recvFrom (t : Reading) : List UInt8 :=
  t.conn.side.recvMessage.from_.map t.conn.side.rx.mem

def recvTo (t : Reading) : List UInt8 :=
  t.conn.side.recvMessage.to_.map t.conn.side.rx.mem

/-- In every run the addresses of a message that is handed over are the texts
before and behind the first `@` of the two fields exactly if not only one of the
fields has an `@`. The fields are the bytes behind the name, in the lengths that
the header announces, unless the connection is being closed. -/
theorem splitsAtFirst_iff (hrun : Run Step (start mem stream) calls t)
    (hcall : t.receive call = some (out, t')) (hmessage : out.message = some m) :
    ((SplitsAtFirst m.from_ t'.recvFrom ∧ SplitsAtFirst m.to_ t'.recvTo) ↔
        (at_ ∈ t'.recvFrom ↔ at_ ∈ t'.recvTo)) ∧
      (t.conn.side.disconnecting = false →
        let h := t'.conn.recvMsgHeader
        let bytes := t.read t'.conn.side.rx.stream
        h = reorderHeader (bytes.take sizeofHeader) ∧
        t'.recvTo = (bytes.drop (sizeofHeader + h.nameLen)).take h.toLen ∧
        t'.recvFrom = (bytes.drop (sizeofHeader + h.nameLen + h.toLen)).take h.fromLen) := by
  have hspec := outcome_of_receive hcall
  constructor
  · obtain ⟨hsep, hfrom, hto⟩ := setUrlForRecvMessage_eq_some (hspec.lasts.urls m hmessage)
    change at_ ∈ t'.recvFrom ∨ at_ ∈ t'.recvTo at hsep
    change m.from_ = splitUrl t'.recvFrom at hfrom
    change m.to_ = splitUrl t'.recvTo at hto
    rw [hfrom, hto, splitsAtFirst_splitUrl_iff, splitsAtFirst_splitUrl_iff]
    tauto
  · intro hdis h bytes
    have hplace := (inv_of_run hrun).resolve_left (by rw [hdis]; exact nofun)
    rcases hspec.place hplace with ⟨hnone, -⟩ | ⟨-, -, hwhole⟩
    · rw [hmessage] at hnone
      cases hnone
    · obtain ⟨head, payload, hwhole⟩ := hwhole m hmessage
      have hbytes : bytes = head ++ payload := hwhole.bytes
      have hdrop : ∀ n, bytes.drop (sizeofHeader + n) = payload.drop n := by
        intro n
        rw [hbytes, ← hwhole.head.length, List.drop_length_add_append]
      refine ⟨?_, ?_, ?_⟩
      · rw [hbytes, List.take_left' hwhole.head.length]
        exact hwhole.head.header
      · rw [hdrop]
        exact hwhole.recvTo
      · rw [Nat.add_assoc, hdrop]
        exact hwhole.recvFrom

theorem splitsAtFirst_iff_oneByte :
    ∃ out t', ∃ m : MessageBase,
      (start (fun _ => 0) oneByte.encode).receive { answers := [.moved 20, .moved 3] } =
      some (out, t') ∧ SplitsAtFirst m.from_ t'.recvFrom ∧ SplitsAtFirst m.to_ t'.recvTo := by
  have heval : ((start (fun _ => 0) oneByte.encode).receive
      { answers := [.moved 20, .moved 3] }).map (fun p => (p.1.message.isSome,
        decide (at_ ∈ p.2.recvFrom ↔ at_ ∈ p.2.recvTo))) = some (true, true) := by
    decide +kernel
  obtain ⟨⟨out, t'⟩, hcall, hpair⟩ := Option.map_eq_some_iff.mp heval
  simp only [Prod.mk.injEq, decide_eq_true_iff] at hpair
  obtain ⟨m, hmessage⟩ := Option.isSome_iff_exists.mp hpair.1
  exact ⟨out, t', m, hcall, (splitsAtFirst_iff .nil hcall hmessage).1.mpr hpair.2⟩

/-- A message from `@` to nobody. -/
def toNobody : List UInt8 :=
  rpcMagicId ++ htonl 0 ++ htonl 0 ++ htonl 1 ++ htonl 0 ++ [at_]

/-- It is handed over, although its `to` has no separator. -/
theorem missing_separator_accepted :
    ¬ ∀ mem stream calls t call out t' m, Run Step (start mem stream) calls t →
      t.receive call = some (out, t') → out.message = some m →
      SplitsAtFirst m.from_ t'.recvFrom ∧ SplitsAtFirst m.to_ t'.recvTo := by
  intro hall
  have heval : ((start (fun _ => 0) toNobody).receive
      { answers := [.moved 20, .moved 1] }).map (fun p => (p.1.message.isSome,
        decide (at_ ∈ p.2.recvTo))) = some (true, false) := by
    decide +kernel
  obtain ⟨⟨out, t'⟩, hcall, hpair⟩ := Option.map_eq_some_iff.mp heval
  simp only [Prod.mk.injEq, decide_eq_false_iff_not] at hpair
  obtain ⟨m, hmessage⟩ := Option.isSome_iff_exists.mp hpair.1
  obtain ⟨-, -, hto⟩ := hall _ _ [] _ _ out t' m .nil hcall hmessage
  exact hpair.2 (by rw [hto, AID.str]; simp)

end Reading

end Ccbase.Net

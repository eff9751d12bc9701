import Ccbase.Lib.SizeT
import Ccbase.Net.Flush
import Ccbase.Net.Message
import Mathlib.Tactic.Common

/-!
# The size of a message

The size of a message is computed in three places. `FillMessageHeader` casts
each length to `uint32_t`, `FillSendMessage` adds them up as `size_t`, and
`GetMessageSize` adds them up without a look at `data`. Here a message has the
pointer `data` and the 64-bit `size` as the source has them, which need not
have anything to do with `body`.
-/

namespace Ccbase.Net

open Ccbase.Lib

/-- `MessageBase` with its pointer and size; `data = 0` is `nullptr`. -/
structure RawMessage where
  type : MsgType := .kmsg
  from_ : AID
  to_ : AID
  name : List UInt8
  body : List UInt8
  data : Nat := 0
  size : Nat := 0
  size_lt : size < sizeBound := by decide
  body_lt : body.length < sizeBound := by decide

/-- What `FillSendMessage` leaves in the connection: `send_msg_header`, the
`iov_len` of `send_io_vec` and `total_send_len`. -/
structure SendFrame where
  sendMsgHeader : List UInt8 := []
  iovLen : List Nat := []
  totalSendLen : Nat := 0
  deriving DecidableEq, Repr

namespace RawMessage

/-- `GetMessageBaseRealDataSize`. -/
def getMessageBaseRealDataSize (m : RawMessage) : Nat :=
  if m.data ≠ 0 then m.size
  else if m.body ≠ [] then m.body.length
  else 0

def fillMessageHeader (m : RawMessage) : List UInt8 :=
  rpcMagicId ++ htonl m.name.length ++ htonl m.to_.str.length ++ htonl m.from_.str.length ++
    if m.data ≠ 0 then htonl m.size else htonl m.body.length

def getMessageSize (m : RawMessage) : Nat :=
  addSize (addSize (addSize (addSize m.name.length m.to_.str.length) m.from_.str.length)
    m.body.length) sizeofHeader

/-- `FillSendMessage` with `isHttpKmsg` unset. -/
def fillSendMessage (m : RawMessage) (f : SendFrame) : SendFrame :=
  if m.type = .kmsg then
    { sendMsgHeader := m.fillMessageHeader
      iovLen := [sizeofHeader, m.name.length, m.to_.str.length, m.from_.str.length,
        m.getMessageBaseRealDataSize]
      totalSendLen := addSize (addSize (addSize (addSize sizeofHeader m.name.length)
        m.to_.str.length) m.from_.str.length) m.getMessageBaseRealDataSize }
  else f

end RawMessage

/-- The lengths of a header, in the order of the iovecs. -/
def MessageHeader.lengths (h : MessageHeader) : List Nat :=
  [h.nameLen, h.toLen, h.fromLen, h.bodyLen]

/-- The header and the iovecs have the same four lengths, `total_send_len` is
all of it, and so is what `GetMessageSize` says. -/
structure RawMessage.SizesAgree (m : RawMessage) (f : SendFrame) : Prop where
  lengths : (reorderHeader f.sendMsgHeader).lengths = f.iovLen.tail
  total : f.totalSendLen = sizeofHeader + f.iovLen.tail.sum
  size : m.getMessageSize = f.totalSendLen

/-- Every length is an `uint32_t`, and the data, if there are any, are as long as
the body. -/
structure RawMessage.SizesFit (m : RawMessage) : Prop where
  name : m.name.length < 2 ^ 32
  to_ : m.to_.str.length < 2 ^ 32
  from_ : m.from_.str.length < 2 ^ 32
  body : m.body.length < 2 ^ 32
  data : m.data ≠ 0 → m.size = m.body.length

/-- The cast to `uint32_t`. -/
theorem ntohl_htonl_mod (n : Nat) : ntohl (htonl n) = n % 2 ^ 32 := by
  simp only [htonl, ntohl, UInt8.toNat_ofNat', Nat.mod_mod]
  omega

namespace RawMessage

theorem realDataSize_eq (m : RawMessage) :
    m.getMessageBaseRealDataSize = if m.data ≠ 0 then m.size else m.body.length := by
  rw [getMessageBaseRealDataSize]
  split
  · rfl
  · split
    · rfl
    · rename_i hnil
      rw [not_not.mp hnil]
      rfl

theorem realDataSize_lt (m : RawMessage) : m.getMessageBaseRealDataSize < sizeBound := by
  rw [realDataSize_eq]
  split
  · exact m.size_lt
  · exact m.body_lt

theorem fillMessageHeader_eq (m : RawMessage) :
    m.fillMessageHeader = rpcMagicId ++ htonl m.name.length ++ htonl m.to_.str.length ++
      htonl m.from_.str.length ++ htonl m.getMessageBaseRealDataSize := by
  rw [fillMessageHeader, realDataSize_eq]
  split <;> rfl

/-- The four lengths that the receiver of the header reads. -/
theorem lengths_fillMessageHeader (m : RawMessage) :
    (reorderHeader m.fillMessageHeader).lengths =
      [m.name.length % 2 ^ 32, m.to_.str.length % 2 ^ 32, m.from_.str.length % 2 ^ 32,
        m.getMessageBaseRealDataSize % 2 ^ 32] := by
  have h := ntohl_htonl_mod
  simp only [htonl] at h
  simp only [fillMessageHeader_eq, MessageHeader.lengths, reorderHeader, rpcMagicId, htonl,
    List.cons_append, List.nil_append, List.take_succ_cons, List.take_zero, List.drop_succ_cons,
    List.drop_zero, h]

/-- Five summands wrap like their sum. -/
theorem addSize_chain (v w x y z : Nat) :
    addSize (addSize (addSize (addSize v w) x) y) z = (v + w + x + y + z) % sizeBound := by
  simp only [addSize, Nat.mod_add_mod]

theorem getMessageSize_eq (m : RawMessage) :
    m.getMessageSize = (sizeofHeader + m.name.length + m.to_.str.length + m.from_.str.length +
      m.body.length) % sizeBound := by
  rw [getMessageSize, addSize_chain]
  congr 1
  omega

theorem totalSendLen_eq {m : RawMessage} (h : m.type = .kmsg) (f : SendFrame) :
    (m.fillSendMessage f).totalSendLen = (sizeofHeader + m.name.length + m.to_.str.length +
      m.from_.str.length + m.getMessageBaseRealDataSize) % sizeBound := by
  rw [fillSendMessage, if_pos h]
  exact addSize_chain ..

/-- `GetMessageSize` is right exactly if the payload is as long as the body. -/
theorem getMessageSize_eq_total_iff {m : RawMessage} (h : m.type = .kmsg) (f : SendFrame) :
    m.getMessageSize = (m.fillSendMessage f).totalSendLen ↔
      m.body.length = m.getMessageBaseRealDataSize := by
  rw [getMessageSize_eq, totalSendLen_eq h]
  have hbody := m.body_lt
  have hreal := m.realDataSize_lt
  have hbound : sizeBound = 18446744073709551616 := rfl
  rw [hbound] at hbody hreal ⊢
  omega

theorem data_iff (m : RawMessage) :
    m.body.length = m.getMessageBaseRealDataSize ↔ (m.data ≠ 0 → m.size = m.body.length) := by
  rw [realDataSize_eq]
  split
  · rename_i hdata
    exact ⟨fun heq _ => heq.symm, fun heq => (heq hdata).symm⟩
  · rename_i hdata
    exact ⟨fun _ hne => absurd hne hdata, fun _ => rfl⟩

/-- The three sizes agree exactly for the messages whose lengths fit the header
and whose data, if set, are as long as the body. -/
theorem sizesAgree_iff_sizesFit {m : RawMessage} (h : m.type = .kmsg) (f : SendFrame) :
    m.SizesAgree (m.fillSendMessage f) ↔ m.SizesFit := by
  have hheader : (m.fillSendMessage f).sendMsgHeader = m.fillMessageHeader := by
    rw [fillSendMessage, if_pos h]
  have hiov : (m.fillSendMessage f).iovLen.tail = [m.name.length, m.to_.str.length,
      m.from_.str.length, m.getMessageBaseRealDataSize] := by
    rw [fillSendMessage, if_pos h]
    rfl
  constructor
  · rintro ⟨hlengths, -, hsize⟩
    rw [getMessageSize_eq_total_iff h] at hsize
    rw [hheader, hiov, lengths_fillMessageHeader] at hlengths
    simp only [List.cons.injEq, and_true] at hlengths
    obtain ⟨hname, hto, hfrom, hreal⟩ := hlengths
    have hlt : ∀ n : Nat, n % 2 ^ 32 < 2 ^ 32 := fun n => Nat.mod_lt n (by decide)
    refine ⟨?_, ?_, ?_, ?_, (data_iff m).mp hsize⟩
    · rw [← hname]
      exact hlt _
    · rw [← hto]
      exact hlt _
    · rw [← hfrom]
      exact hlt _
    · rw [hsize, ← hreal]
      exact hlt _
  · intro hfit
    have hdata := (data_iff m).mpr hfit.data
    obtain ⟨hname, hto, hfrom, hbody, -⟩ := hfit
    refine ⟨?_, ?_, (getMessageSize_eq_total_iff h f).mpr hdata⟩
    · rw [hheader, hiov, lengths_fillMessageHeader, ← hdata, Nat.mod_eq_of_lt hname,
        Nat.mod_eq_of_lt hto, Nat.mod_eq_of_lt hfrom, Nat.mod_eq_of_lt hbody]
    · have hbound : sizeBound = 18446744073709551616 := rfl
      rw [hiov, totalSendLen_eq h, ← hdata, hbound]
      simp only [List.sum_cons, List.sum_nil, sizeofHeader]
      omega

/-- Five bytes in `body`. -/
def inBody : RawMessage where
  from_ := ⟨[97], [98]⟩
  to_ := ⟨[99], []⟩
  name := [100]
  body := [1, 2, 3, 4, 5]

theorem sizesAgree_iff_sizesFit_inBody :
    inBody.type = .kmsg ∧ inBody.SizesAgree (inBody.fillSendMessage {}) :=
  ⟨rfl, (sizesAgree_iff_sizesFit rfl {}).mpr
    ⟨by decide, by decide, by decide, by decide, fun h => absurd rfl h⟩⟩

/-- Five bytes at `data`, which `GetMessageSize` does not count. -/
def atData : RawMessage where
  from_ := ⟨[97], [98]⟩
  to_ := ⟨[99], []⟩
  name := [100]
  body := []
  data := 4096
  size := 5

theorem getMessageSize_ignores_data :
    ¬ ∀ (m : RawMessage) (f : SendFrame), m.type = .kmsg → m.SizesAgree (m.fillSendMessage f) := by
  intro hall
  have hsize := (hall atData {} rfl).size
  revert hsize
  decide

/-! ## The message that is sent -/

/-- The message with the bytes that the memory has at `data`. -/
def toMessageBase (mem : Nat → UInt8) (m : RawMessage) : MessageBase where
  type := m.type
  from_ := m.from_
  to_ := m.to_
  name := m.name
  body := m.body
  data := if m.data ≠ 0 then some ((List.range' m.data m.size).map mem) else none

theorem length_realData (mem : Nat → UInt8) (m : RawMessage) :
    (m.toMessageBase mem).realData.length = m.getMessageBaseRealDataSize := by
  rw [realDataSize_eq, MessageBase.realData, toMessageBase]
  split
  · simp
  · rfl

/-- What `Flush` sends is what is computed here, as long as `total_send_len` does
not wrap. -/
theorem fillSendMessage_refines (mem : Nat → UInt8) {m : RawMessage} (h : m.type = .kmsg)
    (c : SendSide) (f : SendFrame) (hfit : m.SizesFit) :
    let c' := c.fillSendMessage (m.toMessageBase mem)
    let f' := m.fillSendMessage f
    c'.totalSendLen = f'.totalSendLen ∧ c'.tx.iov.map List.length = f'.iovLen ∧
      c'.tx.iov.head? = some f'.sendMsgHeader := by
  have hagree := (sizesAgree_iff_sizesFit h f).mpr hfit
  have hreal := length_realData mem m
  have htype : (m.toMessageBase mem).type = .kmsg := h
  have hheader : Net.fillMessageHeader (m.toMessageBase mem) = m.fillMessageHeader := by
    rw [fillMessageHeader_eq, Net.fillMessageHeader, hreal]
    rfl
  dsimp only
  refine ⟨?_, ?_, ?_⟩
  · rw [hagree.total, SendSide.fillSendMessage, if_pos htype, fillSendMessage, if_pos h]
    simp only [hreal, List.tail_cons, List.sum_cons, List.sum_nil]
    show sizeofHeader + m.name.length + m.to_.str.length + m.from_.str.length + _ = _
    omega
  · rw [SendSide.fillSendMessage, if_pos htype, fillSendMessage, if_pos h]
    simp only [MessageBase.ioVec, List.map_cons, List.map_nil, length_fillMessageHeader, hreal]
    rfl
  · rw [SendSide.fillSendMessage, if_pos htype, fillSendMessage, if_pos h]
    simp only [MessageBase.ioVec, List.head?_cons, hheader]

end RawMessage

end Ccbase.Net

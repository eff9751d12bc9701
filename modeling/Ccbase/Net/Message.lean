import Ccbase.Lib.SizeT
import Mathlib.Data.List.Basic
import Mathlib.Tactic.Common

/-!
# `MessageBase` and its encoding

A string is the list of its bytes. A message is sent as five pieces: the header
with the four lengths in network byte order, the name, the two addresses in
their string form `name@url`, and the data.
-/

namespace Ccbase.Net

open Ccbase.Lib

/-- `AID` stores the name and the url as they are given. -/
structure AID where
  name : List UInt8
  url : List UInt8
  deriving DecidableEq, Repr

/-- The separator `@`. -/
def at_ : UInt8 := 64

/-- `operator std::string`. -/
def AID.str (a : AID) : List UInt8 := a.name ++ at_ :: a.url

/-- `MessageBase::Type`. -/
inductive MsgType where
  | kmsg
  | kudp
  | khttp
  | kasync
  | klocal
  | kexit
  | kterminate
  deriving DecidableEq, Repr

/-- `data` are the bytes that `data` and `size` give, if `data` is set. -/
structure MessageBase where
  type : MsgType := .kmsg
  from_ : AID
  to_ : AID
  name : List UInt8
  body : List UInt8
  data : Option (List UInt8) := none
  deriving DecidableEq, Repr

/-- `GetMessageBaseRealData` and `GetMessageBaseRealDataSize`. -/
def MessageBase.realData (m : MessageBase) : List UInt8 := m.data.getD m.body

/-! ## The header -/

/-- The fields of `MessageHeader` in the byte order of the host. -/
structure MessageHeader where
  magic : List UInt8
  nameLen : Nat
  toLen : Nat
  fromLen : Nat
  bodyLen : Nat
  deriving DecidableEq, Repr

/-- `sizeof(MessageHeader)`. -/
def sizeofHeader : Nat := 20

/-- `RPC_MAGICID`, the four characters `RPC0`. -/
def rpcMagicId : List UInt8 := [82, 80, 67, 48]

/-- The bytes of `htonl` of the `uint32_t` that `n` is cast to. -/
def htonl (n : Nat) : List UInt8 :=
  [UInt8.ofNat (n / 2 ^ 24 % 256), UInt8.ofNat (n / 2 ^ 16 % 256), UInt8.ofNat (n / 2 ^ 8 % 256),
    UInt8.ofNat (n % 256)]

/-- `ntohl` of four bytes. -/
def ntohl : List UInt8 → Nat
  | [a, b, c, d] => a.toNat * 2 ^ 24 + b.toNat * 2 ^ 16 + c.toNat * 2 ^ 8 + d.toNat
  | _ => 0

/-- What `FillMessageHeader` leaves in `send_msg_header`. -/
def fillMessageHeader (m : MessageBase) : List UInt8 :=
  rpcMagicId ++ htonl m.name.length ++ htonl m.to_.str.length ++ htonl m.from_.str.length ++
    htonl m.realData.length

/-- The header at twenty bytes, after `ReorderHeader`. -/
def reorderHeader (bytes : List UInt8) : MessageHeader where
  magic := bytes.take 4
  nameLen := ntohl ((bytes.drop 4).take 4)
  toLen := ntohl ((bytes.drop 8).take 4)
  fromLen := ntohl ((bytes.drop 12).take 4)
  bodyLen := ntohl ((bytes.drop 16).take 4)

/-- `send_io_vec` for a message. -/
def MessageBase.ioVec (m : MessageBase) : List (List UInt8) :=
  [fillMessageHeader m, m.name, m.to_.str, m.from_.str, m.realData]

/-- The bytes of a message on the wire. -/
def MessageBase.encode (m : MessageBase) : List UInt8 := m.ioVec.flatten

@[simp] theorem length_htonl (n : Nat) : (htonl n).length = 4 := rfl

@[simp] theorem length_fillMessageHeader (m : MessageBase) :
    (fillMessageHeader m).length = sizeofHeader := by
  simp [fillMessageHeader, rpcMagicId, sizeofHeader]

theorem ntohl_htonl {n : Nat} (h : n < 2 ^ 32) : ntohl (htonl n) = n := by
  simp only [htonl, ntohl, UInt8.toNat_ofNat', Nat.mod_mod]
  omega

theorem MessageBase.encode_eq (m : MessageBase) :
    m.encode = fillMessageHeader m ++
      (m.name ++ (m.to_.str ++ (m.from_.str ++ m.realData))) := by
  simp [encode, ioVec]

theorem MessageBase.length_encode (m : MessageBase) :
    m.encode.length = sizeofHeader + m.name.length + m.to_.str.length + m.from_.str.length +
      m.realData.length := by
  rw [encode_eq]
  simp only [List.length_append, length_fillMessageHeader]
  omega

/-- The receiver reads the lengths the sender has written. -/
theorem reorderHeader_fillMessageHeader (m : MessageBase) (hname : m.name.length < 2 ^ 32)
    (hto : m.to_.str.length < 2 ^ 32) (hfrom : m.from_.str.length < 2 ^ 32)
    (hbody : m.realData.length < 2 ^ 32) :
    reorderHeader (fillMessageHeader m) =
      { magic := rpcMagicId, nameLen := m.name.length, toLen := m.to_.str.length,
        fromLen := m.from_.str.length, bodyLen := m.realData.length } := by
  have h := fun n (hn : n < 2 ^ 32) => ntohl_htonl hn
  simp only [htonl] at h
  simp only [reorderHeader, fillMessageHeader, rpcMagicId, htonl, List.cons_append, List.nil_append,
    List.take_succ_cons, List.take_zero, List.drop_succ_cons, List.drop_zero,
    h _ hname, h _ hto, h _ hfrom, h _ hbody]

end Ccbase.Net

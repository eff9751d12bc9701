import Ccbase.Lib.Iovec
import Mathlib.Algebra.Order.Ring.Nat

/-!
# `TCPSocketOperation` and `SSLSocketOperation`

The loops that move the bytes of a message, over TCP and over SSL. The answers
of the system are a list that the loop works off: what `recvmsg`, `sendmsg`,
`SSL_read` and `SSL_write` return, one entry for each call. A loop that has used
up the list, or that is given more bytes than it asked for, is still pending.

`msg_iov` and `msg_iovlen` are a list of iovecs, each the list of what it
covers; an access past the last one, or to a length that `SizeToInt` refuses, is
a fault. For receiving an iovec covers addresses, and the bytes of the stream go
there; for sending it covers bytes, and the bytes the socket accepts are kept.
-/

namespace Ccbase.Net

open Ccbase.Lib

/-- `IO_RW_OK` and `IO_RW_ERROR`. -/
inductive IoRet where
  | ok
  | error
  deriving DecidableEq, Repr

/-- How a loop ends: it returns, with the answers that are left, it waits for
the next answer, or it goes wrong. -/
inductive Outcome (ρ σ : Type) where
  | returned (ret : IoRet) (s : σ) (answers : List ρ)
  | pending
  | fault

/-- What a call that reads can answer. -/
inductive ReadAnswer where
  | moved (n : Nat)
  /-- The peer has closed the connection. -/
  | closed
  /-- `EAGAIN`, over SSL also `SSL_ERROR_WANT_READ` and `SSL_ERROR_WANT_WRITE`. -/
  | again
  /-- `ECONNRESET`, `ECONNABORTED`, `ENOTCONN` or `EPIPE`. -/
  | reset
  | otherErrno
  deriving DecidableEq, Repr

/-- What a call that writes can answer. -/
inductive WriteAnswer where
  | moved (n : Nat)
  | again
  | failed
  deriving DecidableEq, Repr

def eagainRetry : Nat := 1024000

/-- `SizeToInt` throws on what an `int` cannot hold. -/
def sizeToInt (n : Nat) : Option Nat := if n < 2 ^ 31 then some n else none

/-! ## Receiving -/

/-- `stream` are the bytes of the peer that have not been read. -/
structure RxState where
  iov : List (List Nat)
  recvLen : Nat := 0
  stream : List UInt8
  mem : Nat → UInt8

namespace RxState

/-- `n` bytes arrive, at the first of `cells`. -/
def arrive (cells : List Nat) (n : Nat) (s : RxState) : RxState :=
  { s with
    recvLen := s.recvLen + n
    stream := s.stream.drop n
    mem := Iovec.store s.mem cells (s.stream.take n) }

/-- A call that asks for `want` bytes can answer `n`. -/
def CanRead (want n : Nat) (s : RxState) : Prop := 0 < n ∧ n ≤ want ∧ n ≤ s.stream.length

instance (want n : Nat) (s : RxState) : Decidable (s.CanRead want n) :=
  inferInstanceAs (Decidable (_ ∧ _ ∧ _))

end RxState

namespace TCPSocketOperation

/-- The loop of `Receive` into the buffer `buf`. -/
def receiveLoop (totalRecvLen : Nat) : List ReadAnswer → List Nat → RxState →
    Outcome ReadAnswer RxState
  | [], _, s => if s.recvLen ≠ totalRecvLen then .pending else .returned .ok s []
  | r :: rs, buf, s =>
      if s.recvLen = totalRecvLen then .returned .ok s (r :: rs)
      else
        match r with
        | .moved n =>
            if s.CanRead (totalRecvLen - s.recvLen) n then
              let s := s.arrive buf n
              if s.recvLen = totalRecvLen then .returned .ok s rs
              else receiveLoop totalRecvLen rs (buf.drop n) s
            else .pending
        | .closed => .returned .error s rs
        | .again => .returned .ok s rs
        | .reset => .returned .error s rs
        | .otherErrno => .returned .ok s rs

def receive (buf : List Nat) (totalRecvLen : Nat) (answers : List ReadAnswer) (s : RxState) :
    Outcome ReadAnswer RxState :=
  receiveLoop totalRecvLen answers buf { s with recvLen := 0 }

/-- The loop over the iovecs after a `recvmsg`. -/
def advanceRecv (receivedBytes : Nat) (iov : List (List Nat)) : List (List Nat) :=
  (Iovec.advance (fun len tmpLen => decide (len + tmpLen ≤ receivedBytes))
    receivedBytes iov 0).getD iov

def receiveMessageLoop (totalRecvLen : Nat) : List ReadAnswer → RxState →
    Outcome ReadAnswer RxState
  | [], s => if s.recvLen < totalRecvLen then .pending else .returned .ok s []
  | r :: rs, s =>
      if ¬ s.recvLen < totalRecvLen then .returned .ok s (r :: rs)
      else
        match r with
        | .moved n =>
            if s.CanRead s.iov.flatten.length n then
              let iov := s.iov
              let s := s.arrive iov.flatten n
              if s.recvLen = totalRecvLen then .returned .ok { s with iov := [] } rs
              else receiveMessageLoop totalRecvLen rs { s with iov := advanceRecv n iov }
            else .pending
        | .closed => .returned .error s rs
        | .again => receiveMessageLoop totalRecvLen rs s
        | .reset => .returned .error s rs
        | .otherErrno => .returned .ok s rs

/-- `recvLen` is left as the caller has set it. -/
def receiveMessage (totalRecvLen : Nat) (answers : List ReadAnswer) (s : RxState) :
    Outcome ReadAnswer RxState :=
  if totalRecvLen = 0 then .returned .ok s answers
  else receiveMessageLoop totalRecvLen answers s

end TCPSocketOperation

namespace SSLSocketOperation

def receiveMessageLoop (totalRecvLen : Nat) : List ReadAnswer → RxState →
    Outcome ReadAnswer RxState
  | [], s =>
      if s.recvLen = totalRecvLen then .returned .ok s []
      else
        match s.iov with
        | [] => .fault
        | v :: _ => if (sizeToInt v.length).isNone then .fault else .pending
  | r :: rs, s =>
      if s.recvLen = totalRecvLen then .returned .ok s (r :: rs)
      else
        match s.iov with
        | [] => .fault
        | v :: vs =>
            if (sizeToInt v.length).isNone then .fault
            else
              match r with
              | .moved n =>
                  if s.CanRead v.length n then
                    let s := s.arrive v n
                    if s.recvLen = totalRecvLen then .returned .ok { s with iov := [] } rs
                    else if n < v.length then
                      receiveMessageLoop totalRecvLen rs { s with iov := v.drop n :: vs }
                    else if vs.length + 1 ≤ 1 then .returned .error s rs
                    else receiveMessageLoop totalRecvLen rs { s with iov := vs }
                  else .pending
              | .again => .returned .ok s rs
              | .closed => .returned .error s rs
              | .reset => .returned .error s rs
              | .otherErrno => .returned .error s rs

def receiveMessage (totalRecvLen : Nat) (answers : List ReadAnswer) (s : RxState) :
    Outcome ReadAnswer RxState :=
  if totalRecvLen = 0 then .returned .ok s answers
  else receiveMessageLoop totalRecvLen answers { s with recvLen := 0 }

end SSLSocketOperation

/-! ## Sending -/

/-- `sent` are the bytes the socket has accepted, in order. -/
structure TxState where
  iov : List (List UInt8)
  sendLen : Nat := 0
  sent : List UInt8 := []
  deriving DecidableEq, Repr

/-- The socket accepts the first `n` of `bytes`. -/
def TxState.accept (bytes : List UInt8) (n : Nat) (s : TxState) : TxState :=
  { s with sendLen := s.sendLen + n, sent := s.sent ++ bytes.take n }

namespace TCPSocketOperation

/-- The loop over the iovecs after a `sendmsg`. -/
def advanceSend (sendBytes : Nat) (iov : List (List UInt8)) : List (List UInt8) :=
  (Iovec.advance (fun len tmpBytes => decide (len + tmpBytes < sendBytes))
    sendBytes iov 0).getD iov

def sendMessageLoop (totalSendLen : Nat) : List WriteAnswer → Nat → TxState →
    Outcome WriteAnswer TxState
  | [], _, s => if s.sendLen ≠ totalSendLen then .pending else .returned .ok s []
  | r :: rs, eagainCount, s =>
      if s.sendLen = totalSendLen then .returned .ok s (r :: rs)
      else
        match r with
        | .failed => .returned .error s rs
        | .again =>
            if eagainCount + 1 = eagainRetry then .returned .ok { s with sendLen := 0 } rs
            else sendMessageLoop totalSendLen rs (eagainCount + 1) s
        | .moved n =>
            if n ≤ s.iov.flatten.length then
              let iov := s.iov
              let s := s.accept iov.flatten n
              if s.sendLen = totalSendLen then .returned .ok { s with iov := [] } rs
              else sendMessageLoop totalSendLen rs 0 { s with iov := advanceSend n iov }
            else .pending

def sendMessage (totalSendLen : Nat) (answers : List WriteAnswer) (s : TxState) :
    Outcome WriteAnswer TxState :=
  sendMessageLoop totalSendLen answers 0 { s with sendLen := 0 }

end TCPSocketOperation

namespace SSLSocketOperation

def sendMessageLoop (totalSendLen : Nat) : List WriteAnswer → TxState →
    Outcome WriteAnswer TxState
  | [], s =>
      if s.sendLen = totalSendLen then .returned .ok s []
      else
        match s.iov with
        | [] => .fault
        | v :: _ => if (sizeToInt v.length).isNone then .fault else .pending
  | r :: rs, s =>
      if s.sendLen = totalSendLen then .returned .ok s (r :: rs)
      else
        match s.iov with
        | [] => .fault
        | v :: vs =>
            if (sizeToInt v.length).isNone then .fault
            else
              match r with
              | .moved n =>
                  if 0 < n ∧ n ≤ v.length then
                    let s := s.accept v n
                    if s.sendLen = totalSendLen then .returned .ok { s with iov := [] } rs
                    else if n < v.length then
                      sendMessageLoop totalSendLen rs { s with iov := v.drop n :: vs }
                    else if vs.length + 1 ≤ 1 then .returned .error s rs
                    else sendMessageLoop totalSendLen rs { s with iov := vs }
                  else .pending
              | .again => .returned .ok s rs
              | .failed => .returned .error s rs

def sendMessage (totalSendLen : Nat) (answers : List WriteAnswer) (s : TxState) :
    Outcome WriteAnswer TxState :=
  sendMessageLoop totalSendLen answers { s with sendLen := 0 }

end SSLSocketOperation

end Ccbase.Net

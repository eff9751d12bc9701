import Ccbase.Lib.Run
import Mathlib.Data.List.Nodup

/-!
# `TCPClient::ReceiveSync`

One thread calls `ReceiveSync` again and again; the message handler runs on the
thread of the event loop, one message after the other; the server answers every
request once and in order. `received_message_` is a mailbox with one slot. The
`k`-th call sends the request number `k`, and a reply carries the number of its
request, which the code does not look at.

`ReceiveSync` holds `mutex_` from the clearing of the slot to `wait_for`, which
releases it, so that is one step. The handler waits outside the lock until the
slot is empty and stores its message under it: two steps, and anything may
happen between them.
-/

namespace Ccbase.Net

open Ccbase.Lib

/-- The thread that calls `ReceiveSync`. -/
inductive Caller where
  | idle
  /-- In `wait_for`, with the number of the call. -/
  | waiting (k : Nat)
  deriving DecidableEq, Repr

/-- The message handler of `TCPClient::Initialize`. -/
inductive Handler where
  | idle
  /-- It sleeps as long as `received_message_` is there. -/
  | spinning (message : Nat)
  /-- It has seen an empty slot and goes for the lock. -/
  | locking (message : Nat)
  deriving DecidableEq, Repr

/-- The message in the hands of the handler. -/
def Handler.held : Handler → List Nat
  | .idle => []
  | .spinning m => [m]
  | .locking m => [m]

/-- `requests` have not been answered yet; `replies` have not been read yet. -/
structure TcpClient where
  receivedMessage : Option Nat := none
  caller : Caller := .idle
  handler : Handler := .idle
  calls : Nat := 0
  requests : List Nat := []
  replies : List Nat := []
  deriving DecidableEq, Repr

inductive ClientAct where
  /-- `ReceiveSync` is called; `sent` is what `Send` answers. -/
  | receiveSync (sent : Bool)
  | answer
  | readReply
  | seeEmpty
  | store
  /-- `wait_for` finds a message, which the call `k` returns. -/
  | returned (k message : Nat)
  | timeout
  deriving DecidableEq, Repr

namespace TcpClient

def step (s : TcpClient) : ClientAct → Option TcpClient
  | .receiveSync sent =>
      if s.caller = .idle then
        let s := { s with receivedMessage := none, calls := s.calls + 1 }
        some (if sent then
          { s with requests := s.requests ++ [s.calls - 1], caller := .waiting (s.calls - 1) }
        else s)
      else none
  | .answer =>
      match s.requests with
      | [] => none
      | k :: requests => some { s with requests, replies := s.replies ++ [k] }
  | .readReply =>
      match s.handler, s.replies with
      | .idle, m :: replies => some { s with handler := .spinning m, replies }
      | _, _ => none
  | .seeEmpty =>
      match s.handler with
      | .spinning m =>
          if s.receivedMessage = none then some { s with handler := .locking m } else none
      | _ => none
  | .store =>
      match s.handler with
      | .locking m => some { s with receivedMessage := some m, handler := .idle }
      | _ => none
  | .returned k message =>
      -- the slot is not cleared
      if s.caller = .waiting k ∧ s.receivedMessage = some message then
        some { s with caller := .idle }
      else none
  | .timeout =>
      match s.caller with
      | .waiting _ => if s.receivedMessage = none then some { s with caller := .idle } else none
      | .idle => none

/-- The replies that have not been stored yet. -/
def outstanding (s : TcpClient) : List Nat := s.handler.held ++ s.replies ++ s.requests

/-- A call is made only when the handler has stored the replies to all earlier
requests. -/
def RepliesIn (s : TcpClient) : ClientAct → Prop
  | .receiveSync _ => s.outstanding = []
  | _ => True

instance : ∀ s a, Decidable (RepliesIn s a)
  | s, .receiveSync _ => inferInstanceAs (Decidable (s.outstanding = []))
  | _, .answer | _, .readReply | _, .seeEmpty | _, .store | _, .returned _ _ | _, .timeout =>
      inferInstanceAs (Decidable True)

/-- The calls that returned a message, with the message. -/
def returns (acts : List ClientAct) : List (Nat × Nat) :=
  acts.filterMap fun
    | .returned k m => some (k, m)
    | _ => none

theorem returns_snoc (acts : List ClientAct) (a : ClientAct) :
    returns (acts ++ [a]) = returns acts ++ returns [a] := List.filterMap_append

/-- Only the reply to the latest request is on its way, and while its call waits
nothing else is in the slot. -/
structure Inv (acts : List ClientAct) (s : TcpClient) : Prop where
  current : ∀ m ∈ s.outstanding, m + 1 = s.calls
  waiting : ∀ k, s.caller = .waiting k → k + 1 = s.calls ∧ k ∉ (returns acts).map Prod.fst ∧
    ∀ m, s.receivedMessage = some m → m = k
  past : ∀ r ∈ returns acts, r.2 = r.1 ∧ r.1 < s.calls
  once : ((returns acts).map Prod.fst).Nodup

theorem inv_init : Inv [] {} where
  current := fun _ h => by cases h
  waiting := fun _ h => by cases h
  past := fun _ h => by cases h
  once := List.nodup_nil

variable {acts : List ClientAct} {s s' : TcpClient}

/-- A step that only moves a reply on. -/
theorem Inv.move {a : ClientAct} (hi : Inv acts s) (ha : returns [a] = [])
    (hout : ∀ m ∈ s'.outstanding, m ∈ s.outstanding) (hcaller : s'.caller = s.caller)
    (hcalls : s'.calls = s.calls)
    (hslot : ∀ m, s'.receivedMessage = some m → s.receivedMessage = some m ∨ m ∈ s.outstanding) :
    Inv (acts ++ [a]) s' := by
  have hret : returns (acts ++ [a]) = returns acts := by
    rw [returns_snoc, ha, List.append_nil]
  refine ⟨fun m hm => ?_, fun k hk => ?_, fun r hr => ?_, ?_⟩
  · rw [hcalls]
    exact hi.current m (hout m hm)
  · rw [hcaller] at hk
    obtain ⟨hlast, hnot, honly⟩ := hi.waiting k hk
    rw [hcalls, hret]
    refine ⟨hlast, hnot, fun m hm => ?_⟩
    rcases hslot m hm with hm | hm
    · exact honly m hm
    · have := hi.current m hm
      omega
  · rw [hcalls]
    exact hi.past r (hret ▸ hr)
  · rw [hret]
    exact hi.once

theorem Inv.receiveSync {sent : Bool} (hi : Inv acts s) (hin : s.outstanding = [])
    (h : s.step (.receiveSync sent) = some s') : Inv (acts ++ [.receiveSync sent]) s' := by
  have hret : returns (acts ++ [.receiveSync sent]) = returns acts := by
    rw [returns_snoc]
    exact List.append_nil _
  have hnext : s.calls ∉ (returns acts).map Prod.fst := by
    intro hmem
    obtain ⟨r, hr, heq⟩ := List.mem_map.mp hmem
    have := (hi.past r hr).2
    omega
  have hpast : ∀ r ∈ returns acts, r.2 = r.1 ∧ r.1 < s.calls + 1 :=
    fun r hr => ⟨(hi.past r hr).1, Nat.lt_succ_of_lt (hi.past r hr).2⟩
  simp only [step] at h
  split at h
  · rename_i hidle
    cases h
    unfold outstanding at hin
    obtain ⟨hin, hreq⟩ := List.append_eq_nil_iff.mp hin
    obtain ⟨hhand, hrep⟩ := List.append_eq_nil_iff.mp hin
    cases sent with
    | true =>
        refine ⟨fun m hm => ?_, fun k hk => ?_, hret ▸ hpast, hret ▸ hi.once⟩
        · have hm : m ∈ s.handler.held ++ s.replies ++ (s.requests ++ [s.calls + 1 - 1]) := hm
          rw [hhand, hrep, hreq] at hm
          have hm := List.mem_singleton.mp hm
          show m + 1 = s.calls + 1
          omega
        · have hk : Caller.waiting (s.calls + 1 - 1) = .waiting k := hk
          cases hk
          exact ⟨rfl, hret ▸ hnext, fun m hm => by cases hm⟩
    | false =>
        refine ⟨fun m hm => ?_, fun k hk => ?_, hret ▸ hpast, hret ▸ hi.once⟩
        · have hm : m ∈ s.handler.held ++ s.replies ++ s.requests := hm
          rw [hhand, hrep, hreq] at hm
          cases hm
        · have hk : s.caller = .waiting k := hk
          rw [hidle] at hk
          cases hk
  · cases h

theorem Inv.returned {k m : Nat} (hi : Inv acts s) (h : s.step (.returned k m) = some s') :
    Inv (acts ++ [.returned k m]) s' := by
  simp only [step] at h
  split at h
  · rename_i hw
    cases h
    obtain ⟨hlast, hnot, honly⟩ := hi.waiting k hw.1
    have hm := honly m hw.2
    have hret : returns (acts ++ [.returned k m]) = returns acts ++ [(k, m)] := returns_snoc _ _
    refine ⟨hi.current, fun j hj => (by cases hj), fun r hr => ?_, ?_⟩
    · rw [hret] at hr
      rcases List.mem_append.mp hr with hr | hr
      · exact hi.past r hr
      · rw [List.mem_singleton.mp hr]
        refine ⟨hm, ?_⟩
        show k < s.calls
        omega
    · rw [hret, List.map_append]
      refine List.nodup_append.mpr ⟨hi.once, List.nodup_singleton _, fun x hx y hy => ?_⟩
      intro heq
      rw [heq, List.mem_singleton.mp hy] at hx
      exact hnot hx
  · cases h

theorem Inv.step {a : ClientAct} (hi : Inv acts s) (h : s.step a = some s')
    (hin : RepliesIn s a) : Inv (acts ++ [a]) s' := by
  cases a with
  | receiveSync sent => exact hi.receiveSync hin h
  | returned k m => exact hi.returned h
  | answer =>
      simp only [TcpClient.step] at h
      split at h
      · cases h
      · rename_i k requests hreq
        cases h
        refine hi.move rfl (fun m hm => ?_) rfl rfl fun m hm => .inl hm
        simp only [outstanding, hreq] at hm ⊢
        simpa [or_assoc] using hm
  | readReply =>
      simp only [TcpClient.step] at h
      split at h
      · rename_i m replies hidle hrep
        cases h
        refine hi.move rfl (fun x hx => ?_) rfl rfl fun x hx => .inl hx
        simp only [outstanding, hidle, hrep, Handler.held] at hx ⊢
        simpa using hx
      · cases h
  | seeEmpty =>
      simp only [TcpClient.step] at h
      split at h
      · rename_i m hspin
        split at h
        · cases h
          refine hi.move rfl (fun x hx => ?_) rfl rfl fun x hx => .inl hx
          simp only [outstanding, hspin] at hx ⊢
          exact hx
        · cases h
      · cases h
  | store =>
      simp only [TcpClient.step] at h
      split at h
      · rename_i m hlock
        cases h
        refine hi.move rfl (fun x hx => ?_) rfl rfl fun x hx => .inr ?_
        · simp only [outstanding, hlock, Handler.held, List.nil_append] at hx ⊢
          exact List.mem_cons_of_mem m hx
        · cases hx
          simp [outstanding, hlock, Handler.held]
      · cases h
  | timeout =>
      simp only [TcpClient.step] at h
      split at h
      · split at h
        · cases h
          have hret : returns (acts ++ [.timeout]) = returns acts := by
            rw [returns_snoc]
            exact List.append_nil _
          exact ⟨hi.current, fun k hk => (by cases hk), hret ▸ hi.past, hret ▸ hi.once⟩
        · cases h
      · cases h

/-- In every run that makes its calls when the replies to all earlier requests
have been stored, a call returns the reply to its own request or nothing, and no
message is returned twice. -/
theorem receiveSync_returns_own_reply
    (h : Run (fun s a s' => s.step a = some s' ∧ RepliesIn s a) {} acts s) :
    (∀ k m, (k, m) ∈ returns acts → m = k) ∧ ((returns acts).map Prod.snd).Nodup := by
  have hi : Inv acts s := h.inv inv_init fun _ _ _ _ hi hs => hi.step hs.1 hs.2
  have hown : ∀ k m, (k, m) ∈ returns acts → m = k := fun k m hm => (hi.past _ hm).1
  refine ⟨hown, ?_⟩
  have heq : (returns acts).map Prod.snd = (returns acts).map Prod.fst :=
    List.map_congr_left fun r hr => hown r.1 r.2 hr
  rw [heq]
  exact hi.once

/-- The first call times out and its reply is stored before the second call. -/
def lateReplyDropped : List ClientAct :=
  [.receiveSync true, .timeout, .answer, .readReply, .seeEmpty, .store,
    .receiveSync true, .answer, .readReply, .seeEmpty, .store, .returned 1 1]

theorem receiveSync_returns_own_reply_two :
    ∃ s, Run (fun s a s' => s.step a = some s' ∧ RepliesIn s a) {} lateReplyDropped s ∧
      ((∀ k m, (k, m) ∈ returns lateReplyDropped → m = k) ∧
        ((returns lateReplyDropped).map Prod.snd).Nodup) := by
  have hexec : (Run.exec step RepliesIn {} lateReplyDropped).isSome := by decide
  obtain ⟨s, hs⟩ := Option.isSome_iff_exists.mp hexec
  exact ⟨s, Run.of_exec hs, receiveSync_returns_own_reply (Run.of_exec hs)⟩

/-- The first call times out and its reply comes during the second call. -/
def lateReplyReturned : List ClientAct :=
  [.receiveSync true, .timeout, .receiveSync true, .answer, .readReply, .seeEmpty, .store,
    .returned 1 0]

theorem late_reply_is_returned :
    ¬ ∀ (acts : List ClientAct) (s : TcpClient),
      Run (fun s a s' => s.step a = some s') {} acts s →
      (∀ k m, (k, m) ∈ returns acts → m = k) ∧ ((returns acts).map Prod.snd).Nodup := by
  intro hall
  have hexec : (Run.exec step (fun _ _ => True) {} lateReplyReturned).isSome := by decide
  obtain ⟨s, hs⟩ := Option.isSome_iff_exists.mp hexec
  have hrun : Run (fun s a s' => s.step a = some s') {} lateReplyReturned s :=
    (Run.of_exec hs).imp fun _ _ _ h => h.1
  have heq := (hall _ _ hrun).1 1 0 (by decide)
  cases heq

end TcpClient

end Ccbase.Net

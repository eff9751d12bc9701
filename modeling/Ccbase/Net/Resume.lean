import Ccbase.Net.Returns

/-!
# Resumed transfers

A message seldom goes through in one call. `ParseMessage` and `Flush` call
`ReceiveMessage` and `SendMessage` again with what is left until nothing is. The
two implementations advance the iovecs by different rules, TCP over as many of
them as a chunk covers and SSL one at a time, and return at different points.
Over the whole transfer they cannot be told apart: every call reports the bytes
its answers have moved, and the bytes are at the positions they would be at in
one piece. With chunks that add up every call returns, and nothing is left.
-/

namespace Ccbase.Net

open Ccbase.Lib

/-- Where a transfer that is resumed has got to: the bytes its calls have
reported, the bytes that are left, the state, and the answers that are left. -/
inductive Resumed (ρ σ : Type) where
  | stopped (reported left : Nat) (s : σ) (answers : List ρ)
  | pending
  | failed

def Resumed.report {ρ σ : Type} (n : Nat) : Resumed ρ σ → Resumed ρ σ
  | .stopped reported left s answers => .stopped (n + reported) left s answers
  | .pending => .pending
  | .failed => .failed

section Resume

variable {ρ σ : Type} (op : Nat → List ρ → σ → Outcome ρ σ) (len : σ → Nat)

/-- The first calls of `ParseMessage` and `Flush`, until nothing is left: a call
asks for what the ones before it have not reported and gets the answers that they
have left. -/
def resume : Nat → List ρ → Nat → σ → Resumed ρ σ
  | 0, answers, total, s => .stopped 0 total s answers
  | calls + 1, answers, total, s =>
      if total = 0 then .stopped 0 0 s answers
      else
        match op total answers s with
        | .returned .ok s' rest => (resume calls rest (total - len s') s').report (len s')
        | .returned .error _ _ => .failed
        | .pending => .pending
        | .fault => .failed

variable {op len} {moves : List ρ → Nat} {Fits : Nat → σ → Prop} {Ok : List ρ → Prop}
  {Moved : Nat → σ → σ → Prop} {Serves : σ → List ρ → Prop}

/-- A call uses the first of its answers, and it reports and moves what these
move. -/
def CallOk (op : Nat → List ρ → σ → Outcome ρ σ) (len : σ → Nat) (moves : List ρ → Nat)
    (Fits : Nat → σ → Prop) (Ok : List ρ → Prop) (Moved : Nat → σ → σ → Prop) : Prop :=
  ∀ total answers s, Fits total s → Ok answers →
    (op total answers s).Sat fun ret s' rest => ret = .ok ∧ ∃ used, answers = used ++ rest ∧
      len s' = moves used ∧ moves used ≤ total ∧ Moved (moves used) s s' ∧
      Fits (total - moves used) s'

/-- What makes a list of calls one transfer. -/
structure Resumable (op : Nat → List ρ → σ → Outcome ρ σ) (len : σ → Nat)
    (moves : List ρ → Nat) (Fits : Nat → σ → Prop) (Ok : List ρ → Prop)
    (Moved : Nat → σ → σ → Prop) : Prop where
  call : CallOk op len moves Fits Ok Moved
  nil : moves [] = 0
  append : ∀ used rest, moves (used ++ rest) = moves used + moves rest
  suffix : ∀ {used rest}, Ok (used ++ rest) → Ok rest
  refl : ∀ s, Moved 0 s s
  trans : ∀ {n m s s' s''}, Moved n s s' → Moved m s' s'' → Moved (n + m) s s''

/-- Where there is something left to move, answers that serve the state make the
call return, and the ones that are left serve the next state. -/
def CallReturns (op : Nat → List ρ → σ → Outcome ρ σ) (Fits : Nat → σ → Prop)
    (Ok : List ρ → Prop) (Serves : σ → List ρ → Prop) : Prop :=
  ∀ total answers s, Fits total s → Ok answers → 0 < total → Serves s answers →
    (op total answers s).Returns Serves answers

/-- Wherever the calls stop, they have reported what they have moved. -/
theorem resume_spec (hop : Resumable op len moves Fits Ok Moved) :
    ∀ {calls : Nat} {answers : List ρ} {total : Nat} {s : σ}, Fits total s → Ok answers →
      resume op len calls answers total s ≠ .failed ∧
      ∀ reported left s' rest, resume op len calls answers total s =
        .stopped reported left s' rest →
        ∃ used, answers = used ++ rest ∧ reported = moves used ∧ reported + left = total ∧
          Moved reported s s' := by
  intro calls
  induction calls with
  | zero =>
      intro answers total s _ _
      refine ⟨by simp [resume], ?_⟩
      intro reported left s' rest h
      simp only [resume, Resumed.stopped.injEq] at h
      obtain ⟨rfl, rfl, rfl, rfl⟩ := h
      exact ⟨[], rfl, hop.nil.symm, Nat.zero_add _, hop.refl s⟩
  | succ calls ih =>
      intro answers total s hfits hok
      rw [resume]
      split
      · rename_i hzero
        refine ⟨by simp, ?_⟩
        intro reported left s' rest h
        simp only [Resumed.stopped.injEq] at h
        obtain ⟨rfl, rfl, rfl, rfl⟩ := h
        exact ⟨[], rfl, hop.nil.symm, hzero.symm, hop.refl s⟩
      · have hspec := hop.call total answers s hfits hok
        cases hout : op total answers s with
        | pending => simp
        | fault =>
            rw [hout] at hspec
            exact hspec.elim
        | returned ret s₁ rest₁ =>
            rw [hout] at hspec
            obtain ⟨rfl, used₁, rfl, hlen, hle, hmoved, hfits'⟩ := hspec
            -- what it has moved, and then what the later calls move
            rw [← hlen] at hle hmoved hfits'
            obtain ⟨hne, hrest⟩ := ih hfits' (hop.suffix hok)
            refine ⟨?_, ?_⟩
            · intro h
              cases hr : resume op len calls rest₁ (total - len s₁) s₁ with
              | failed => exact hne hr
              | stopped => simp [hr, Resumed.report] at h
              | pending => simp [hr, Resumed.report] at h
            · intro reported left s' rest h
              cases hr : resume op len calls rest₁ (total - len s₁) s₁ with
              | failed => simp [hr, Resumed.report] at h
              | pending => simp [hr, Resumed.report] at h
              | stopped reported₁ left₁ s₂ rest₂ =>
                  simp only [hr, Resumed.report, Resumed.stopped.injEq] at h
                  obtain ⟨rfl, rfl, rfl, rfl⟩ := h
                  obtain ⟨used₂, rfl, hsum, htotal, hmoved'⟩ := hrest _ _ _ _ hr
                  refine ⟨used₁ ++ used₂, (List.append_assoc ..).symm, ?_, by omega,
                    hop.trans hmoved hmoved'⟩
                  rw [hop.append, hlen, hsum]

/-- With answers that serve the transfer as many calls as there are answers are
enough. -/
theorem resume_returns (hop : Resumable op len moves Fits Ok Moved)
    (hreturns : CallReturns op Fits Ok Serves) :
    ∀ {calls : Nat} {answers : List ρ} {total : Nat} {s : σ}, Fits total s → Ok answers →
      Serves s answers → answers.length ≤ calls →
      ∃ s' rest, resume op len calls answers total s = .stopped total 0 s' rest := by
  intro calls
  induction calls with
  | zero =>
      intro answers total s hfits hok hserves hcalls
      rcases Nat.eq_zero_or_pos total with rfl | hpos
      · exact ⟨s, answers, rfl⟩
      · -- a call would use an answer, and there is none
        obtain ⟨ret, s', rest, -, hlt, -⟩ := hreturns total answers s hfits hok hpos hserves
        omega
  | succ calls ih =>
      intro answers total s hfits hok hserves hcalls
      rw [resume]
      split
      · rename_i hzero
        exact ⟨s, answers, by rw [hzero]⟩
      · rename_i hne
        have hspec := hop.call total answers s hfits hok
        obtain ⟨ret, s₁, rest₁, hout, hlt, hserves'⟩ :=
          hreturns total answers s hfits hok (Nat.pos_of_ne_zero hne) hserves
        rw [hout] at hspec ⊢
        obtain ⟨rfl, used₁, rfl, hlen, hle, -, hfits'⟩ := hspec
        rw [← hlen] at hle hfits'
        obtain ⟨s', rest, hrest⟩ := ih hfits' (hop.suffix hok) hserves' (by omega)
        refine ⟨s', rest, ?_⟩
        simp only [hrest, Resumed.report, Resumed.stopped.injEq, and_true]
        omega

end Resume

/-! ## The four calls -/

/-- `EAGAIN` or bytes. -/
def ReadAnswer.Transfers (r : ReadAnswer) : Prop := r = .again ∨ ∃ n, r = .moved n

def WriteAnswer.Transfers (r : WriteAnswer) : Prop := r = .again ∨ ∃ n, r = .moved n

/-- `ParseMessage` calls with a `recvLen` of zero. -/
def fromZero (receiveMessage : Nat → List ReadAnswer → RxState → Outcome ReadAnswer RxState)
    (total : Nat) (script : List ReadAnswer) (s : RxState) : Outcome ReadAnswer RxState :=
  receiveMessage total script { s with recvLen := 0 }

/-- `Reads` over calls that each count from zero. -/
def Arrived (n : Nat) (s s' : RxState) : Prop :=
  Reads n s.iov.flatten s'.iov.flatten { s with recvLen := 0 } { s' with recvLen := n }

theorem Arrived.refl (s : RxState) : Arrived 0 s s := Reads.refl _ _

theorem Arrived.trans {n m : Nat} {s s' s'' : RxState} (h : Arrived n s s')
    (h' : Arrived m s' s'') : Arrived (n + m) s s'' := by
  have hnext : Reads m s'.iov.flatten s''.iov.flatten { s' with recvLen := n }
      { s'' with recvLen := n + m } :=
    ⟨h'.enough, h'.room, rfl, h'.stream, h'.mem, h'.cells⟩
  exact Reads.trans h hnext

/-- The calls are all the same to a transfer. -/
theorem Arrived.of_received {answers rest : List ReadAnswer} {total : Nat} {s s' : RxState}
    (hfits : s.iov.flatten.length = total)
    (h : Received answers s.iov.flatten { s with recvLen := 0 } s'.iov.flatten s' rest) :
    ∃ used, answers = used ++ rest ∧ s'.recvLen = readSum used ∧ readSum used ≤ total ∧
      Arrived (readSum used) s s' ∧ s'.iov.flatten.length = total - readSum used := by
  obtain ⟨used, hused, hreads⟩ := h
  have hlen : s'.recvLen = readSum used := by rw [hreads.recvLen, Nat.zero_add]
  refine ⟨used, hused, hlen, hfits ▸ hreads.room, ?_, ?_⟩
  · rw [Arrived, ← hlen]
    rw [← hlen] at hreads
    exact hreads
  · rw [hreads.cells, List.length_drop, hfits]

theorem TCPSocketOperation.receiveMessage_resumable :
    Resumable (fromZero receiveMessage) RxState.recvLen readSum
      (fun total s => s.iov.flatten.length = total)
      (fun answers => ∀ r ∈ answers, r.Transfers) Arrived where
  call := by
    intro total answers s hfits hok
    have hharmless : ∀ r ∈ answers, r.Harmless := by
      intro r hr
      rcases hok r hr with rfl | ⟨n, rfl⟩ <;> trivial
    rw [fromZero, receiveMessage]
    split
    · exact ⟨rfl, [], rfl, rfl, Nat.zero_le _, Arrived.refl s, hfits⟩
    · refine (receiveMessageLoop_spec hharmless (s := { s with recvLen := 0 })
        (by rw [Nat.zero_add]; exact hfits)).mono ?_
      rintro ret s' rest ⟨rfl, hrec⟩
      exact ⟨rfl, Arrived.of_received hfits hrec⟩
  nil := rfl
  append := readSum_append
  suffix := fun hok r hr => hok r (List.mem_append_right _ hr)
  refl := Arrived.refl
  trans := Arrived.trans

theorem SSLSocketOperation.receiveMessage_resumable :
    Resumable (fromZero receiveMessage) RxState.recvLen readSum
      (fun total s => s.iov.flatten.length = total ∧ Sendable s.iov)
      (fun answers => ∀ r ∈ answers, r.Transfers) Arrived where
  call := by
    intro total answers s hfits hok
    rw [fromZero, receiveMessage]
    split
    · exact ⟨rfl, [], rfl, rfl, Nat.zero_le _, Arrived.refl s, hfits⟩
    · refine (receiveMessageLoop_spec hok (s := { s with recvLen := 0 }) hfits.2
        (by rw [Nat.zero_add]; exact hfits.1)).mono ?_
      rintro ret s' rest ⟨rfl, hsend, hrec⟩
      obtain ⟨used, hused, hlen, hle, harrived, hleft⟩ := Arrived.of_received hfits.1 hrec
      exact ⟨rfl, used, hused, hlen, hle, harrived, hleft, hsend⟩
  nil := rfl
  append := readSum_append
  suffix := fun hok r hr => hok r (List.mem_append_right _ hr)
  refl := Arrived.refl
  trans := Arrived.trans

/-- The count that `SendMessage` starts with does not matter to what it moves. -/
theorem Sends.ofReset {n k : Nat} {s s' : TxState} (h : Sends n { s with sendLen := k } s') :
    Sends n s s' :=
  ⟨h.room, h.sent, h.iov⟩

theorem TCPSocketOperation.sendMessage_resumable :
    Resumable sendMessage TxState.sendLen writeSum
      (fun total s => s.iov.flatten.length = total)
      (fun answers => (∀ r ∈ answers, r.Transfers) ∧
        ¬ List.replicate eagainRetry .again <:+: answers) Sends where
  call := by
    intro total answers s hfits hok
    refine (sendMessageLoop_spec (s := { s with sendLen := 0 })
      (by rw [Nat.zero_add]; exact hfits)).mono ?_
    rintro ret s' rest ⟨used, ⟨hused, hsends⟩, hends⟩
    have hpre : used <+: answers := ⟨rest, hused.symm⟩
    rcases hends with ⟨rfl, hlen, -⟩ | ⟨-, -, hsuf⟩ | ⟨-, hsuf⟩
    · have hsends := hsends.ofReset
      have hroom := hsends.room
      refine ⟨rfl, used, hused, by rw [hlen, Nat.zero_add], by omega, hsends, ?_⟩
      show s'.iov.flatten.length = total - writeSum used
      rw [hsends.iov, List.length_drop, hfits]
    · -- it gives up behind `eagainRetry` answers in a row, and there are never so many
      exact (hok.2 (hsuf.isInfix.trans hpre.isInfix)).elim
    · have hmem : WriteAnswer.failed ∈ answers :=
        (hsuf.isInfix.trans hpre.isInfix).mem (List.mem_singleton_self _)
      rcases hok.1 _ hmem with h | ⟨n, h⟩ <;> cases h
  nil := rfl
  append := writeSum_append
  suffix := fun hok => ⟨fun r hr => hok.1 r (List.mem_append_right _ hr),
    fun hin => hok.2 (hin.trans (List.suffix_append _ _).isInfix)⟩
  refl := Sends.refl
  trans := Sends.trans

theorem SSLSocketOperation.sendMessage_resumable :
    Resumable sendMessage TxState.sendLen writeSum
      (fun total s => s.iov.flatten.length = total ∧ Sendable s.iov)
      (fun answers => ∀ r ∈ answers, r.Transfers) Sends where
  call := by
    intro total answers s hfits hok
    refine (sendMessageLoop_spec hok (s := { s with sendLen := 0 }) hfits.2
      (by rw [Nat.zero_add]; exact hfits.1)).mono ?_
    rintro ret s' rest ⟨rfl, hsend, used, ⟨hused, hsends⟩, hlen⟩
    have hsends := hsends.ofReset
    have hroom := hsends.room
    have hfits' := hfits.1
    refine ⟨rfl, used, hused, by rw [hlen, Nat.zero_add], by omega, hsends, ?_, hsend⟩
    rw [hsends.iov, List.length_drop, hfits']
  nil := rfl
  append := writeSum_append
  suffix := fun hok r hr => hok r (List.mem_append_right _ hr)
  refl := Sends.refl
  trans := Sends.trans

/-! ## Chunks that add up

Over TCP a call asks for everything that is left, over SSL for what is left of
the first iovec. -/

/-- The answers move all of the pieces, and none of them is an empty chunk. -/
def ReadsAll (pieces : List Nat) (answers : List ReadAnswer) : Prop :=
  Positive answers ∧ Fragments pieces (answers.map ReadAnswer.moves)

def WritesAll (pieces : List Nat) (answers : List WriteAnswer) : Prop :=
  (∀ r ∈ answers, r ≠ .moved 0) ∧ Fragments pieces (answers.map WriteAnswer.moves)

/-- Over TCP there is one piece. -/
theorem ReadsAll.drop {l : Nat} {used rest : List ReadAnswer} (h : ReadsAll [l] (used ++ rest)) :
    ReadsAll [l - readSum used] rest := by
  have hsum := h.2.sum_eq
  refine ⟨h.1.drop, Fragments.of_sum ?_⟩
  rw [List.map_append, List.sum_append, List.sum_singleton] at hsum
  show readSum rest = l - readSum used
  rw [← hsum]
  exact (Nat.add_sub_cancel_left ..).symm

theorem WritesAll.drop {l : Nat} {used rest : List WriteAnswer} (h : WritesAll [l] (used ++ rest)) :
    WritesAll [l - writeSum used] rest := by
  have hsum := h.2.sum_eq
  refine ⟨fun r hr => h.1 r (List.mem_append_right _ hr), Fragments.of_sum ?_⟩
  rw [List.map_append, List.sum_append, List.sum_singleton] at hsum
  show writeSum rest = l - writeSum used
  rw [← hsum]
  exact (Nat.add_sub_cancel_left ..).symm

/-- The stream has the bytes that the iovecs want. -/
def Serves (pieces : RxState → List Nat) (s : RxState) (answers : List ReadAnswer) : Prop :=
  ReadsAll (pieces s) answers ∧ s.iov.flatten.length ≤ s.stream.length

theorem Arrived.enough_left {n : Nat} {s s' : RxState} (h : Arrived n s s')
    (hstream : s.iov.flatten.length ≤ s.stream.length) :
    s'.iov.flatten.length ≤ s'.stream.length := by
  have hcells : s'.iov.flatten = s.iov.flatten.drop n := h.cells
  have hdrop : s'.stream = s.stream.drop n := h.stream
  rw [hcells, hdrop, List.length_drop, List.length_drop]
  omega

theorem TCPSocketOperation.receiveMessage_returns :
    CallReturns (fromZero receiveMessage) (fun total s => s.iov.flatten.length = total)
      (fun answers => ∀ r ∈ answers, r.Transfers) (Serves fun s => [s.iov.flatten.length]) := by
  intro total answers s hfits hok hpos hserves
  have hspec := receiveMessage_resumable.call total answers s hfits hok
  rw [fromZero, receiveMessage, if_neg (Nat.ne_of_gt hpos)] at hspec ⊢
  have htotal : ({ s with recvLen := 0 } : RxState).recvLen + s.iov.flatten.length = total := by
    rw [Nat.zero_add, hfits]
  obtain ⟨ret, s', rest, hout, hlt, -⟩ := receiveMessageLoop_returns hserves.1.1 htotal
    (by rw [hfits]; exact hpos) hserves.2 hserves.1.2
  rw [hout] at hspec
  obtain ⟨-, used, rfl, -, -, harrived, hfits'⟩ := hspec
  refine ⟨ret, s', rest, hout, hlt, ?_, harrived.enough_left hserves.2⟩
  have hdrop := hserves.1.drop
  rw [hfits, ← hfits'] at hdrop
  exact hdrop

theorem SSLSocketOperation.receiveMessage_returns :
    CallReturns (fromZero receiveMessage)
      (fun total s => s.iov.flatten.length = total ∧ Sendable s.iov)
      (fun answers => ∀ r ∈ answers, r.Transfers) (Serves fun s => pieceLens s.iov) := by
  intro total answers s hfits hok hpos hserves
  have hspec := receiveMessage_resumable.call total answers s hfits hok
  rw [fromZero, receiveMessage, if_neg (Nat.ne_of_gt hpos)] at hspec ⊢
  have htotal : ({ s with recvLen := 0 } : RxState).recvLen + s.iov.flatten.length = total := by
    rw [Nat.zero_add, hfits.1]
  obtain ⟨ret, s', rest, hout, hlt, hfrag⟩ := receiveMessageLoop_returns
    (s := { s with recvLen := 0 }) hserves.1.1 hfits.2 htotal (by rw [hfits.1]; exact hpos)
    hserves.2 hserves.1.2
  rw [hout] at hspec
  obtain ⟨-, used, rfl, -, -, harrived, -⟩ := hspec
  exact ⟨ret, s', rest, hout, hlt, ⟨hserves.1.1.drop, hfrag⟩, harrived.enough_left hserves.2⟩

theorem TCPSocketOperation.sendMessage_returns :
    CallReturns sendMessage (fun total s => s.iov.flatten.length = total)
      (fun answers => (∀ r ∈ answers, r.Transfers) ∧
        ¬ List.replicate eagainRetry .again <:+: answers)
      (fun s answers => WritesAll [s.iov.flatten.length] answers) := by
  intro total answers s hfits hok hpos hserves
  have hspec := sendMessage_resumable.call total answers s hfits hok
  have htotal : ({ s with sendLen := 0 } : TxState).sendLen + s.iov.flatten.length = total := by
    rw [Nat.zero_add, hfits]
  have hsum : writeSum answers = s.iov.flatten.length := by
    rw [writeSum, hserves.2.sum_eq, List.sum_singleton]
  obtain ⟨ret, s', rest, hout, hlt, -⟩ := sendMessageLoop_returns htotal
    (by rw [hfits]; exact hpos) hsum
  rw [sendMessage, hout] at hspec
  obtain ⟨-, used, rfl, -, -, -, hfits'⟩ := hspec
  refine ⟨ret, s', rest, hout, hlt, ?_⟩
  have hdrop := hserves.drop
  rw [hfits, ← hfits'] at hdrop
  exact hdrop

theorem SSLSocketOperation.sendMessage_returns :
    CallReturns sendMessage
      (fun total s => s.iov.flatten.length = total ∧ Sendable s.iov)
      (fun answers => ∀ r ∈ answers, r.Transfers)
      (fun s answers => WritesAll (pieceLens s.iov) answers) := by
  intro total answers s hfits hok hpos hserves
  have hspec := sendMessage_resumable.call total answers s hfits hok
  have htotal : ({ s with sendLen := 0 } : TxState).sendLen + s.iov.flatten.length = total := by
    rw [Nat.zero_add, hfits.1]
  obtain ⟨ret, s', rest, hout, hlt, hfrag⟩ := sendMessageLoop_returns
    (s := { s with sendLen := 0 }) hserves.1 hfits.2 htotal (by rw [hfits.1]; exact hpos)
    hserves.2
  rw [sendMessage, hout] at hspec
  obtain ⟨-, used, rfl, -, -, -, -⟩ := hspec
  exact ⟨ret, s', rest, hout, hlt, fun r hr => hserves.1 r (List.mem_append_right _ hr), hfrag⟩

/-! ## Over TCP and over SSL -/

/-- A transfer into the iovecs `cells`, answered by `answers`: it has not failed,
and where it has stopped it has reported what the answers it has used have moved,
and these bytes are at the first of the cells. -/
def ReceivesTo (cells : List (List Nat)) (stream : List UInt8) (mem : Nat → UInt8)
    (answers : List ReadAnswer) (r : Resumed ReadAnswer RxState) : Prop :=
  r ≠ .failed ∧ ∀ reported left s' rest, r = .stopped reported left s' rest →
    ∃ used, answers = used ++ rest ∧ reported = readSum used ∧
      reported + left = cells.flatten.length ∧
      s'.mem = Iovec.store mem cells.flatten (stream.take reported)

/-- The same of a transfer from the iovecs `bytes`. -/
def SendsFrom (bytes : List (List UInt8)) (answers : List WriteAnswer)
    (r : Resumed WriteAnswer TxState) : Prop :=
  r ≠ .failed ∧ ∀ reported left s' rest, r = .stopped reported left s' rest →
    ∃ used, answers = used ++ rest ∧ reported = writeSum used ∧
      reported + left = bytes.flatten.length ∧ s'.sent = bytes.flatten.take reported

theorem receivesTo_of_resumable
    {op : Nat → List ReadAnswer → RxState → Outcome ReadAnswer RxState}
    {Fits : Nat → RxState → Prop} {Ok : List ReadAnswer → Prop}
    (hop : Resumable op RxState.recvLen readSum Fits Ok Arrived)
    {cells : List (List Nat)} {stream : List UInt8} {mem : Nat → UInt8} {calls : Nat}
    {answers : List ReadAnswer} (hok : Ok answers)
    (hfits : Fits cells.flatten.length { iov := cells, stream := stream, mem := mem }) :
    ReceivesTo cells stream mem answers
      (resume op RxState.recvLen calls answers cells.flatten.length
        { iov := cells, stream := stream, mem := mem }) := by
  obtain ⟨hne, hstopped⟩ := resume_spec hop hfits hok
  refine ⟨hne, ?_⟩
  intro reported left s' rest h
  obtain ⟨used, hused, hsum, htotal, harrived⟩ := hstopped _ _ _ _ h
  exact ⟨used, hused, hsum, htotal, harrived.mem⟩

theorem sendsFrom_of_resumable
    {op : Nat → List WriteAnswer → TxState → Outcome WriteAnswer TxState}
    {Fits : Nat → TxState → Prop} {Ok : List WriteAnswer → Prop}
    (hop : Resumable op TxState.sendLen writeSum Fits Ok Sends)
    {bytes : List (List UInt8)} {calls : Nat} {answers : List WriteAnswer}
    (hok : Ok answers) (hfits : Fits bytes.flatten.length { iov := bytes }) :
    SendsFrom bytes answers
      (resume op TxState.sendLen calls answers bytes.flatten.length { iov := bytes }) := by
  obtain ⟨hne, hstopped⟩ := resume_spec hop hfits hok
  refine ⟨hne, ?_⟩
  intro reported left s' rest h
  obtain ⟨used, hused, hsum, htotal, hsends⟩ := hstopped _ _ _ _ h
  exact ⟨used, hused, hsum, htotal, hsends.sent⟩

/-- Over TCP and over SSL a transfer that has reported all of its bytes has put
the same bytes at the same positions and emitted the same bytes, whatever the
chunks were on either side; and with chunks that add up, of which none goes past
what its call has asked for, every call returns and all of the bytes are
reported. -/
theorem ssl_transfers_as_tcp {cells : List (List Nat)} {bytes : List (List UInt8)}
    (hcells : Sendable cells) (hbytes : Sendable bytes)
    (stream : List UInt8) (mem : Nat → UInt8)
    {tcpReads sslReads : List ReadAnswer} {tcpWrites sslWrites : List WriteAnswer}
    (htr : ∀ r ∈ tcpReads, r.Transfers) (hsr : ∀ r ∈ sslReads, r.Transfers)
    (htw : ∀ r ∈ tcpWrites, r.Transfers) (hsw : ∀ r ∈ sslWrites, r.Transfers)
    (hretry : ¬ List.replicate eagainRetry .again <:+: tcpWrites) (calls : Nat) :
    let rx : RxState := { iov := cells, stream := stream, mem := mem }
    let tx : TxState := { iov := bytes }
    let tcpRx := resume (fromZero TCPSocketOperation.receiveMessage) RxState.recvLen calls tcpReads
      cells.flatten.length rx
    let sslRx := resume (fromZero SSLSocketOperation.receiveMessage) RxState.recvLen calls sslReads
      cells.flatten.length rx
    let tcpTx := resume TCPSocketOperation.sendMessage TxState.sendLen calls tcpWrites
      bytes.flatten.length tx
    let sslTx := resume SSLSocketOperation.sendMessage TxState.sendLen calls sslWrites
      bytes.flatten.length tx
    ReceivesTo cells stream mem tcpReads tcpRx ∧ ReceivesTo cells stream mem sslReads sslRx ∧
    SendsFrom bytes tcpWrites tcpTx ∧ SendsFrom bytes sslWrites sslTx ∧
    (∀ n n' s s' rest rest', tcpRx = .stopped n 0 s rest → sslRx = .stopped n' 0 s' rest' →
      n = cells.flatten.length ∧ n' = cells.flatten.length ∧ s.mem = s'.mem) ∧
    (∀ n n' s s' rest rest', tcpTx = .stopped n 0 s rest → sslTx = .stopped n' 0 s' rest' →
      n = bytes.flatten.length ∧ n' = bytes.flatten.length ∧
      s.sent = bytes.flatten ∧ s'.sent = bytes.flatten) ∧
    (cells.flatten.length ≤ stream.length →
      (ReadsAll [cells.flatten.length] tcpReads → tcpReads.length ≤ calls →
        ∃ s rest, tcpRx = .stopped cells.flatten.length 0 s rest) ∧
      (ReadsAll (pieceLens cells) sslReads → sslReads.length ≤ calls →
        ∃ s rest, sslRx = .stopped cells.flatten.length 0 s rest)) ∧
    (WritesAll [bytes.flatten.length] tcpWrites → tcpWrites.length ≤ calls →
      ∃ s rest, tcpTx = .stopped bytes.flatten.length 0 s rest) ∧
    (WritesAll (pieceLens bytes) sslWrites → sslWrites.length ≤ calls →
      ∃ s rest, sslTx = .stopped bytes.flatten.length 0 s rest) := by
  intro rx tx tcpRx sslRx tcpTx sslTx
  have htcpRx : ReceivesTo cells stream mem tcpReads tcpRx :=
    receivesTo_of_resumable TCPSocketOperation.receiveMessage_resumable htr rfl
  have hsslRx : ReceivesTo cells stream mem sslReads sslRx :=
    receivesTo_of_resumable SSLSocketOperation.receiveMessage_resumable hsr ⟨rfl, hcells⟩
  have htcpTx : SendsFrom bytes tcpWrites tcpTx :=
    sendsFrom_of_resumable TCPSocketOperation.sendMessage_resumable ⟨htw, hretry⟩ rfl
  have hsslTx : SendsFrom bytes sslWrites sslTx :=
    sendsFrom_of_resumable SSLSocketOperation.sendMessage_resumable hsw ⟨rfl, hbytes⟩
  refine ⟨htcpRx, hsslRx, htcpTx, hsslTx, ?_, ?_, ?_, ?_, ?_⟩
  · intro n n' s s' rest rest' h h'
    obtain ⟨-, -, -, hn, hmem⟩ := htcpRx.2 _ _ _ _ h
    obtain ⟨-, -, -, hn', hmem'⟩ := hsslRx.2 _ _ _ _ h'
    rw [Nat.add_zero] at hn hn'
    subst hn hn'
    exact ⟨rfl, rfl, hmem.trans hmem'.symm⟩
  · intro n n' s s' rest rest' h h'
    obtain ⟨-, -, -, hn, hsent⟩ := htcpTx.2 _ _ _ _ h
    obtain ⟨-, -, -, hn', hsent'⟩ := hsslTx.2 _ _ _ _ h'
    rw [Nat.add_zero] at hn hn'
    subst hn hn'
    rw [List.take_length] at hsent hsent'
    exact ⟨rfl, rfl, hsent, hsent'⟩
  · intro hstream
    refine ⟨fun hall hcalls => ?_, fun hall hcalls => ?_⟩
    · exact resume_returns TCPSocketOperation.receiveMessage_resumable
        TCPSocketOperation.receiveMessage_returns rfl htr ⟨hall, hstream⟩ hcalls
    · exact resume_returns SSLSocketOperation.receiveMessage_resumable
        SSLSocketOperation.receiveMessage_returns ⟨rfl, hcells⟩ hsr ⟨hall, hstream⟩ hcalls
  · intro hall hcalls
    exact resume_returns TCPSocketOperation.sendMessage_resumable
      TCPSocketOperation.sendMessage_returns rfl ⟨htw, hretry⟩ hall hcalls
  · intro hall hcalls
    exact resume_returns SSLSocketOperation.sendMessage_resumable
      SSLSocketOperation.sendMessage_returns ⟨rfl, hbytes⟩ hsw hall hcalls

/-- Two iovecs of two bytes: over TCP in chunks of three and one with an
`EAGAIN` between them, over SSL in chunks of one, one and two with a return after
the second. -/
theorem ssl_transfers_as_tcp_two :
    ∃ s s' t t' r₁ r₂ r₃ r₄,
      resume (fromZero TCPSocketOperation.receiveMessage) RxState.recvLen 4
        [.moved 3, .again, .moved 1] 4
        { iov := [[0, 1], [2, 3]], stream := [7, 8, 9, 10], mem := fun _ => 0 } =
          .stopped 4 0 s r₁ ∧
      resume (fromZero SSLSocketOperation.receiveMessage) RxState.recvLen 4
        [.moved 1, .moved 1, .again, .moved 2] 4
        { iov := [[0, 1], [2, 3]], stream := [7, 8, 9, 10], mem := fun _ => 0 } =
          .stopped 4 0 s' r₂ ∧
      s.mem = s'.mem ∧
      resume TCPSocketOperation.sendMessage TxState.sendLen 4 [.moved 3, .again, .moved 1] 4
        { iov := [[7, 8], [9, 10]] } = .stopped 4 0 t r₃ ∧
      resume SSLSocketOperation.sendMessage TxState.sendLen 4
        [.moved 1, .moved 1, .again, .moved 2] 4 { iov := [[7, 8], [9, 10]] } =
          .stopped 4 0 t' r₄ ∧
      t.sent = [7, 8, 9, 10] ∧ t'.sent = [7, 8, 9, 10] := by
  have hcells : Sendable [[0, 1], [2, 3]] := by simp [Sendable]
  have hbytes : Sendable ([[7, 8], [9, 10]] : List (List UInt8)) := by simp [Sendable]
  have htcpReads : ∀ r ∈ [ReadAnswer.moved 3, .again, .moved 1], r.Transfers := by
    simp [ReadAnswer.Transfers]
  have hsslReads : ∀ r ∈ [ReadAnswer.moved 1, .moved 1, .again, .moved 2], r.Transfers := by
    simp [ReadAnswer.Transfers]
  have htcpWrites : ∀ r ∈ [WriteAnswer.moved 3, .again, .moved 1], r.Transfers := by
    simp [WriteAnswer.Transfers]
  have hsslWrites : ∀ r ∈ [WriteAnswer.moved 1, .moved 1, .again, .moved 2], r.Transfers := by
    simp [WriteAnswer.Transfers]
  have hretry : ¬ List.replicate eagainRetry .again <:+:
      [WriteAnswer.moved 3, .again, .moved 1] := by
    intro hin
    have hlen := hin.length_le
    rw [List.length_replicate] at hlen
    simp [eagainRetry] at hlen
  obtain ⟨-, -, -, -, hrx, htx, hreads, htcp, hssl⟩ := ssl_transfers_as_tcp hcells hbytes
    [7, 8, 9, 10] (fun _ => 0) htcpReads hsslReads htcpWrites hsslWrites hretry 4
  obtain ⟨htcpRead, hsslRead⟩ := hreads (by decide)
  obtain ⟨s, r₁, hs⟩ := htcpRead ⟨by simp [Positive], by simp [Fragments, ReadAnswer.moves]⟩
    (by decide)
  obtain ⟨s', r₂, hs'⟩ := hsslRead
    ⟨by simp [Positive], by simp [Fragments, pieceLens, ReadAnswer.moves]⟩ (by decide)
  obtain ⟨t, r₃, ht⟩ := htcp ⟨by simp, by simp [Fragments, WriteAnswer.moves]⟩ (by decide)
  obtain ⟨t', r₄, ht'⟩ := hssl ⟨by simp, by simp [Fragments, pieceLens, WriteAnswer.moves]⟩
    (by decide)
  obtain ⟨-, -, hmem⟩ := hrx _ _ _ _ _ _ hs hs'
  obtain ⟨-, -, hsent, hsent'⟩ := htx _ _ _ _ _ _ ht ht'
  exact ⟨s, s', t, t', r₁, r₂, r₃, r₄, hs, hs', hmem, ht, ht', hsent, hsent'⟩

end Ccbase.Net

import Ccbase.Net.SocketOperation
import Mathlib.Tactic.Common
import Mathlib.Algebra.Order.Ring.Nat

/-!
# What the transfer loops move

`Reads n` and `Sends n` say what a state is after `n` bytes have gone through an
array of iovecs: the first `n` cells of it are done and the rest is still to
come, wherever the chunks ended. Each loop is specified by one of them and by
the answers it has used, so that the callers (`ParseMessage` and `Flush`, which
call again with what is left) never look at the iovecs.
-/

namespace Ccbase.Net

open Ccbase.Lib

/-- What holds of a loop that has returned; a loop that waits promises nothing. -/
def Outcome.Sat {ρ σ : Type} (P : IoRet → σ → List ρ → Prop) : Outcome ρ σ → Prop
  | .returned ret s rest => P ret s rest
  | .pending => True
  | .fault => False

theorem Outcome.Sat.mono {ρ σ : Type} {P Q : IoRet → σ → List ρ → Prop} {o : Outcome ρ σ}
    (h : o.Sat P) (hpq : ∀ ret s rest, P ret s rest → Q ret s rest) : o.Sat Q := by
  cases o with
  | returned ret s rest => exact hpq _ _ _ h
  | pending => trivial
  | fault => exact h

/-- The bytes that an answer moves. -/
def ReadAnswer.moves : ReadAnswer → Nat
  | .moved n => n
  | _ => 0

def WriteAnswer.moves : WriteAnswer → Nat
  | .moved n => n
  | _ => 0

def readSum (rs : List ReadAnswer) : Nat := (rs.map ReadAnswer.moves).sum

def writeSum (rs : List WriteAnswer) : Nat := (rs.map WriteAnswer.moves).sum

@[simp] theorem readSum_cons (r : ReadAnswer) (rs : List ReadAnswer) :
    readSum (r :: rs) = r.moves + readSum rs := by
  simp [readSum]

@[simp] theorem readSum_append (as bs : List ReadAnswer) :
    readSum (as ++ bs) = readSum as + readSum bs := by
  simp [readSum]

@[simp] theorem writeSum_nil : writeSum [] = 0 := rfl

@[simp] theorem writeSum_cons (r : WriteAnswer) (rs : List WriteAnswer) :
    writeSum (r :: rs) = r.moves + writeSum rs := by
  simp [writeSum]

@[simp] theorem writeSum_append (as bs : List WriteAnswer) :
    writeSum (as ++ bs) = writeSum as + writeSum bs := by
  simp [writeSum]

/-- An answer that is no reason to give the connection up: bytes, `EAGAIN` or an
errno that is not about the connection. -/
def ReadAnswer.Harmless : ReadAnswer → Prop
  | .moved _ | .again | .otherErrno => True
  | .closed | .reset => False

/-- A loop that fails only when it is told so does not fail. -/
theorem IoRet.ok_of_harmless {ret : IoRet} {answers : List ReadAnswer}
    (hok : ∀ r ∈ answers, r.Harmless) (h : ret = .error → ∃ r ∈ answers, ¬ r.Harmless) :
    ret = .ok := by
  cases ret with
  | ok => rfl
  | error =>
      obtain ⟨r, hr, hnot⟩ := h rfl
      exact absurd (hok r hr) hnot

/-! ## Receiving -/

/-- From `s` to `s'`, `n` bytes of the stream have gone to the first `n` cells. -/
structure Reads (n : Nat) (cells cells' : List Nat) (s s' : RxState) : Prop where
  enough : n ≤ s.stream.length
  room : n ≤ cells.length
  recvLen : s'.recvLen = s.recvLen + n
  stream : s'.stream = s.stream.drop n
  mem : s'.mem = Iovec.store s.mem cells (s.stream.take n)
  cells : cells' = cells.drop n

namespace Reads

variable {n m : Nat} {cells cells' cells'' : List Nat} {s s' s'' : RxState}

theorem refl (cells : List Nat) (s : RxState) : Reads 0 cells cells s s := by
  constructor <;> simp

theorem arrive {want : Nat} (hwant : want ≤ cells.length) (h : s.CanRead want n) :
    Reads n cells (cells.drop n) s (s.arrive cells n) where
  enough := h.2.2
  room := Nat.le_trans h.2.1 hwant
  recvLen := rfl
  stream := rfl
  mem := rfl
  cells := rfl

theorem trans (h : Reads n cells cells' s s') (h' : Reads m cells' cells'' s' s'') :
    Reads (n + m) cells cells'' s s'' := by
  have henough := h'.enough
  have hroom := h'.room
  rw [h.stream, List.length_drop] at henough
  rw [h.cells, List.length_drop] at hroom
  have hle := h.enough
  have hle' := h.room
  refine ⟨by omega, by omega, ?_, ?_, ?_, ?_⟩
  · rw [h'.recvLen, h.recvLen, Nat.add_assoc]
  · rw [h'.stream, h.stream, List.drop_drop]
  · have hlen : (s.stream.take n).length = n := by rw [List.length_take]; omega
    rw [h'.mem, h.mem, h.cells, h.stream, List.take_add, Iovec.store_append _ (by omega), hlen]
  · rw [h'.cells, h.cells, List.drop_drop]

/-- The iovecs are moved to the cells that are left. -/
theorem moveTo (iov : List (List Nat)) (h : Reads n cells cells' s s')
    (hiov : iov.flatten = cells') : Reads n cells iov.flatten s { s' with iov := iov } :=
  ⟨h.enough, h.room, h.recvLen, h.stream, h.mem, hiov.trans h.cells⟩

end Reads

/-- Bytes that fit the first iovec go to the first cells. -/
theorem RxState.arrive_append {n : Nat} {cells : List Nat} (h : n ≤ cells.length)
    (more : List Nat) (s : RxState) : s.arrive (cells ++ more) n = s.arrive cells n := by
  have hlen : (s.stream.take n).length ≤ cells.length := by
    rw [List.length_take]
    omega
  simp only [arrive, Iovec.store_append_left more hlen]

/-- What is true of every loop that receives: it has used the first of the
answers and moved their bytes. -/
def Received (answers : List ReadAnswer) (cells : List Nat) (s : RxState)
    (cells' : List Nat) (s' : RxState) (rest : List ReadAnswer) : Prop :=
  ∃ used, answers = used ++ rest ∧ Reads (readSum used) cells cells' s s'

namespace Received

variable {answers rest : List ReadAnswer} {cells cells' cells'' : List Nat}
  {s s' s'' : RxState} {r : ReadAnswer}

theorem refl (answers : List ReadAnswer) (cells : List Nat) (s : RxState) :
    Received answers cells s cells s answers :=
  ⟨[], rfl, Reads.refl cells s⟩

/-- One answer, then the others. -/
theorem cons (h : Reads r.moves cells cells' s s')
    (h' : Received answers cells' s' cells'' s'' rest) :
    Received (r :: answers) cells s cells'' s'' rest := by
  obtain ⟨used, rfl, hreads⟩ := h'
  exact ⟨r :: used, rfl, by rw [readSum_cons]; exact h.trans hreads⟩

end Received

namespace TCPSocketOperation

theorem flatten_advanceRecv {n : Nat} {iov : List (List Nat)} (h : n < iov.flatten.length) :
    (advanceRecv n iov).flatten = iov.flatten.drop n := by
  have hlt : n < 0 + iov.flatten.length := by omega
  obtain ⟨vs, hadv, hflat⟩ := Iovec.flatten_advance
    (fun len tmpLen => decide (len + tmpLen ≤ n)) n
    (fun len tmp hc => by have := of_decide_eq_true hc; omega)
    (fun len tmp hc => by have := of_decide_eq_false hc; omega)
    (Nat.zero_le n) hlt
  rw [advanceRecv, hadv]
  exact hflat

/-- Whatever is answered, the bytes that have come are in the buffer; a loop that
fails has been told so. -/
theorem receiveLoop_received {total : Nat} : ∀ {answers : List ReadAnswer} {buf : List Nat}
    {s : RxState}, s.recvLen + buf.length = total →
    (receiveLoop total answers buf s).Sat fun ret s' rest =>
      (ret = .error → ∃ r ∈ answers, ¬ r.Harmless) ∧ s'.iov = s.iov ∧
        ∃ buf', Received answers buf s buf' s' rest := by
  intro answers
  induction answers with
  | nil =>
      intro buf s _
      rw [receiveLoop]
      split
      · trivial
      · exact ⟨nofun, rfl, buf, Received.refl _ _ _⟩
  | cons r rs ih =>
      intro buf s htotal
      have hlast : ∀ {r : ReadAnswer}, r.moves = 0 → ∃ buf', Received (r :: rs) buf s buf' s rs :=
        fun hmoves => ⟨buf, Received.cons (by rw [hmoves]; exact Reads.refl _ _)
          (Received.refl _ _ _)⟩
      unfold receiveLoop
      split
      · exact ⟨nofun, rfl, buf, Received.refl _ _ _⟩
      · cases r with
        | moved n =>
            by_cases hcan : s.CanRead (total - s.recvLen) n
            · simp only [if_pos hcan]
              have hwant : total - s.recvLen ≤ buf.length := by omega
              have hreads := Reads.arrive hwant hcan
              split
              · exact ⟨nofun, rfl, _, Received.cons hreads (Received.refl _ _ _)⟩
              · have hlen := hreads.recvLen
                have hroom := hreads.room
                have hrest : (s.arrive buf n).recvLen + (buf.drop n).length = total := by
                  rw [List.length_drop]
                  omega
                refine (ih hrest).mono ?_
                rintro ret s' rest ⟨hret, hiov, buf', hrec⟩
                refine ⟨fun herr => ?_, hiov, buf', Received.cons hreads hrec⟩
                obtain ⟨r, hr, hnot⟩ := hret herr
                exact ⟨r, List.mem_cons_of_mem _ hr, hnot⟩
            · simp only [if_neg hcan]
              trivial
        | closed => exact ⟨fun _ => ⟨_, List.mem_cons_self .., id⟩, rfl, hlast rfl⟩
        | reset => exact ⟨fun _ => ⟨_, List.mem_cons_self .., id⟩, rfl, hlast rfl⟩
        | again => exact ⟨nofun, rfl, hlast rfl⟩
        | otherErrno => exact ⟨nofun, rfl, hlast rfl⟩

theorem receiveLoop_spec {total : Nat} {answers : List ReadAnswer} {buf : List Nat} {s : RxState}
    (hok : ∀ r ∈ answers, r.Harmless) (htotal : s.recvLen + buf.length = total) :
    (receiveLoop total answers buf s).Sat fun ret s' rest =>
      ret = .ok ∧ s'.iov = s.iov ∧ ∃ buf', Received answers buf s buf' s' rest := by
  refine (receiveLoop_received htotal).mono ?_
  rintro ret s' rest ⟨hret, hrec⟩
  exact ⟨IoRet.ok_of_harmless hok hret, hrec⟩

theorem receiveMessageLoop_received {total : Nat} : ∀ {answers : List ReadAnswer} {s : RxState},
    s.recvLen + s.iov.flatten.length = total →
    (receiveMessageLoop total answers s).Sat fun ret s' rest =>
      (ret = .error → ∃ r ∈ answers, ¬ r.Harmless) ∧
        Received answers s.iov.flatten s s'.iov.flatten s' rest := by
  intro answers
  induction answers with
  | nil =>
      intro s _
      rw [receiveMessageLoop]
      split
      · trivial
      · exact ⟨nofun, Received.refl _ _ _⟩
  | cons r rs ih =>
      intro s htotal
      have hmore : ∀ {ret : IoRet}, (ret = .error → ∃ r ∈ rs, ¬ r.Harmless) → ret = .error →
          ∃ r' ∈ r :: rs, ¬ r'.Harmless := by
        intro ret hret herr
        obtain ⟨r', hr, hnot⟩ := hret herr
        exact ⟨r', List.mem_cons_of_mem _ hr, hnot⟩
      unfold receiveMessageLoop
      split
      · exact ⟨nofun, Received.refl _ _ _⟩
      · rename_i hlt
        cases r with
        | moved n =>
            by_cases hcan : s.CanRead s.iov.flatten.length n
            · simp only [if_pos hcan]
              have hreads := Reads.arrive (Nat.le_refl _) hcan
              have hlen := hreads.recvLen
              have hroom := hreads.room
              split
              · rename_i heq
                have hall : [] = s.iov.flatten.drop n :=
                  (List.drop_eq_nil_of_le (by omega)).symm
                exact ⟨nofun, Received.cons (hreads.moveTo [] hall)
                  (Received.refl _ _ _)⟩
              · rename_i hne
                have hmore' : n < s.iov.flatten.length := by omega
                have hflat := flatten_advanceRecv hmore'
                have hrest : (s.arrive s.iov.flatten n).recvLen +
                    (advanceRecv n s.iov).flatten.length = total := by
                  rw [hflat, List.length_drop]
                  omega
                refine (ih hrest).mono ?_
                rintro ret s' rest ⟨hret, hrec⟩
                exact ⟨hmore hret, Received.cons (hreads.moveTo _ hflat) hrec⟩
            · simp only [if_neg hcan]
              trivial
        | closed =>
            exact ⟨fun _ => ⟨_, List.mem_cons_self .., id⟩,
              Received.cons (Reads.refl _ _) (Received.refl _ _ _)⟩
        | reset =>
            exact ⟨fun _ => ⟨_, List.mem_cons_self .., id⟩,
              Received.cons (Reads.refl _ _) (Received.refl _ _ _)⟩
        | again =>
            refine (ih htotal).mono ?_
            rintro ret s' rest ⟨hret, hrec⟩
            exact ⟨hmore hret, Received.cons (Reads.refl _ _) hrec⟩
        | otherErrno =>
            exact ⟨nofun, Received.cons (Reads.refl _ _) (Received.refl _ _ _)⟩

theorem receiveMessageLoop_spec {total : Nat} {answers : List ReadAnswer} {s : RxState}
    (hok : ∀ r ∈ answers, r.Harmless) (htotal : s.recvLen + s.iov.flatten.length = total) :
    (receiveMessageLoop total answers s).Sat fun ret s' rest =>
      ret = .ok ∧ Received answers s.iov.flatten s s'.iov.flatten s' rest := by
  refine (receiveMessageLoop_received htotal).mono ?_
  rintro ret s' rest ⟨hret, hrec⟩
  exact ⟨IoRet.ok_of_harmless hok hret, hrec⟩

end TCPSocketOperation

/-- The iovecs that `SSL_read` and `SSL_write` can be called with. -/
def Sendable {α : Type} (iov : List (List α)) : Prop := ∀ v ∈ iov, v ≠ [] ∧ v.length < 2 ^ 31

namespace Sendable

variable {α : Type} {v : List α} {vs : List (List α)}

theorem nil : Sendable ([] : List (List α)) := by
  intro v hv
  cases hv

theorem tail (h : Sendable (v :: vs)) : Sendable vs :=
  fun w hw => h w (List.mem_cons_of_mem v hw)

theorem drop {n : Nat} (h : Sendable (v :: vs)) (hn : n < v.length) :
    Sendable (v.drop n :: vs) := by
  intro w hw
  rcases List.mem_cons.mp hw with rfl | hw
  · have hlen := (h v (List.mem_cons_self ..)).2
    refine ⟨?_, by rw [List.length_drop]; omega⟩
    intro hnil
    rw [List.drop_eq_nil_iff] at hnil
    omega
  · exact h.tail w hw

theorem sizeToInt_head (h : Sendable (v :: vs)) : (sizeToInt v.length).isNone = false := by
  rw [sizeToInt, if_pos (h v (List.mem_cons_self ..)).2]
  rfl

/-- Cells that are left are in an iovec that is left. -/
theorem ne_nil (h : Sendable vs) (hlt : 0 < vs.flatten.length) : vs ≠ [] := by
  rintro rfl
  exact Nat.lt_irrefl 0 hlt

end Sendable

namespace SSLSocketOperation

theorem receiveMessageLoop_spec {total : Nat} : ∀ {answers : List ReadAnswer} {s : RxState},
    (∀ r ∈ answers, r = .again ∨ ∃ n, r = .moved n) → Sendable s.iov →
    s.recvLen + s.iov.flatten.length = total →
    (receiveMessageLoop total answers s).Sat fun ret s' rest =>
      ret = .ok ∧ Sendable s'.iov ∧
        Received answers s.iov.flatten s s'.iov.flatten s' rest := by
  intro answers
  induction answers with
  | nil =>
      intro s _ hsend htotal
      rw [receiveMessageLoop]
      split
      · exact ⟨rfl, hsend, Received.refl _ _ _⟩
      · cases hiov : s.iov with
        | nil =>
            rw [hiov] at htotal
            simp only [List.flatten_nil, List.length_nil] at htotal
            omega
        | cons v vs =>
            rw [hiov] at hsend
            simp [hsend.sizeToInt_head, Outcome.Sat]
  | cons r rs ih =>
      intro s hok hsend htotal
      have hrs : ∀ r ∈ rs, r = .again ∨ ∃ n, r = .moved n :=
        fun r' hr => hok r' (List.mem_cons_of_mem r hr)
      unfold receiveMessageLoop
      split
      · exact ⟨rfl, hsend, Received.refl _ _ _⟩
      · rename_i hne
        cases hiov : s.iov with
        | nil =>
            rw [hiov] at htotal
            simp only [List.flatten_nil, List.length_nil] at htotal
            omega
        | cons v vs =>
            rw [hiov] at hsend htotal
            simp only [hsend.sizeToInt_head, Bool.false_eq_true, if_false]
            rcases hok r (List.mem_cons_self ..) with rfl | ⟨n, rfl⟩
            · refine ⟨rfl, by rw [hiov]; exact hsend, ?_⟩
              rw [hiov]
              exact Received.cons (Reads.refl _ _) (Received.refl _ _ _)
            · by_cases hcan : s.CanRead v.length n
              · simp only [if_pos hcan]
                rw [List.flatten_cons, List.length_append] at htotal
                have hreads : Reads n (v ++ vs.flatten) ((v ++ vs.flatten).drop n) s
                    (s.arrive v n) := by
                  rw [← RxState.arrive_append hcan.2.1 vs.flatten s]
                  exact Reads.arrive (by rw [List.length_append]; omega) hcan
                have hlen := hreads.recvLen
                have hroom : n ≤ v.length := hcan.2.1
                split
                · have hall : [] = (v ++ vs.flatten).drop n :=
                    (List.drop_eq_nil_of_le (by rw [List.length_append]; omega)).symm
                  exact ⟨rfl, Sendable.nil, Received.cons (hreads.moveTo [] hall)
                    (Received.refl _ _ _)⟩
                · split
                  · rename_i hlt
                    have hflat : (v.drop n :: vs).flatten = (v ++ vs.flatten).drop n := by
                      rw [List.flatten_cons, List.drop_append, show n - v.length = 0 by omega,
                        List.drop_zero]
                    have hrest : (s.arrive v n).recvLen +
                        (v.drop n :: vs).flatten.length = total := by
                      rw [hflat, List.length_drop, List.length_append]
                      omega
                    refine (ih hrs (hsend.drop hlt) hrest).mono ?_
                    rintro ret s' rest ⟨hret, hsend', hrec⟩
                    exact ⟨hret, hsend', Received.cons (hreads.moveTo _ hflat) hrec⟩
                  · rename_i hge
                    -- the last iovec ends with the last byte, so there is one more here
                    have hflat : vs.flatten = (v ++ vs.flatten).drop n := by
                      rw [show n = v.length by omega, List.drop_left]
                    have hvs : vs ≠ [] := hsend.tail.ne_nil (by omega)
                    have hpos := List.length_pos_iff.mpr hvs
                    have hrest : (s.arrive v n).recvLen + vs.flatten.length = total := by
                      omega
                    rw [if_neg (by omega)]
                    refine (ih hrs hsend.tail hrest).mono ?_
                    rintro ret s' rest ⟨hret, hsend', hrec⟩
                    exact ⟨hret, hsend', Received.cons (hreads.moveTo _ hflat) hrec⟩
              · simp only [if_neg hcan]
                trivial

end SSLSocketOperation

/-! ## Sending -/

/-- From `s` to `s'`, the socket has accepted the next `n` bytes. -/
structure Sends (n : Nat) (s s' : TxState) : Prop where
  room : n ≤ s.iov.flatten.length
  sent : s'.sent = s.sent ++ s.iov.flatten.take n
  iov : s'.iov.flatten = s.iov.flatten.drop n

namespace Sends

variable {n m : Nat} {s s' s'' : TxState}

theorem refl (s : TxState) : Sends 0 s s := by
  constructor <;> simp

theorem accept {iov : List (List UInt8)} (hroom : n ≤ s.iov.flatten.length)
    (hiov : iov.flatten = s.iov.flatten.drop n) :
    Sends n s { s.accept s.iov.flatten n with iov := iov } :=
  ⟨hroom, rfl, hiov⟩

theorem trans (h : Sends n s s') (h' : Sends m s' s'') : Sends (n + m) s s'' := by
  have hroom := h'.room
  rw [h.iov, List.length_drop] at hroom
  have hle := h.room
  refine ⟨by omega, ?_, ?_⟩
  · rw [h'.sent, h.sent, h.iov, List.take_add, List.append_assoc]
  · rw [h'.iov, h.iov, List.drop_drop]

/-- Nothing is lost between the socket and the iovecs. -/
theorem conserves (h : Sends n s s') :
    s'.sent ++ s'.iov.flatten = s.sent ++ s.iov.flatten := by
  rw [h.sent, h.iov, List.append_assoc, List.take_append_drop]

end Sends

/-- Bytes that fit the first iovec are the first bytes. -/
theorem TxState.accept_append {n : Nat} {bytes : List UInt8} (h : n ≤ bytes.length)
    (more : List UInt8) (s : TxState) : s.accept (bytes ++ more) n = s.accept bytes n := by
  simp only [accept, List.take_append_of_le_length h]

/-- What is true of every loop that sends. -/
def Sent (answers : List WriteAnswer) (s s' : TxState) (used rest : List WriteAnswer) : Prop :=
  answers = used ++ rest ∧ Sends (writeSum used) s s'

namespace Sent

variable {answers used rest : List WriteAnswer} {s s' s'' : TxState} {r : WriteAnswer}

theorem refl (answers : List WriteAnswer) (s : TxState) : Sent answers s s [] answers :=
  ⟨rfl, Sends.refl s⟩

theorem cons (h : Sends r.moves s s') (h' : Sent answers s' s'' used rest) :
    Sent (r :: answers) s s'' (r :: used) rest := by
  obtain ⟨rfl, hsends⟩ := h'
  exact ⟨rfl, by rw [writeSum_cons]; exact h.trans hsends⟩

end Sent

namespace TCPSocketOperation

theorem flatten_advanceSend {n : Nat} {iov : List (List UInt8)} (h : n < iov.flatten.length) :
    (advanceSend n iov).flatten = iov.flatten.drop n := by
  have hlt : n < 0 + iov.flatten.length := by omega
  obtain ⟨vs, hadv, hflat⟩ := Iovec.flatten_advance
    (fun len tmpBytes => decide (len + tmpBytes < n)) n
    (fun len tmp hc => by have := of_decide_eq_true hc; omega)
    (fun len tmp hc => by have := of_decide_eq_false hc; omega)
    (Nat.zero_le n) hlt
  rw [advanceSend, hadv]
  exact hflat

/-- How `SendMessage` ends: everything is sent, the last answers are too many
`EAGAIN`, or the last answer is an error. -/
def SendEnds (total eagainCount : Nat) (s : TxState) (ret : IoRet) (s' : TxState)
    (used : List WriteAnswer) : Prop :=
  (ret = .ok ∧ s'.sendLen = s.sendLen + writeSum used ∧ s'.sendLen = total) ∨
  (ret = .ok ∧ s'.sendLen = 0 ∧
    List.replicate eagainRetry .again <:+ List.replicate eagainCount .again ++ used) ∨
  (ret = .error ∧ [.failed] <:+ used)

theorem SendEnds.moved {total eagainCount n : Nat} {s s₁ s' : TxState} {ret : IoRet}
    {used : List WriteAnswer} (h : SendEnds total 0 s₁ ret s' used)
    (hlen : s₁.sendLen = s.sendLen + n) :
    SendEnds total eagainCount s ret s' (.moved n :: used) := by
  rcases h with ⟨hret, hlen', htotal⟩ | ⟨hret, hzero, hsuf⟩ | ⟨hret, hsuf⟩
  · refine Or.inl ⟨hret, ?_, htotal⟩
    rw [hlen', hlen, writeSum_cons, Nat.add_assoc]
    rfl
  · refine Or.inr (Or.inl ⟨hret, hzero, hsuf.trans ?_⟩)
    exact ((List.suffix_cons _ used).trans (List.suffix_append _ _))
  · exact Or.inr (Or.inr ⟨hret, hsuf.trans (List.suffix_cons _ used)⟩)

theorem SendEnds.again {total eagainCount : Nat} {s s' : TxState} {ret : IoRet}
    {used : List WriteAnswer} (h : SendEnds total (eagainCount + 1) s ret s' used) :
    SendEnds total eagainCount s ret s' (.again :: used) := by
  rcases h with ⟨hret, hlen, htotal⟩ | ⟨hret, hzero, hsuf⟩ | ⟨hret, hsuf⟩
  · exact Or.inl ⟨hret, by simpa [WriteAnswer.moves] using hlen, htotal⟩
  · refine Or.inr (Or.inl ⟨hret, hzero, ?_⟩)
    rwa [List.replicate_succ', List.append_assoc] at hsuf
  · exact Or.inr (Or.inr ⟨hret, hsuf.trans (List.suffix_cons _ used)⟩)

theorem sendMessageLoop_spec {total : Nat} : ∀ {answers : List WriteAnswer}
    {eagainCount : Nat} {s : TxState}, s.sendLen + s.iov.flatten.length = total →
    (sendMessageLoop total answers eagainCount s).Sat fun ret s' rest =>
      ∃ used, Sent answers s s' used rest ∧ SendEnds total eagainCount s ret s' used := by
  intro answers
  induction answers with
  | nil =>
      intro eagainCount s _
      rw [sendMessageLoop]
      split
      · trivial
      · rename_i heq
        exact ⟨[], Sent.refl _ _, Or.inl ⟨rfl, rfl, not_not.mp heq⟩⟩
  | cons r rs ih =>
      intro eagainCount s htotal
      unfold sendMessageLoop
      split
      · rename_i heq
        exact ⟨[], Sent.refl _ _, Or.inl ⟨rfl, rfl, heq⟩⟩
      · rename_i hne
        cases r with
        | failed =>
            exact ⟨[.failed], Sent.cons (Sends.refl s) (Sent.refl _ _),
              Or.inr (Or.inr ⟨rfl, List.suffix_refl _⟩)⟩
        | again =>
            by_cases hlast : eagainCount + 1 = eagainRetry
            · simp only [if_pos hlast]
              have hsends : Sends 0 s { s with sendLen := 0 } := by
                constructor <;> simp
              refine ⟨[.again], Sent.cons hsends (Sent.refl _ _),
                Or.inr (Or.inl ⟨rfl, rfl, ?_⟩)⟩
              exact ⟨[], by rw [← hlast, List.replicate_succ', List.nil_append]⟩
            · simp only [if_neg hlast]
              refine (ih htotal).mono ?_
              rintro ret s' rest ⟨used, hsent, hends⟩
              exact ⟨.again :: used, Sent.cons (Sends.refl s) hsent, hends.again⟩
        | moved n =>
            by_cases hroom : n ≤ s.iov.flatten.length
            · simp only [if_pos hroom]
              have hlen : (s.accept s.iov.flatten n).sendLen = s.sendLen + n := rfl
              split
              · rename_i heq
                have hall : ([] : List (List UInt8)).flatten = s.iov.flatten.drop n :=
                  (List.drop_eq_nil_of_le (by omega)).symm
                refine ⟨[.moved n], Sent.cons (Sends.accept hroom hall) (Sent.refl _ _),
                  Or.inl ⟨rfl, ?_, heq⟩⟩
                exact hlen
              · have hmore : n < s.iov.flatten.length := by omega
                have hflat := flatten_advanceSend hmore
                have hrest : (s.accept s.iov.flatten n).sendLen +
                    (advanceSend n s.iov).flatten.length = total := by
                  rw [hflat, List.length_drop]
                  omega
                refine (ih hrest).mono ?_
                rintro ret s' rest ⟨used, hsent, hends⟩
                exact ⟨.moved n :: used, Sent.cons (Sends.accept hroom hflat) hsent,
                  hends.moved hlen⟩
            · simp only [if_neg hroom]
              trivial

end TCPSocketOperation

namespace SSLSocketOperation

theorem sendMessageLoop_spec {total : Nat} : ∀ {answers : List WriteAnswer} {s : TxState},
    (∀ r ∈ answers, r = .again ∨ ∃ n, r = .moved n) → Sendable s.iov →
    s.sendLen + s.iov.flatten.length = total →
    (sendMessageLoop total answers s).Sat fun ret s' rest =>
      ret = .ok ∧ Sendable s'.iov ∧
        ∃ used, Sent answers s s' used rest ∧ s'.sendLen = s.sendLen + writeSum used := by
  intro answers
  induction answers with
  | nil =>
      intro s _ hsend htotal
      rw [sendMessageLoop]
      split
      · exact ⟨rfl, hsend, [], Sent.refl _ _, rfl⟩
      · cases hiov : s.iov with
        | nil =>
            rw [hiov] at htotal
            simp only [List.flatten_nil, List.length_nil] at htotal
            omega
        | cons v vs =>
            rw [hiov] at hsend
            simp [hsend.sizeToInt_head, Outcome.Sat]
  | cons r rs ih =>
      intro s hok hsend htotal
      have hrs : ∀ r ∈ rs, r = .again ∨ ∃ n, r = .moved n :=
        fun r' hr => hok r' (List.mem_cons_of_mem r hr)
      unfold sendMessageLoop
      split
      · exact ⟨rfl, hsend, [], Sent.refl _ _, rfl⟩
      · cases hiov : s.iov with
        | nil =>
            rw [hiov] at htotal
            simp only [List.flatten_nil, List.length_nil] at htotal
            omega
        | cons v vs =>
            rw [hiov] at hsend htotal
            simp only [hsend.sizeToInt_head, Bool.false_eq_true, if_false]
            rcases hok r (List.mem_cons_self ..) with rfl | ⟨n, rfl⟩
            · exact ⟨rfl, by rw [hiov]; exact hsend, [.again],
                Sent.cons (Sends.refl s) (Sent.refl _ _), rfl⟩
            · by_cases hcan : 0 < n ∧ n ≤ v.length
              · simp only [if_pos hcan]
                rw [List.flatten_cons, List.length_append] at htotal
                have hflatten : s.iov.flatten = v ++ vs.flatten := by
                  rw [hiov, List.flatten_cons]
                have hroom : n ≤ s.iov.flatten.length := by
                  rw [hflatten, List.length_append]
                  omega
                have hacc : s.accept v n = s.accept s.iov.flatten n := by
                  rw [hflatten, TxState.accept_append hcan.2]
                have hlen : (s.accept v n).sendLen = s.sendLen + n := rfl
                have hmoves : (WriteAnswer.moved n).moves = n := rfl
                split
                · have hall : ([] : List (List UInt8)).flatten = s.iov.flatten.drop n :=
                    (List.drop_eq_nil_of_le
                      (by rw [hflatten, List.length_append]; omega)).symm
                  refine ⟨rfl, Sendable.nil, [.moved n], ?_, hlen⟩
                  rw [hacc]
                  exact Sent.cons (Sends.accept hroom hall) (Sent.refl _ _)
                · split
                  · rename_i hlt
                    have hflat : (v.drop n :: vs).flatten = s.iov.flatten.drop n := by
                      rw [hflatten, List.flatten_cons, List.drop_append,
                        show n - v.length = 0 by omega, List.drop_zero]
                    have hrest : (s.accept v n).sendLen +
                        (v.drop n :: vs).flatten.length = total := by
                      rw [hflat, hflatten, List.length_drop, List.length_append]
                      omega
                    refine (ih hrs (hsend.drop hlt) hrest).mono ?_
                    rintro ret s' rest ⟨hret, hsend', used, hsent, hsendLen⟩
                    refine ⟨hret, hsend', .moved n :: used, ?_, ?_⟩
                    · rw [hacc] at hsent
                      exact Sent.cons (Sends.accept hroom hflat) hsent
                    · rw [hsendLen, writeSum_cons, hmoves]
                      simp only [hlen]
                      omega
                  · have hflat : vs.flatten = s.iov.flatten.drop n := by
                      rw [hflatten, show n = v.length by omega, List.drop_left]
                    have hvs : vs ≠ [] := hsend.tail.ne_nil (by omega)
                    have hpos := List.length_pos_iff.mpr hvs
                    have hrest : (s.accept v n).sendLen + vs.flatten.length = total := by
                      omega
                    rw [if_neg (by omega)]
                    refine (ih hrs hsend.tail hrest).mono ?_
                    rintro ret s' rest ⟨hret, hsend', used, hsent, hsendLen⟩
                    refine ⟨hret, hsend', .moved n :: used, ?_, ?_⟩
                    · rw [hacc] at hsent
                      exact Sent.cons (Sends.accept hroom hflat) hsent
                    · rw [hsendLen, writeSum_cons, hmoves]
                      simp only [hlen]
                      omega
              · simp only [if_neg hcan]
                trivial

end SSLSocketOperation

end Ccbase.Net

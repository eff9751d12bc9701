import Ccbase.Lib.Fragments
import Ccbase.Net.Transfer

/-!
# When a call returns

A loop that waits for an answer has not returned, and `Outcome.Sat` promises
nothing of it. With chunks that move all of what is missing, each of them no more
than the call asks for, every loop returns, and it has used an answer.
-/

namespace Ccbase.Net

open Ccbase.Lib

/-- The loop has returned, it has left fewer of the answers than there were, and
`P` holds of the state and of the answers that are left. -/
def Outcome.Returns {ρ σ : Type} (P : σ → List ρ → Prop) (answers : List ρ)
    (o : Outcome ρ σ) : Prop :=
  ∃ ret s' rest, o = .returned ret s' rest ∧ rest.length < answers.length ∧ P s' rest

namespace Outcome.Returns

variable {ρ σ : Type} {P : σ → List ρ → Prop} {r : ρ} {rs : List ρ} {ret : IoRet} {s : σ}
  {o : Outcome ρ σ}

theorem now (h : P s rs) : Returns P (r :: rs) (.returned ret s rs) :=
  ⟨ret, s, rs, rfl, Nat.lt_succ_self _, h⟩

theorem later (h : Returns P rs o) : Returns P (r :: rs) o := by
  obtain ⟨ret, s', rest, hout, hlt, hP⟩ := h
  exact ⟨ret, s', rest, hout, Nat.lt_succ_of_lt hlt, hP⟩

end Outcome.Returns

/-- No chunk is empty. -/
def Positive (answers : List ReadAnswer) : Prop := ∀ r ∈ answers, r ≠ .moved 0

namespace Positive

variable {r : ReadAnswer} {rs used rest : List ReadAnswer}

theorem tail (h : Positive (r :: rs)) : Positive rs :=
  fun r' hr => h r' (List.mem_cons_of_mem r hr)

theorem drop (h : Positive (used ++ rest)) : Positive rest :=
  fun r hr => h r (List.mem_append_right _ hr)

theorem moved {n : Nat} (h : Positive (.moved n :: rs)) : 0 < n := by
  refine Nat.pos_of_ne_zero ?_
  rintro rfl
  exact h _ (List.mem_cons_self ..) rfl

end Positive

/-- What arrives is missing from what was still to come. -/
theorem RxState.arrive_left (cells : List Nat) {n left total : Nat} {s : RxState}
    (hle : n ≤ left) (htotal : s.recvLen + left = total) (hstream : left ≤ s.stream.length) :
    (s.arrive cells n).recvLen + (left - n) = total ∧
      left - n ≤ (s.arrive cells n).stream.length := by
  have hlen : (s.arrive cells n).recvLen = s.recvLen + n := rfl
  have hdrop : (s.arrive cells n).stream.length = s.stream.length - n := List.length_drop
  omega

namespace TCPSocketOperation

/-- `left` bytes are missing, and the chunks of these come first. -/
theorem receiveLoop_returns {total : Nat} {ls : List Nat} : ∀ {answers : List ReadAnswer}
    {buf : List Nat} {s : RxState} {left : Nat}, Positive answers → s.recvLen + left = total →
    0 < left → left ≤ s.stream.length →
    Fragments (left :: ls) (answers.map ReadAnswer.moves) →
    (receiveLoop total answers buf s).Returns (fun _ _ => True) answers := by
  intro answers
  induction answers with
  | nil =>
      intro buf s left _ _ hpos _ hfrag
      -- bytes are missing, so a chunk is too
      have hsum := hfrag.sum_eq
      rw [List.map_nil, List.sum_nil, List.sum_cons] at hsum
      omega
  | cons r rs ih =>
      intro buf s left hpositive htotal hpos hstream hfrag
      obtain ⟨hle, hfrag⟩ := hfrag
      unfold receiveLoop
      rw [if_neg (by omega)]
      cases r with
      | moved n =>
          change n ≤ left at hle
          have hcan : s.CanRead (total - s.recvLen) n :=
            ⟨hpositive.moved, by omega, by omega⟩
          obtain ⟨htotal', hstream'⟩ := RxState.arrive_left buf hle htotal hstream
          simp only [if_pos hcan]
          -- the loop ends with the last byte, and otherwise asks for the rest
          split
          · exact .now trivial
          · rename_i hne
            rw [if_neg (show (ReadAnswer.moved n).moves ≠ left by
              change n ≠ left
              omega)] at hfrag
            exact .later (ih hpositive.tail htotal' (by omega) hstream' hfrag)
      | closed => exact .now trivial
      | again => exact .now trivial
      | reset => exact .now trivial
      | otherErrno => exact .now trivial

theorem receiveMessageLoop_returns {total : Nat} {ls : List Nat} :
    ∀ {answers : List ReadAnswer} {s : RxState}, Positive answers →
    s.recvLen + s.iov.flatten.length = total → 0 < s.iov.flatten.length →
    s.iov.flatten.length ≤ s.stream.length →
    Fragments (s.iov.flatten.length :: ls) (answers.map ReadAnswer.moves) →
    (receiveMessageLoop total answers s).Returns (fun _ _ => True) answers := by
  intro answers
  induction answers with
  | nil =>
      intro s _ _ hpos _ hfrag
      -- bytes are missing, so a chunk is too
      have hsum := hfrag.sum_eq
      rw [List.map_nil, List.sum_nil, List.sum_cons] at hsum
      omega
  | cons r rs ih =>
      intro s hpositive htotal hpos hstream hfrag
      obtain ⟨hle, hfrag⟩ := hfrag
      unfold receiveMessageLoop
      rw [if_neg (by omega)]
      cases r with
      | moved n =>
          change n ≤ s.iov.flatten.length at hle
          have hcan : s.CanRead s.iov.flatten.length n :=
            ⟨hpositive.moved, hle, by omega⟩
          obtain ⟨htotal', hstream'⟩ :=
            RxState.arrive_left s.iov.flatten hle htotal hstream
          simp only [if_pos hcan]
          split
          · exact .now trivial
          · rename_i hne
            have hlt : n < s.iov.flatten.length := by omega
            have hleft : (advanceRecv n s.iov).flatten.length = s.iov.flatten.length - n := by
              rw [flatten_advanceRecv hlt, List.length_drop]
            rw [if_neg (show (ReadAnswer.moved n).moves ≠ _ by
              change n ≠ _
              omega), show (ReadAnswer.moved n).moves = n from rfl, ← hleft] at hfrag
            exact .later (ih hpositive.tail (by rw [hleft]; exact htotal')
              (by rw [hleft]; omega) (by rw [hleft]; exact hstream') hfrag)
      | again =>
          -- nothing has moved, and this loop, unlike the one before, asks again
          rw [if_neg (show ReadAnswer.again.moves ≠ _ by
            change 0 ≠ _
            omega)] at hfrag
          exact .later (ih hpositive.tail htotal hpos hstream hfrag)
      | closed => exact .now trivial
      | reset => exact .now trivial
      | otherErrno => exact .now trivial

/-- A loop that has got its last byte does not look at the other answers. -/
theorem receiveLoop_all {total n : Nat} {buf : List Nat} {s : RxState} (rs : List ReadAnswer)
    (hcan : s.CanRead (total - s.recvLen) n) (hall : s.recvLen + n = total) :
    receiveLoop total (.moved n :: rs) buf s = .returned .ok (s.arrive buf n) rs := by
  have hpos := hcan.1
  unfold receiveLoop
  rw [if_neg (by omega)]
  simp only [if_pos hcan]
  exact if_pos hall

/-- An errno that is not about the connection ends the loop with the bytes that
have come. -/
theorem receiveLoop_part {total n : Nat} {buf : List Nat} {s : RxState}
    (hcan : s.CanRead (total - s.recvLen) n) (hpart : s.recvLen + n ≠ total) :
    receiveLoop total [.moved n, .otherErrno] buf s = .returned .ok (s.arrive buf n) [] := by
  have hpos := hcan.1
  have hle := hcan.2.1
  have hlen : (s.arrive buf n).recvLen ≠ total := hpart
  unfold receiveLoop
  rw [if_neg (by omega)]
  simp only [if_pos hcan, if_neg hlen]
  unfold receiveLoop
  exact if_neg hlen

/-- So the loop over the iovecs can be brought to its end behind the first bytes. -/
theorem receiveMessageLoop_ends {total n : Nat} {s : RxState} (hlt : s.recvLen < total)
    (hcan : s.CanRead s.iov.flatten.length n) :
    ∃ rs s', receiveMessageLoop total (.moved n :: rs) s = .returned .ok s' [] ∧
      s'.stream = s.stream.drop n := by
  by_cases hmore : s.recvLen + n < total
  · refine ⟨[.otherErrno],
      { s.arrive s.iov.flatten n with iov := advanceRecv n s.iov }, ?_, rfl⟩
    have hlen : (s.arrive s.iov.flatten n).recvLen ≠ total := Nat.ne_of_lt hmore
    unfold receiveMessageLoop
    rw [if_neg (not_not.mpr hlt)]
    simp only [if_pos hcan, if_neg hlen]
    unfold receiveMessageLoop
    exact if_neg (not_not.mpr hmore)
  · refine ⟨[], ?_⟩
    unfold receiveMessageLoop
    rw [if_neg (not_not.mpr hlt)]
    simp only [if_pos hcan]
    split
    · exact ⟨_, rfl, rfl⟩
    · rw [receiveMessageLoop]
      exact ⟨_, if_neg hmore, rfl⟩

/-- Chunks that add up to what is missing. -/
theorem sendMessageLoop_returns {total : Nat} : ∀ {answers : List WriteAnswer}
    {eagainCount : Nat} {s : TxState}, s.sendLen + s.iov.flatten.length = total →
    0 < s.iov.flatten.length → writeSum answers = s.iov.flatten.length →
    (sendMessageLoop total answers eagainCount s).Returns (fun _ _ => True) answers := by
  intro answers
  induction answers with
  | nil =>
      intro eagainCount s _ hpos hsum
      rw [writeSum_nil] at hsum
      omega
  | cons r rs ih =>
      intro eagainCount s htotal hpos hsum
      rw [writeSum_cons] at hsum
      unfold sendMessageLoop
      rw [if_neg (by omega)]
      cases r with
      | moved n =>
          change n + writeSum rs = _ at hsum
          have hlen : (s.accept s.iov.flatten n).sendLen = s.sendLen + n := rfl
          simp only [if_pos (show n ≤ s.iov.flatten.length by omega)]
          split
          · exact .now trivial
          · have hleft : (advanceSend n s.iov).flatten.length = s.iov.flatten.length - n := by
              rw [flatten_advanceSend (by omega), List.length_drop]
            refine .later (ih ?_ ?_ ?_)
            · show (s.accept s.iov.flatten n).sendLen + (advanceSend n s.iov).flatten.length = total
              omega
            · show 0 < (advanceSend n s.iov).flatten.length
              omega
            · show writeSum rs = (advanceSend n s.iov).flatten.length
              omega
      | again =>
          change 0 + writeSum rs = _ at hsum
          dsimp only
          -- the last retry ends the loop
          split
          · exact .now trivial
          · exact .later (ih htotal hpos (by omega))
      | failed => exact .now trivial

end TCPSocketOperation

/-! ## Over SSL

The pieces are the iovecs: a call does not go past the end of the first of them. -/

/-- The lengths of the iovecs. -/
def pieceLens {α : Type} (iov : List (List α)) : List Nat := iov.map List.length

theorem sum_pieceLens {α : Type} (iov : List (List α)) :
    (pieceLens iov).sum = iov.flatten.length := by
  rw [List.length_flatten, pieceLens]

namespace Sendable

variable {α : Type} {v : List α} {vs : List (List α)}

theorem length_pos (h : Sendable (v :: vs)) : 0 < v.length :=
  List.length_pos_iff.mpr (h v (List.mem_cons_self ..)).1

theorem eq_nil (h : Sendable vs) (hlen : vs.flatten.length = 0) : vs = [] := by
  cases vs with
  | nil => rfl
  | cons w ws =>
      have hw := h.length_pos
      rw [List.flatten_cons, List.length_append] at hlen
      omega

/-- The iovecs after a chunk. -/
theorem fragments {n : Nat} {ns : List Nat} (h : Fragments (pieceLens (v :: vs)) (n :: ns)) :
    n ≤ v.length ∧ (n < v.length → Fragments (pieceLens (v.drop n :: vs)) ns) ∧
      (n = v.length → Fragments (pieceLens vs) ns) := by
  obtain ⟨hle, h⟩ := h
  refine ⟨hle, fun hlt => ?_, fun hall => ?_⟩
  · rw [if_neg (Nat.ne_of_lt hlt)] at h
    rwa [pieceLens, List.map_cons, List.length_drop]
  · rwa [if_pos hall] at h

end Sendable

namespace SSLSocketOperation

theorem receiveMessageLoop_returns {total : Nat} : ∀ {answers : List ReadAnswer} {s : RxState},
    Positive answers → Sendable s.iov → s.recvLen + s.iov.flatten.length = total →
    0 < s.iov.flatten.length → s.iov.flatten.length ≤ s.stream.length →
    Fragments (pieceLens s.iov) (answers.map ReadAnswer.moves) →
    (receiveMessageLoop total answers s).Returns
      (fun s' rest => Fragments (pieceLens s'.iov) (rest.map ReadAnswer.moves)) answers := by
  intro answers
  induction answers with
  | nil =>
      intro s _ _ _ hpos _ hfrag
      -- bytes are missing, so a chunk is too
      have hsum := hfrag.sum_eq
      rw [sum_pieceLens, List.map_nil, List.sum_nil] at hsum
      omega
  | cons r rs ih =>
      intro s hpositive hsend htotal hpos hstream hfrag
      unfold receiveMessageLoop
      rw [if_neg (by omega)]
      cases hiov : s.iov with
      | nil =>
          rw [hiov] at hpos
          exact absurd hpos (Nat.lt_irrefl 0)
      | cons v vs =>
          rw [hiov] at hsend htotal hstream hfrag
          have hv := hsend.length_pos
          obtain ⟨hle, hpart, hwhole⟩ := Sendable.fragments hfrag
          simp only [hsend.sizeToInt_head, Bool.false_eq_true, if_false]
          rw [List.flatten_cons, List.length_append] at htotal hstream
          -- an answer that moves nothing ends the call, and the next one asks for the same
          have hstay : r.moves = 0 → Fragments (pieceLens s.iov) (rs.map ReadAnswer.moves) := by
            intro hzero
            rw [hzero] at hpart
            rw [hiov]
            exact hpart hv
          cases r with
          | moved n =>
              change n ≤ v.length at hle
              have hcan : s.CanRead v.length n := ⟨hpositive.moved, hle, by omega⟩
              obtain ⟨htotal', hstream'⟩ := RxState.arrive_left v
                (Nat.le_add_right_of_le hle) htotal hstream
              simp only [if_pos hcan]
              split
              · rename_i hdone
                -- the last iovec is full
                refine .now ?_
                have hlast := hwhole (show n = v.length by omega)
                rwa [hsend.tail.eq_nil (by omega)] at hlast
              · rename_i hne
                split
                · rename_i hlt
                  -- the chunk ends inside the iovec
                  have hleft : (v.drop n :: vs).flatten.length =
                      v.length + vs.flatten.length - n := by
                    rw [List.flatten_cons, List.length_append, List.length_drop]
                    omega
                  refine .later (ih hpositive.tail (hsend.drop hlt) ?_ ?_ ?_ (hpart hlt))
                  · rw [hleft]
                    exact htotal'
                  · rw [hleft]
                    omega
                  · rw [hleft]
                    exact hstream'
                · -- it ends with the iovec, and another one follows
                  have hall : n = v.length := by omega
                  have hvs : vs ≠ [] := hsend.tail.ne_nil (by omega)
                  have hlen := List.length_pos_iff.mpr hvs
                  have hleft : vs.flatten.length = v.length + vs.flatten.length - n := by omega
                  rw [if_neg (by omega)]
                  refine .later (ih hpositive.tail hsend.tail ?_ ?_ ?_ (hwhole hall))
                  · rw [hleft]
                    exact htotal'
                  · rw [hleft]
                    omega
                  · rw [hleft]
                    exact hstream'
          | again => exact .now (hstay rfl)
          | closed => exact .now (hstay rfl)
          | reset => exact .now (hstay rfl)
          | otherErrno => exact .now (hstay rfl)

/-- A chunk is not empty. -/
theorem sendMessageLoop_returns {total : Nat} : ∀ {answers : List WriteAnswer} {s : TxState},
    (∀ r ∈ answers, r ≠ .moved 0) → Sendable s.iov →
    s.sendLen + s.iov.flatten.length = total → 0 < s.iov.flatten.length →
    Fragments (pieceLens s.iov) (answers.map WriteAnswer.moves) →
    (sendMessageLoop total answers s).Returns
      (fun s' rest => Fragments (pieceLens s'.iov) (rest.map WriteAnswer.moves)) answers := by
  intro answers
  induction answers with
  | nil =>
      intro s _ _ _ hpos hfrag
      -- bytes are missing, so a chunk is too
      have hsum := hfrag.sum_eq
      rw [sum_pieceLens, List.map_nil, List.sum_nil] at hsum
      omega
  | cons r rs ih =>
      intro s hpositive hsend htotal hpos hfrag
      have hrs : ∀ r' ∈ rs, r' ≠ .moved 0 :=
        fun r' hr => hpositive r' (List.mem_cons_of_mem r hr)
      unfold sendMessageLoop
      rw [if_neg (by omega)]
      cases hiov : s.iov with
      | nil =>
          rw [hiov] at hpos
          exact absurd hpos (Nat.lt_irrefl 0)
      | cons v vs =>
          rw [hiov] at hsend htotal hfrag
          have hv := hsend.length_pos
          obtain ⟨hle, hpart, hwhole⟩ := Sendable.fragments hfrag
          simp only [hsend.sizeToInt_head, Bool.false_eq_true, if_false]
          rw [List.flatten_cons, List.length_append] at htotal
          have hstay : r.moves = 0 → Fragments (pieceLens s.iov) (rs.map WriteAnswer.moves) := by
            intro hzero
            rw [hzero] at hpart
            rw [hiov]
            exact hpart hv
          cases r with
          | moved n =>
              change n ≤ v.length at hle
              have hn : 0 < n := by
                refine Nat.pos_of_ne_zero ?_
                rintro rfl
                exact hpositive _ (List.mem_cons_self ..) rfl
              have hlen : (s.accept v n).sendLen = s.sendLen + n := rfl
              simp only [if_pos (show 0 < n ∧ n ≤ v.length from ⟨hn, hle⟩)]
              split
              · -- the last iovec has been written
                refine .now ?_
                have hlast := hwhole (show n = v.length by omega)
                rwa [hsend.tail.eq_nil (by omega)] at hlast
              · rename_i hne
                split
                · rename_i hlt
                  -- the chunk ends inside the iovec
                  have hleft : (v.drop n :: vs).flatten.length =
                      v.length + vs.flatten.length - n := by
                    rw [List.flatten_cons, List.length_append, List.length_drop]
                    omega
                  refine .later (ih hrs (hsend.drop hlt) ?_ ?_ (hpart hlt))
                  · rw [hleft, hlen]
                    omega
                  · rw [hleft]
                    omega
                · -- it ends with the iovec, and another one follows
                  have hall : n = v.length := by omega
                  have hvs : vs ≠ [] := hsend.tail.ne_nil (by omega)
                  have hpos' := List.length_pos_iff.mpr hvs
                  rw [if_neg (by omega)]
                  refine .later (ih hrs hsend.tail ?_ ?_ (hwhole hall))
                  · show (s.accept v n).sendLen + vs.flatten.length = total
                    omega
                  · show 0 < vs.flatten.length
                    omega
          | again => exact .now (hstay rfl)
          | failed => exact .now (hstay rfl)

end SSLSocketOperation

end Ccbase.Net

import Ccbase.Testing.Philox

/-!
# The stream of a `Philox`

The numbers that `operator()` gives one after the other, and where `discard` goes
in them: it moves as far as that many calls would. What is left of the last block
is dropped number by number, whole blocks by the counter alone, and the rest from
one block more.
-/

namespace Ccbase.Testing

namespace Philox

/-- The generator after `n` calls of `operator()`. -/
def after (n : Nat) (g : Philox) : Philox := (fun g => g.draw.2)^[n] g

/-- What the calls of `operator()` return, from the next one on. -/
def outputs (g : Philox) (i : Nat) : UInt32 := (g.after i).draw.1

@[simp] theorem after_zero (g : Philox) : g.after 0 = g := rfl

theorem after_succ (n : Nat) (g : Philox) : g.after (n + 1) = (g.after n).draw.2 :=
  Function.iterate_succ_apply' ..

theorem after_add (m n : Nat) (g : Philox) : g.after (m + n) = (g.after m).after n := by
  rw [after, Nat.add_comm, Function.iterate_add_apply]
  rfl

theorem Agree.refl (g : Philox) : Agree g g := ⟨rfl, rfl, rfl, fun _ => rfl⟩

theorem Agree.trans {g g' g'' : Philox} (h : Agree g g') (h' : Agree g' g'') : Agree g g'' where
  key := h.key.trans h'.key
  counter := h.counter.trans h'.counter
  index := h.index.trans h'.index
  results := fun hi => (h.results hi).trans (h'.results (h.index ▸ hi))

theorem Agree.after {g g' : Philox} (h : Agree g g') (n : Nat) :
    Agree (g.after n) (g'.after n) := by
  induction n with
  | zero => exact h
  | succ n ih =>
      rw [after_succ, after_succ]
      exact ih.draw.2

theorem Agree.outputs {g g' : Philox} (h : Agree g g') : g.outputs = g'.outputs :=
  funext fun i => (h.after i).draw.1

/-! ## Inside a block -/

/-- A call that does not need a new block moves the index. -/
theorem draw_within {g : Philox} (h : g.index ≠ kCounterNum) :
    g.draw.2 = { g with index := g.index + 1 } := by
  rw [draw, if_neg h]

theorem after_within {g : Philox} {n : Nat} (hn : g.index + n ≤ kCounterNum) :
    g.after n = { g with index := g.index + n } := by
  induction n with
  | zero => rfl
  | succ n ih =>
      have hprev := ih (by omega)
      have hlast : (g.after n).index ≠ kCounterNum := by
        rw [hprev]
        show g.index + n ≠ kCounterNum
        omega
      rw [after_succ, draw_within hlast, hprev]
      rfl

/-- The first call after a block is used up. -/
theorem draw_refill {g : Philox} (h : g.index = kCounterNum) : g.draw.2 = g.refill 1 := by
  rw [draw, if_pos h]
  rfl

theorem after_refill {g : Philox} (h : g.index = kCounterNum) {n : Nat} (h1 : 1 ≤ n)
    (h4 : n ≤ kCounterNum) : g.after n = g.refill n := by
  have hfirst : (g.after 1).index = 1 := by
    rw [after_succ, after_zero, draw_refill h]
    rfl
  have hrest := after_within (g := g.after 1) (n := n - 1) (by rw [hfirst]; omega)
  rw [show n = 1 + (n - 1) by omega, after_add, hrest, hfirst, after_succ, after_zero,
    draw_refill h]
  rfl

/-! ## Over whole blocks -/

/-- The generator moved on by whole blocks. -/
def overBlocks (n : Nat) (g : Philox) : Philox :=
  { g with counter := Counter.skipOne^[n] g.counter }

theorem after_block {g : Philox} (h : g.index = kCounterNum) :
    Agree (g.after kCounterNum) (g.overBlocks 1) := by
  rw [after_refill h (by decide) (Nat.le_refl _)]
  exact ⟨rfl, rfl, h.symm, fun h' => absurd rfl h'⟩

theorem after_blocks {g : Philox} (h : g.index = kCounterNum) (n : Nat) :
    Agree (g.after (kCounterNum * n)) (g.overBlocks n) := by
  induction n with
  | zero => exact Agree.refl g
  | succ n ih =>
      have hstep : Agree ((g.after (kCounterNum * n)).after kCounterNum)
          ((g.overBlocks n).overBlocks 1) :=
        (ih.after kCounterNum).trans (after_block h)
      have hover : (g.overBlocks n).overBlocks 1 = g.overBlocks (n + 1) := by
        simp only [overBlocks, Function.iterate_succ_apply', Function.iterate_zero_apply]
      rw [Nat.mul_succ, after_add, ← hover]
      exact hstep

/-! ## `discard` -/

/-- From the end of a block: whole blocks and a rest that is not empty. -/
theorem after_blocks_rest {g : Philox} (h : g.index = kCounterNum) (n : Nat) {r : Nat}
    (h1 : 1 ≤ r) (h4 : r ≤ kCounterNum) :
    Agree (g.after (kCounterNum * n + r)) ((g.overBlocks n).refill r) := by
  rw [after_add, ← after_refill (g := g.overBlocks n) h h1 h4]
  exact (after_blocks h n).after r

/-- The jump of whole blocks that `discard` makes is that many steps of one. -/
theorem skip_overBlocks (g : Philox) {count : UInt64} {n : Nat} (hn : count.toNat = n)
    (hlt : n < 2 ^ 64 - 2 ^ 32) :
    { g with counter := g.counter.skip count } = g.overBlocks n := by
  rw [Counter.skip_eq_iterate g.counter (by omega), hn]
  rfl

theorem toNat_div_four (x : UInt64) : (x / 4).toNat = x.toNat / 4 := UInt64.toNat_div ..

theorem toNat_mod_four (x : UInt64) : (x % 4).toNat = x.toNat % 4 := UInt64.toNat_mod ..

theorem discard_agree_end {g : Philox} (h : g.index = kCounterNum) (step : UInt64) :
    Agree (g.after step.toNat) (g.discard step) := by
  have hlt := step.toNat_lt
  have hskip := skip_overBlocks g (toNat_div_four step) (by omega)
  have hsum : step.toNat = kCounterNum * (step.toNat / 4) + step.toNat % 4 :=
    (Nat.div_add_mod ..).symm
  rw [discard, if_pos h, hskip, toNat_mod_four]
  by_cases hrest : step.toNat % 4 > 0
  · rw [if_pos hrest]
    have hrun := after_blocks_rest h (step.toNat / 4) hrest (by show _ ≤ 4; omega)
    rw [← hsum] at hrun
    exact hrun
  · have hrun := after_blocks h (step.toNat / 4)
    rw [show kCounterNum * (step.toNat / 4) = step.toNat by omega] at hrun
    rw [if_neg hrest]
    exact hrun

theorem discard_agree_within {g : Philox} (h : g.index < kCounterNum) {step : UInt64}
    (hlt : g.index + step.toNat < 2 ^ 64) : Agree (g.after step.toNat) (g.discard step) := by
  have hpos : (UInt64.ofNat g.index + step).toNat = g.index + step.toNat := by
    rw [UInt64.toNat_add, UInt64.toNat_ofNat_of_lt' (by omega : g.index < 2 ^ 64),
      Nat.mod_eq_of_lt hlt]
  have hfour : kCounterNum = 4 := rfl
  rw [discard, if_neg (by omega)]
  generalize UInt64.ofNat g.index + step = pos at hpos ⊢
  have hle : pos ≤ 4 ↔ pos.toNat ≤ 4 := UInt64.le_iff_toNat_le
  by_cases hshort : pos ≤ 4
  · have hrun := after_within (g := g) (n := step.toNat) (by have := hle.mp hshort; omega)
    show Agree _ (if pos ≤ 4 then { g with index := pos.toNat } else _)
    rw [if_pos hshort, hrun, hpos]
    exact Agree.refl _
  · have hlong : 4 < pos.toNat := by
      have := mt hle.mpr hshort
      omega
    have hsub : (pos - 4).toNat = pos.toNat - 4 :=
      UInt64.toNat_sub_of_le _ _ (by rw [UInt64.le_iff_toNat_le]; exact hlong.le)
    have hcount : ((pos - 4) / 4).toNat = (pos.toNat - 4) / 4 := by
      rw [toNat_div_four, hsub]
    have hlt64 := pos.toNat_lt
    -- the rest of the present block, and from its end on as above
    obtain ⟨e, he⟩ : ∃ e : Philox, e = { g with index := kCounterNum } := ⟨_, rfl⟩
    have hend : g.after (4 - g.index) = e := by
      rw [after_within (by omega), he]
      congr 1
      omega
    have hindex : e.index = kCounterNum := by rw [he]
    have hsplit : g.after step.toNat =
        e.after (kCounterNum * ((pos.toNat - 4) / 4) + pos.toNat % 4) := by
      rw [← hend, ← after_add, hfour]
      congr 1
      omega
    show Agree _ (if pos ≤ 4 then _ else
      if (pos % 4).toNat > 0 then
        refill (pos % 4).toNat { g with counter := g.counter.skip ((pos - 4) / 4) }
      else { g with counter := g.counter.skip ((pos - 4) / 4), index := kCounterNum })
    rw [if_neg hshort, hsplit, toNat_mod_four]
    have hskip := skip_overBlocks e hcount (by omega)
    by_cases hrest : pos.toNat % 4 > 0
    · rw [if_pos hrest]
      have hrun := after_blocks_rest hindex ((pos.toNat - 4) / 4) hrest (by omega)
      rw [← hskip, he] at hrun
      rw [he]
      exact hrun
    · have hrun := after_blocks hindex ((pos.toNat - 4) / 4)
      rw [← hskip, he] at hrun
      rw [if_neg hrest, show pos.toNat % 4 = 0 by omega, Nat.add_zero, he]
      exact hrun

/-- `discard` is as many calls of `operator()`. -/
theorem outputs_discard (g : Philox) (step : UInt64) (hindex : g.index ≤ kCounterNum)
    (hlt : g.index + step.toNat < 2 ^ 64) :
    (g.discard step).outputs = (g.after step.toNat).outputs := by
  have hagree : Agree (g.after step.toNat) (g.discard step) := by
    by_cases h : g.index = kCounterNum
    · exact discard_agree_end h step
    · exact discard_agree_within (by omega) hlt
  exact hagree.outputs.symm

theorem outputs_discard_carry :
    (⟨⟨1, 2⟩, ⟨0xFFFFFFFF, 0xFFFFFFFF, 0xFFFFFFFF, 7⟩, ⟨3, 4, 5, 6⟩, 2⟩ : Philox).index ≤
        kCounterNum ∧
      ((⟨⟨1, 2⟩, ⟨0xFFFFFFFF, 0xFFFFFFFF, 0xFFFFFFFF, 7⟩, ⟨3, 4, 5, 6⟩, 2⟩ :
        Philox).discard 9).outputs =
      ((⟨⟨1, 2⟩, ⟨0xFFFFFFFF, 0xFFFFFFFF, 0xFFFFFFFF, 7⟩, ⟨3, 4, 5, 6⟩, 2⟩ :
        Philox).after 9).outputs :=
  ⟨by decide, outputs_discard _ 9 (by decide) (by decide)⟩

end Philox

end Ccbase.Testing

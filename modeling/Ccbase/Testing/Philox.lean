import Mathlib.Logic.Function.Iterate
import Mathlib.Tactic.Common
import Mathlib.Algebra.Order.Ring.Nat

/-!
# `Philox`

The counter-based generator of `random.h`. Each call of `next` scrambles the
counter into four numbers and adds one to it, so the position in the stream is
the counter, taken as one number of 128 bits, and the index into the last four
numbers. `discard` moves the position without drawing.
-/

namespace Ccbase.Testing

/-- `std::array<uint32_t, 4>`. -/
structure Counter where
  c0 : UInt32
  c1 : UInt32
  c2 : UInt32
  c3 : UInt32
  deriving DecidableEq, Repr

/-- `std::array<uint32_t, 2>`. -/
structure Key where
  k0 : UInt32
  k1 : UInt32
  deriving DecidableEq, Repr

def kCounterNum : Nat := 4

def kMagic0 : UInt32 := 0xD2511F53

def kMagic1 : UInt32 := 0xCD9E8D57

def kKeyStep0 : UInt32 := 0x9E3779B9

def kKeyStep1 : UInt32 := 0xBB67AE85

namespace Counter

def get (c : Counter) (i : Nat) : UInt32 :=
  match i with
  | 0 => c.c0
  | 1 => c.c1
  | 2 => c.c2
  | _ => c.c3

def zero : Counter := ⟨0, 0, 0, 0⟩

/-- `compute`. -/
def compute (c : Counter) (k : Key) : Counter :=
  let t0 : UInt64 := kMagic0.toUInt64 * c.c0.toUInt64
  let l0 : UInt32 := t0.toUInt32
  let h0 : UInt32 := (t0 >>> 32).toUInt32
  let t1 : UInt64 := kMagic1.toUInt64 * c.c2.toUInt64
  let l1 : UInt32 := t1.toUInt32
  let h1 : UInt32 := (t1 >>> 32).toUInt32
  ⟨h1 ^^^ c.c1 ^^^ k.k0, l1, h0 ^^^ c.c3 ^^^ k.k1, l0⟩

/-- `skip_one`. -/
def skipOne (c : Counter) : Counter :=
  if c.c0 + 1 = 0 then
    if c.c1 + 1 = 0 then
      if c.c2 + 1 = 0 then ⟨c.c0 + 1, c.c1 + 1, c.c2 + 1, c.c3 + 1⟩
      else ⟨c.c0 + 1, c.c1 + 1, c.c2 + 1, c.c3⟩
    else ⟨c.c0 + 1, c.c1 + 1, c.c2, c.c3⟩
  else ⟨c.c0 + 1, c.c1, c.c2, c.c3⟩

/-- `skip`. -/
def skip (c : Counter) (count : UInt64) : Counter :=
  let lo : UInt32 := count.toUInt32
  let hi : UInt32 := (count >>> 32).toUInt32
  let c0 := c.c0 + lo
  let hi := if c0 < lo then hi + 1 else hi
  let c1 := c.c1 + hi
  if c1 < hi then
    if c.c2 + 1 = 0 then ⟨c0, c1, c.c2 + 1, c.c3 + 1⟩
    else ⟨c0, c1, c.c2 + 1, c.c3⟩
  else ⟨c0, c1, c.c2, c.c3⟩

end Counter

/-- `raise_key`. -/
def Key.raise (k : Key) : Key := ⟨k.k0 + kKeyStep0, k.k1 + kKeyStep1⟩

structure Philox where
  key : Key
  counter : Counter
  results : Counter
  index : Nat
  deriving DecidableEq, Repr

namespace Philox

/-- The constructor from one seed. -/
def ofSeed (seed : UInt64) : Philox where
  key := ⟨seed.toUInt32, (seed >>> 32).toUInt32⟩
  counter := ⟨0, 0, seed.toUInt32, (seed >>> 32).toUInt32⟩
  results := .zero
  index := kCounterNum

/-- The ten rounds of `next`. -/
def rounds : Nat → Key → Counter → Counter
  | 0, _, c => c
  | 1, k, c => c.compute k
  | n + 2, k, c => rounds (n + 1) k.raise (c.compute k)

def block (k : Key) (c : Counter) : Counter := rounds 10 k c

/-- `next`, with the generator behind it. -/
def next (g : Philox) : Counter × Philox :=
  (block g.key g.counter, { g with counter := g.counter.skipOne })

/-- `operator()`. -/
def draw (g : Philox) : UInt32 × Philox :=
  let g :=
    if g.index = kCounterNum then
      let (r, g) := g.next
      { g with results := r, index := 0 }
    else g
  (g.results.get g.index, { g with index := g.index + 1 })

/-- `next` with its result kept, and the index set. -/
def refill (remain : Nat) (g : Philox) : Philox :=
  let (r, g) := g.next
  { g with results := r, index := remain }

/-- `discard`. -/
def discard (g : Philox) (step : UInt64) : Philox :=
  if g.index = kCounterNum then
    let g := { g with counter := g.counter.skip (step / 4) }
    let remain := (step % 4).toNat
    if remain > 0 then g.refill remain else g
  else
    let pos := UInt64.ofNat g.index + step
    if pos ≤ 4 then { g with index := pos.toNat }
    else
      let g := { g with counter := g.counter.skip ((pos - 4) / 4) }
      let remain := (pos % 4).toNat
      if remain > 0 then g.refill remain else { g with index := kCounterNum }

end Philox

/-! ## The counter as a number -/

namespace Counter

/-- The counter as a number of 128 bits. -/
def value (c : Counter) : Nat :=
  c.c0.toNat + 2 ^ 32 * c.c1.toNat + 2 ^ 64 * c.c2.toNat + 2 ^ 96 * c.c3.toNat

theorem value_injective {c d : Counter} (h : c.value = d.value) : c = d := by
  obtain ⟨c0, c1, c2, c3⟩ := c
  obtain ⟨d0, d1, d2, d3⟩ := d
  have hc0 := c0.toNat_lt
  have hc1 := c1.toNat_lt
  have hc2 := c2.toNat_lt
  have hd0 := d0.toNat_lt
  have hd1 := d1.toNat_lt
  have hd2 := d2.toNat_lt
  simp only [value] at h
  have h0 : c0 = d0 := UInt32.toNat.inj (by omega)
  have h1 : c1 = d1 := UInt32.toNat.inj (by omega)
  have h2 : c2 = d2 := UInt32.toNat.inj (by omega)
  have h3 : c3 = d3 := UInt32.toNat.inj (by omega)
  rw [h0, h1, h2, h3]

theorem value_lt (c : Counter) : c.value < 2 ^ 128 := by
  have h0 := c.c0.toNat_lt
  have h1 := c.c1.toNat_lt
  have h2 := c.c2.toNat_lt
  have h3 := c.c3.toNat_lt
  simp only [value]
  omega

theorem toNat_succ (x : UInt32) : (x + 1).toNat = (x.toNat + 1) % 2 ^ 32 := by
  rw [UInt32.toNat_add]
  rfl

theorem succ_eq_zero_iff (x : UInt32) : x + 1 = 0 ↔ x.toNat = 2 ^ 32 - 1 := by
  have hx := x.toNat_lt
  have hs := toNat_succ x
  constructor
  · intro h
    rw [h] at hs
    have hz : (0 : UInt32).toNat = 0 := rfl
    omega
  · intro h
    refine UInt32.toNat.inj ?_
    rw [hs, h]
    rfl

theorem value_skipOne (c : Counter) : c.skipOne.value = (c.value + 1) % 2 ^ 128 := by
  have h0 := c.c0.toNat_lt
  have h1 := c.c1.toNat_lt
  have h2 := c.c2.toNat_lt
  have h3 := c.c3.toNat_lt
  simp only [skipOne, succ_eq_zero_iff]
  split
  · split
    · split
      · simp only [value, toNat_succ]
        omega
      · simp only [value, toNat_succ]
        omega
    · simp only [value, toNat_succ]
      omega
  · simp only [value, toNat_succ]
    omega

theorem value_iterate_skipOne (n : Nat) (c : Counter) :
    (skipOne^[n] c).value = (c.value + n) % 2 ^ 128 := by
  induction n with
  | zero => exact (Nat.mod_eq_of_lt c.value_lt).symm
  | succ n ih =>
      rw [Function.iterate_succ_apply', value_skipOne, ih]
      omega

theorem toNat_lo (count : UInt64) : count.toUInt32.toNat = count.toNat % 2 ^ 32 :=
  UInt64.toNat_toUInt32 count

theorem toNat_hi (count : UInt64) : (count >>> 32).toUInt32.toNat = count.toNat / 2 ^ 32 := by
  have hlt := count.toNat_lt
  rw [UInt64.toNat_toUInt32, UInt64.toNat_shiftRight]
  show count.toNat >>> 32 % 2 ^ 32 = _
  rw [Nat.shiftRight_eq_div_pow]
  omega

/-- `skip` adds its argument, as long as the carry into the upper half of the
argument is not lost. -/
theorem value_skip (c : Counter) {count : UInt64} (hcount : count.toNat < 2 ^ 64 - 2 ^ 32) :
    (c.skip count).value = (c.value + count.toNat) % 2 ^ 128 := by
  have h0 := c.c0.toNat_lt
  have h1 := c.c1.toNat_lt
  have h2 := c.c2.toNat_lt
  have h3 := c.c3.toNat_lt
  have hlo := toNat_lo count
  have hhi := toNat_hi count
  simp only [skip, succ_eq_zero_iff]
  generalize count.toUInt32 = lo at hlo ⊢
  generalize (count >>> 32).toUInt32 = hi at hhi ⊢
  have hlolt := lo.toNat_lt
  have hhilt := hi.toNat_lt
  have hc0 : (c.c0 + lo).toNat = (c.c0.toNat + lo.toNat) % 2 ^ 32 := UInt32.toNat_add ..
  have hcarry : c.c0 + lo < lo ↔ 2 ^ 32 ≤ c.c0.toNat + lo.toNat := by
    rw [UInt32.lt_iff_toNat_lt, hc0]
    omega
  generalize hraised : (if c.c0 + lo < lo then hi + 1 else hi) = up
  have hup : up.toNat = hi.toNat + (if 2 ^ 32 ≤ c.c0.toNat + lo.toNat then 1 else 0) := by
    rw [← hraised]
    by_cases h : c.c0 + lo < lo
    · rw [if_pos h, if_pos (hcarry.mp h), toNat_succ]
      omega
    · rw [if_neg h, if_neg (fun h' => h (hcarry.mpr h'))]
      rfl
  have huplt := up.toNat_lt
  have hc1 : (c.c1 + up).toNat = (c.c1.toNat + up.toNat) % 2 ^ 32 := UInt32.toNat_add ..
  have hcarry1 : c.c1 + up < up ↔ 2 ^ 32 ≤ c.c1.toNat + up.toNat := by
    rw [UInt32.lt_iff_toNat_lt, hc1]
    omega
  simp only [hcarry1]
  split at hup
  · split
    · split
      · simp only [value, toNat_succ, hc0, hc1]
        omega
      · simp only [value, toNat_succ, hc0, hc1]
        omega
    · simp only [value, hc0, hc1]
      omega
  · split
    · split
      · simp only [value, toNat_succ, hc0, hc1]
        omega
      · simp only [value, toNat_succ, hc0, hc1]
        omega
    · simp only [value, hc0, hc1]
      omega

theorem skip_eq_iterate (c : Counter) {count : UInt64} (hcount : count.toNat < 2 ^ 64 - 2 ^ 32) :
    c.skip count = skipOne^[count.toNat] c := by
  refine value_injective ?_
  rw [value_skip c hcount, value_iterate_skipOne]

end Counter

/-! ## Generators that agree -/

namespace Philox

/-- Two generators that give the same numbers from here on. -/
structure Agree (g g' : Philox) : Prop where
  key : g.key = g'.key
  counter : g.counter = g'.counter
  index : g.index = g'.index
  results : g.index ≠ kCounterNum → g.results = g'.results

theorem Agree.draw {g g' : Philox} (h : Agree g g') :
    g.draw.1 = g'.draw.1 ∧ Agree g.draw.2 g'.draw.2 := by
  obtain ⟨key, counter, results, index⟩ := g
  obtain ⟨key', counter', results', index'⟩ := g'
  obtain ⟨rfl, rfl, rfl, hresults⟩ := h
  by_cases hindex : index = kCounterNum
  · subst hindex
    exact ⟨rfl, rfl, rfl, rfl, fun _ => rfl⟩
  · obtain rfl : results = results' := hresults hindex
    exact ⟨rfl, rfl, rfl, rfl, fun _ => rfl⟩

end Philox

end Ccbase.Testing

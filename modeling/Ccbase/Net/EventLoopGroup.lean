import Ccbase.Lib.BitSmear
import Ccbase.Lib.Run
import Ccbase.Net.EpollEvents

/-!
# `EventLoopGroup`

An fd is served by the loop at `fd & (group_size_ - 1)`, which picks one loop of
the group only if `group_size_` is a power of two. `CalcFloorSize` rounds the
configured size down in an `int`: the size is cut to 32 bits, the bits are
smeared with arithmetic shifts, and the sum is one of `size_t` again.
-/

namespace Ccbase.Net

open Ccbase.Lib

/-- `ret` is an `int`. -/
def calcFloorSize (size : BitVec 64) : BitVec 64 :=
  let ret : BitVec 32 := size.setWidth 32
  let ret := ret ||| ret.sshiftRight 1
  let ret := ret ||| ret.sshiftRight 2
  let ret := ret ||| ret.sshiftRight 4
  let ret := ret ||| ret.sshiftRight 8
  let ret := ret ||| ret.sshiftRight 16
  (ret.signExtend 64 + 1) >>> 1

def kEventLoopGroupDefaultSize : BitVec 64 := 8

/-- `maxSize` is what `hardware_concurrency` returns. There is no result if the
size exceeds it. -/
def determinateGroupSize (maxSize : BitVec 32) (groupSize : BitVec 64) : Option (BitVec 64) :=
  let groupSize := if groupSize = 0 then kEventLoopGroupDefaultSize else groupSize
  let size := calcFloorSize groupSize
  if maxSize.setWidth 64 < size then none
  else some (if 2 < size then size else 2)

structure EventLoopGroup where
  groupSize : BitVec 64
  eventLoops : List EventLoop := []

namespace EventLoopGroup

def new (maxSize : BitVec 32) (groupSize : BitVec 64) : Option EventLoopGroup :=
  (determinateGroupSize maxSize groupSize).map fun n => { groupSize := n }

/-- `Initialize`. -/
def initializeLoops (g : EventLoopGroup) : EventLoopGroup :=
  { g with eventLoops := g.eventLoops ++ List.replicate g.groupSize.toNat {} }

/-- `static_cast<size_t>(fd) & (group_size_ - 1)`. -/
def index (g : EventLoopGroup) (fd : BitVec 32) : BitVec 64 :=
  fd.signExtend 64 &&& (g.groupSize - 1)

/-- A call of the loop at `i`; `at` throws when there is no such loop. -/
def callAt (g : EventLoopGroup) (i : Nat)
    (f : EventLoop → Option (EventLoop × List Happening)) :
    Option (EventLoopGroup × List Happening) := do
  let eventLoop ← g.eventLoops[i]?
  let (eventLoop, hs) ← f eventLoop
  some ({ g with eventLoops := g.eventLoops.set i eventLoop }, hs)

def setEventHandler (g : EventLoopGroup) (fd : BitVec 32) (handler : Nat) :
    Option (EventLoopGroup × List Happening) :=
  g.callAt (g.index fd).toNat fun eventLoop => some (eventLoop.setEventHandler fd.toInt handler)

def deleteEpollEvent (g : EventLoopGroup) (fd : BitVec 32) :
    Option (EventLoopGroup × List Happening) :=
  g.callAt (g.index fd).toNat fun eventLoop => eventLoop.deleteEpollEvent fd.toInt

/-- What happens to a group: a call of one of its methods, or a batch of events
in the thread of loop `i`. -/
inductive Call where
  | setEventHandler (fd : BitVec 32) (handler : Nat)
  | deleteEpollEvent (fd : BitVec 32)
  | handleEvent (i : Nat) (batch : List EventLoop.BatchEntry)

def exec (g : EventLoopGroup) : Call → Option (EventLoopGroup × List Happening)
  | .setEventHandler fd handler => g.setEventHandler fd handler
  | .deleteEpollEvent fd => g.deleteEpollEvent fd
  | .handleEvent i batch => g.callAt i fun eventLoop => eventLoop.handleEvent batch

def Step (g : EventLoopGroup) (c : Call) (g' : EventLoopGroup) : Prop :=
  ∃ hs, g.exec c = some (g', hs)

end EventLoopGroup

/-! ## The size of the group -/

/-- The five rounds of `calcFloorSize` smear a window of 32 bits. -/
theorem calcFloorSize_smeared (size : BitVec 64) : ∃ ret : BitVec 32,
    BitSmear.Smeared (size.setWidth 32) 32 ret ∧
      calcFloorSize size = (ret.signExtend 64 + 1) >>> 1 := by
  have h₁ := (BitSmear.Smeared.refl (size.setWidth 32)).smear (k := 1) (by omega) (by omega)
  have h₂ := h₁.smear (k := 2) (by omega) (by omega)
  have h₄ := h₂.smear (k := 4) (by omega) (by omega)
  have h₈ := h₄.smear (k := 8) (by omega) (by omega)
  have h₁₆ := h₈.smear (k := 16) (by omega) (by omega)
  exact ⟨_, h₁₆, rfl⟩

/-- Sizes that are negative as an `int`, or zero. -/
theorem calcFloorSize_eq_zero {size : BitVec 64}
    (h : (size.setWidth 32).msb = true ∨ size.setWidth 32 = 0) : calcFloorSize size = 0 := by
  obtain ⟨ret, hs, he⟩ := calcFloorSize_smeared size
  rw [he]
  rcases h with h | h
  · rw [hs.eq_allOnes (Nat.le_refl _) h]
    decide +kernel
  · rw [h] at hs
    rw [hs.eq_zero]
    decide +kernel

theorem calcFloorSize_toNat {size : BitVec 64} (hpos : (size.setWidth 32).msb = false)
    (hz : (size.setWidth 32).toNat ≠ 0) :
    (calcFloorSize size).toNat = 2 ^ (size.setWidth 32).toNat.log2 := by
  obtain ⟨ret, hs, he⟩ := calcFloorSize_smeared size
  have hlt : (size.setWidth 32).toNat < 2 ^ 31 := BitVec.toNat_lt_of_msb_false hpos
  have hlog : (size.setWidth 32).toNat.log2 < 31 := (Nat.log2_lt hz).2 hlt
  have hret := hs.toNat_eq (Nat.le_refl _) hpos hz
  have hle : 2 ^ ((size.setWidth 32).toNat.log2 + 1) ≤ 2 ^ 31 :=
    Nat.pow_le_pow_right (by omega) hlog
  have hp : 0 < 2 ^ (size.setWidth 32).toNat.log2 := Nat.two_pow_pos _
  have hmsb : ret.msb = false := by
    rw [BitVec.msb_eq_false_iff_two_mul_lt]
    omega
  rw [he, BitVec.toNat_ushiftRight, BitVec.toNat_add, BitVec.toNat_signExtend, hmsb,
    BitVec.toNat_setWidth, hret, Nat.shiftRight_eq_div_pow]
  have hone : BitVec.toNat (1 : BitVec 64) = 1 := rfl
  rw [pow_succ] at hle ⊢
  simp only [Bool.false_eq_true, if_false, hone]
  omega

/-- What `calcFloorSize` returns is zero or a power of two. -/
theorem calcFloorSize_cases (size : BitVec 64) :
    calcFloorSize size = 0 ∨ ∃ k, (calcFloorSize size).toNat = 2 ^ k := by
  by_cases hm : (size.setWidth 32).msb = true
  · exact Or.inl (calcFloorSize_eq_zero (Or.inl hm))
  · by_cases hz : size.setWidth 32 = 0
    · exact Or.inl (calcFloorSize_eq_zero (Or.inr hz))
    · have hn : (size.setWidth 32).toNat ≠ 0 := fun h => hz (BitVec.eq_of_toNat_eq h)
      exact Or.inr ⟨_, calcFloorSize_toNat (by simpa using hm) hn⟩

theorem determinateGroupSize_pow {maxSize : BitVec 32} {groupSize n : BitVec 64}
    (h : determinateGroupSize maxSize groupSize = some n) : ∃ k, 1 ≤ k ∧ n.toNat = 2 ^ k := by
  simp only [determinateGroupSize] at h
  generalize hg : (if groupSize = 0 then kEventLoopGroupDefaultSize else groupSize) = gs at h
  split at h
  · cases h
  · cases h
    split
    · rename_i hlt
      rcases calcFloorSize_cases gs with h0 | ⟨k, hk⟩
      · rw [h0] at hlt
        exact absurd hlt (by decide +kernel)
      · refine ⟨k, ?_, hk⟩
        have hlt' : (2 : BitVec 64).toNat < (calcFloorSize gs).toNat := hlt
        rw [hk] at hlt'
        rcases Nat.eq_zero_or_pos k with rfl | hpos
        · exact absurd hlt' (by decide)
        · exact hpos
    · exact ⟨1, Nat.le_refl 1, rfl⟩

theorem determinateGroupSize_floor {maxSize : BitVec 32} {groupSize n : BitVec 64}
    (h : determinateGroupSize maxSize groupSize = some n) (h2 : 2 ≤ groupSize.toNat)
    (hlt : groupSize.toNat < 2 ^ 31) : n.toNat = 2 ^ groupSize.toNat.log2 := by
  have hne : groupSize ≠ 0 := by
    rintro rfl
    exact absurd h2 (by decide)
  have hw : (groupSize.setWidth 32).toNat = groupSize.toNat := by
    rw [BitVec.toNat_setWidth, Nat.mod_eq_of_lt (by omega)]
  have hm : (groupSize.setWidth 32).msb = false := by
    rw [BitVec.msb_eq_false_iff_two_mul_lt, hw]
    omega
  have hf := calcFloorSize_toNat hm (by rw [hw]; omega)
  rw [hw] at hf
  have hlog : 1 ≤ groupSize.toNat.log2 := (Nat.le_log2 (by omega)).2 h2
  simp only [determinateGroupSize, if_neg hne] at h
  split at h
  · cases h
  · cases h
    split
    · exact hf
    · rename_i hle
      have hle' : ¬ (2 : BitVec 64).toNat < (calcFloorSize groupSize).toNat := hle
      have h2n : (2 : BitVec 64).toNat = 2 := rfl
      have hp : 2 ^ 1 ≤ 2 ^ groupSize.toNat.log2 := Nat.pow_le_pow_right (by omega) hlog
      rw [hf] at hle'
      omega

/-! ## The loop of an fd -/

namespace EventLoopGroup

/-- With a power of two the mask is the remainder, of negative numbers too. -/
theorem index_eq_emod {g : EventLoopGroup} {k : Nat} (hk : g.groupSize.toNat = 2 ^ k)
    (fd : BitVec 32) : ((g.index fd).toNat : Int) = fd.toInt % (g.groupSize.toNat : Int) := by
  have hpos : 0 < 2 ^ k := Nat.two_pow_pos k
  have hk64 : k < 64 := by
    have hlt := g.groupSize.isLt
    rw [hk] at hlt
    exact (Nat.pow_lt_pow_iff_right (by omega)).1 hlt
  have hmask : (g.groupSize - 1).toNat = 2 ^ k - 1 := by
    have hlt := g.groupSize.isLt
    rw [BitVec.toNat_sub_of_le (by rw [BitVec.le_def, hk]; exact hpos), hk]
    rfl
  have hdvd : ((2 ^ k : Nat) : Int) ∣ ((2 ^ 64 : Nat) : Int) :=
    Int.natCast_dvd_natCast.2 (Nat.pow_dvd_pow 2 (by omega))
  have hword : ((fd.signExtend 64).toNat : Int) % ((2 ^ k : Nat) : Int) =
      fd.toInt % ((2 ^ k : Nat) : Int) := by
    have he : (fd.signExtend 64).toInt = fd.toInt := BitVec.toInt_signExtend_of_le (by omega)
    rw [← he, BitVec.toInt_eq_toNat_cond]
    split
    · rfl
    · rw [Int.sub_emod, Int.emod_eq_zero_of_dvd hdvd, Int.sub_zero, Int.emod_emod_of_dvd]
      exact Int.dvd_refl _
  rw [index, BitVec.toNat_and, hmask, Nat.and_two_pow_sub_one_eq_mod, hk, Int.natCast_mod, hword]

/-- There is one loop for each index. -/
def Serves (g : EventLoopGroup) : Prop := g.eventLoops.length = g.groupSize.toNat

theorem callAt_of_loop {g : EventLoopGroup} {i : Nat} {eventLoop : EventLoop}
    (h : g.eventLoops[i]? = some eventLoop)
    (f : EventLoop → Option (EventLoop × List Happening)) :
    g.callAt i f = (f eventLoop).map fun r =>
      ({ g with eventLoops := g.eventLoops.set i r.1 }, r.2) := by
  rw [callAt, h]
  cases hf : f eventLoop with
  | none => simp [hf]
  | some r => simp [hf]

theorem callAt_frame {g g' : EventLoopGroup} {i : Nat} {hs : List Happening}
    {f : EventLoop → Option (EventLoop × List Happening)} (h : g.callAt i f = some (g', hs)) :
    g'.groupSize = g.groupSize ∧ g'.eventLoops.length = g.eventLoops.length := by
  simp only [callAt, Option.bind_eq_bind, Option.bind_eq_some_iff, Option.some.injEq,
    Prod.mk.injEq] at h
  obtain ⟨eventLoop, -, r, -, rfl, -⟩ := h
  exact ⟨rfl, List.length_set⟩

theorem Step.frame {g g' : EventLoopGroup} {c : Call} (h : Step g c g') :
    g'.groupSize = g.groupSize ∧ g'.eventLoops.length = g.eventLoops.length := by
  obtain ⟨hs, h⟩ := h
  cases c with
  | setEventHandler fd handler => exact callAt_frame h
  | deleteEpollEvent fd => exact callAt_frame h
  | handleEvent i batch => exact callAt_frame h

theorem run_serves {g g' : EventLoopGroup} {cs : List Call} (hg : g.Serves)
    (h : Run Step g cs g') : g'.groupSize = g.groupSize ∧ g'.Serves := by
  refine h.state_inv (I := fun s => s.groupSize = g.groupSize ∧ s.Serves) ⟨rfl, hg⟩ ?_
  intro s c s' hs hstep
  obtain ⟨hsize, hlen⟩ := hstep.frame
  exact ⟨by rw [hsize, hs.1], by rw [Serves, hlen, hsize]; exact hs.2⟩

/-- For every configured size the group has a power of two of loops, at least
two; it is the largest one not above the size when the size is at least two and
fits an `int`. Every fd has the loop at its remainder, and both methods go to
it. -/
theorem new_serves_fd {maxSize : BitVec 32} {groupSize : BitVec 64} {g : EventLoopGroup}
    (h : new maxSize groupSize = some g) :
    (∃ k, 1 ≤ k ∧ g.groupSize.toNat = 2 ^ k) ∧
      (2 ≤ groupSize.toNat → groupSize.toNat < 2 ^ 31 → g.groupSize.toNat ≤ groupSize.toNat ∧
        ∀ k, 2 ^ k ≤ groupSize.toNat → 2 ^ k ≤ g.groupSize.toNat) ∧
      (∀ fd : BitVec 32, (g.index fd).toNat < g.groupSize.toNat ∧
        ((g.index fd).toNat : Int) = fd.toInt % (g.groupSize.toNat : Int)) ∧
      ∀ cs g', Run Step g.initializeLoops cs g' → ∀ (fd : BitVec 32) (handler : Nat),
        ∃ (i : Nat) (eventLoop : EventLoop), (i : Int) = fd.toInt % (g.groupSize.toNat : Int) ∧
          g'.eventLoops[i]? = some eventLoop ∧
          g'.setEventHandler fd handler = (let r := eventLoop.setEventHandler fd.toInt handler
            some ({ g' with eventLoops := g'.eventLoops.set i r.1 }, r.2)) ∧
          g'.deleteEpollEvent fd = (eventLoop.deleteEpollEvent fd.toInt).map fun r =>
            ({ g' with eventLoops := g'.eventLoops.set i r.1 }, r.2) := by
  obtain ⟨n, hn, rfl⟩ := Option.map_eq_some_iff.1 h
  obtain ⟨k, hk1, hk⟩ := determinateGroupSize_pow hn
  have hindex : ∀ fd : BitVec 32, (index { groupSize := n } fd).toNat < n.toNat ∧
      ((index { groupSize := n } fd).toNat : Int) = fd.toInt % (n.toNat : Int) := by
    intro fd
    have he : ((index { groupSize := n } fd).toNat : Int) = fd.toInt % (n.toNat : Int) :=
      index_eq_emod (g := { groupSize := n }) hk fd
    have hpos : (0 : Int) < (n.toNat : Int) := by
      have := Nat.two_pow_pos k
      omega
    have hlt := Int.emod_lt_of_pos fd.toInt hpos
    exact ⟨by omega, he⟩
  refine ⟨⟨k, hk1, hk⟩, ?_, hindex, ?_⟩
  · intro h2 hlt
    show n.toNat ≤ _ ∧ ∀ k, _ → _ ≤ n.toNat
    rw [determinateGroupSize_floor hn h2 hlt]
    refine ⟨Nat.log2_self_le (by omega), ?_⟩
    intro j hj
    exact Nat.pow_le_pow_right (by omega) ((Nat.le_log2 (by omega)).2 hj)
  · intro cs g' hrun fd handler
    have hserves : Serves (initializeLoops { groupSize := n }) := by simp [Serves, initializeLoops]
    obtain ⟨hsize, hlen⟩ := run_serves hserves hrun
    have hsize' : g'.groupSize = n := hsize
    have hi : g'.index fd = index { groupSize := n } fd := by rw [index, index, hsize']
    have hlt : (g'.index fd).toNat < g'.eventLoops.length := by
      rw [hlen, hi, hsize']
      exact (hindex fd).1
    have hget := List.getElem?_eq_getElem hlt
    refine ⟨(g'.index fd).toNat, g'.eventLoops[(g'.index fd).toNat], ?_, hget, ?_, ?_⟩
    · rw [hi]
      exact (hindex fd).2
    · rw [setEventHandler, callAt_of_loop hget]
      rfl
    · exact callAt_of_loop hget _

/-- Eight cores, configured with seven threads, and fd `-1`. -/
theorem new_serves_seven : ∃ g, new 8 7 = some g ∧ g.groupSize.toNat = 4 ∧
    ((g.index (-1)).toNat : Int) = (-1 : BitVec 32).toInt % (g.groupSize.toNat : Int) :=
  ⟨{ groupSize := 4 }, rfl, rfl, ((@new_serves_fd 8 7 { groupSize := 4 } rfl).2.2.1 (-1)).2⟩

end EventLoopGroup

end Ccbase.Net

import Ccbase.Memory.VmmFits

/-!
# `EagerFreeDeviceMem`

The loop goes over the segments from the first one at or above `addr`. Each step moves
the handle of a mapped segment to the cache; several steps are one `Released`.

The end of a segment is computed without a check. As long as the map of the segments fits
into memory no region comes near the end of the address space, and every range inside the
reserved regions is released exactly.
-/

namespace Ccbase.Memory

open Ccbase.Lib

namespace VmmAdapter

variable {host : Nat ↪ Nat} {a a' : VmmAdapter} {k h : Nat}

/-! ## Released segments -/

/-- The segments from `s` up to `t` have been unmapped, and their handles are in the
cache. -/
structure Released (host : Nat ↪ Nat) (s t : Nat) (a a' : VmmAdapter) : Prop where
  sane : Sane host a'
  inside : ∀ k, s ≤ k → k < t → a'.vmmMap.find? k = (a.vmmMap.find? k).map fun _ => none
  others : ∀ k, ¬ (s ≤ k ∧ k < t) → a'.vmmMap.find? k = a.vmmMap.find? k
  cached : ∀ h, h ∈ a'.cachedHandleSets ↔
    h ∈ a.cachedHandleSets ∨ ∃ k, s ≤ k ∧ k < t ∧ a.vmmMap.find? k = some (some h)

theorem Released.nil (hi : Sane host a) (s : Nat) : Released host s s a a where
  sane := hi
  inside := fun k hs ht => by omega
  others := fun _ _ => rfl
  cached := by
    refine fun h => ⟨.inl, fun hh => ?_⟩
    rcases hh with hh | ⟨k, hs, ht, -⟩
    · exact hh
    · omega

theorem Released.trans {s u t : Nat} {a₁ : VmmAdapter} (h₁ : Released host s u a a₁)
    (h₂ : Released host u t a₁ a') (hsu : s ≤ u) (hut : u ≤ t) : Released host s t a a' where
  sane := h₂.sane
  inside := by
    intro k hs ht
    by_cases hu : k < u
    · rw [h₂.others k (by omega), h₁.inside k hs hu]
    · rw [h₂.inside k (not_lt.mp hu) ht, h₁.others k (by omega)]
  others := by
    intro k hk
    rw [h₂.others k (by omega), h₁.others k (by omega)]
  cached := by
    intro h
    rw [h₂.cached, h₁.cached]
    constructor
    · rintro ((hh | ⟨k, hs, hu, hk⟩) | ⟨k, hu, ht, hk⟩)
      · exact .inl hh
      · exact .inr ⟨k, hs, by omega, hk⟩
      · rw [h₁.others k (by omega)] at hk
        exact .inr ⟨k, by omega, ht, hk⟩
    · rintro (hh | ⟨k, hs, ht, hk⟩)
      · exact .inl (.inl hh)
      · by_cases hu : k < u
        · exact .inl (.inr ⟨k, hs, hu, hk⟩)
        · refine .inr ⟨k, not_lt.mp hu, ht, ?_⟩
          rw [h₁.others k (by omega)]
          exact hk

/-- Between two segments there is none. -/
theorem Sane.eq_of_segment (hi : Sane host a) {s : Nat} (hs : s % kVmmAlignSize = 0)
    (hk : (a.vmmMap.find? k).isSome) (hle : s ≤ k) (hlt : k < s + kVmmAlignSize) : k = s := by
  obtain ⟨v, hv⟩ := Option.isSome_iff_exists.mp hk
  have hal := (hi.aligned k v hv).1
  simp only [kVmmAlignSize] at *
  omega

/-- A segment that is not mapped. -/
theorem Released.skip (hi : Sane host a) {s : Nat} (hs : a.vmmMap.find? s = some none) :
    Released host s (s + kVmmAlignSize) a a := by
  have hal := (hi.aligned s _ hs).1
  have heq : ∀ k, s ≤ k → k < s + kVmmAlignSize → (a.vmmMap.find? k).isSome → k = s :=
    fun k hle hlt hk => hi.eq_of_segment hal hk hle hlt
  exact {
    sane := hi
    inside := by
      intro k hle hlt
      cases hf : a.vmmMap.find? k with
      | none => rfl
      | some v =>
          obtain rfl := heq k hle hlt (by rw [hf]; rfl)
          rw [hs] at hf
          rw [← hf]
          rfl
    others := fun _ _ => rfl
    cached := by
      refine fun h => ⟨.inl, fun hh => hh.resolve_right ?_⟩
      rintro ⟨k, hle, hlt, hk⟩
      rw [heq k hle hlt (by rw [hk]; rfl), hs] at hk
      cases hk }

/-- A mapped segment. -/
theorem Released.unbind {s : Nat} {m : VmmManager} (hi : Sane host a)
    (hs : a.vmmMap.find? s = some (some h))
    (hi' : Sane host { a with
      manager := m
      vmmMap := a.vmmMap.modify s fun _ => none
      cachedHandleSets := OrdSet.emplace host h a.cachedHandleSets }) :
    Released host s (s + kVmmAlignSize) a { a with
      manager := m
      vmmMap := a.vmmMap.modify s fun _ => none
      cachedHandleSets := OrdSet.emplace host h a.cachedHandleSets } := by
  have hal := (hi.aligned s _ hs).1
  have heq : ∀ k, s ≤ k → k < s + kVmmAlignSize → (a.vmmMap.find? k).isSome → k = s :=
    fun k hle hlt hk => hi.eq_of_segment hal hk hle hlt
  have hpos : 0 < kVmmAlignSize := by decide
  exact {
    sane := hi'
    inside := by
      intro k hle hlt
      rw [OrdMap.find?_modify]
      split
      · rename_i hks
        rw [hks]
      · rename_i hks
        cases hf : a.vmmMap.find? k with
        | none => rfl
        | some v => exact absurd (heq k hle hlt (by rw [hf]; rfl)) hks
    others := by
      intro k hk
      rw [OrdMap.find?_modify, if_neg (by omega)]
    cached := by
      intro h'
      constructor
      · intro hh
        rcases OrdSet.mem_emplace hh with rfl | hh
        · exact .inr ⟨s, le_rfl, by omega, hs⟩
        · exact .inl hh
      · rintro (hh | ⟨k, hle, hlt, hk⟩)
        · exact OrdSet.mem_emplace_of_mem hh
        · obtain rfl := heq k hle hlt (by rw [hk]; rfl)
          rw [hs] at hk
          cases hk
          exact OrdSet.mem_emplace_inj host.injective h a.cachedHandleSets }

/-! ## The loop -/

/-- The mapped segments from `s` up to `t`. -/
def mappedBelow (s t : Nat) (m : OrdMap Nat (Option Nat)) : Nat :=
  (m.from_ s).countP fun e => decide (e.1 < t) && e.2.isSome

theorem mappedBelow_self (s : Nat) (m : OrdMap Nat (Option Nat)) : mappedBelow s s m = 0 := by
  refine List.countP_eq_zero.mpr fun e he => ?_
  have hle := (OrdMap.mem_from_.mp he).2
  simp [not_lt.mpr hle]

theorem Sane.mappedBelow_step (hi : Sane host a) {s t : Nat} {v : Option Nat}
    (hs : a.vmmMap.find? s = some v) (ht : s < t) :
    mappedBelow s t a.vmmMap =
      mappedBelow (s + kVmmAlignSize) t a.vmmMap + if v.isSome then 1 else 0 := by
  rw [mappedBelow, hi.from_eq hs, List.countP_cons]
  simp only [ht, decide_true, Bool.true_and]
  rfl

theorem mappedBelow_congr {s t : Nat} {m m' : OrdMap Nat (Option Nat)}
    (h : ∀ k, s ≤ k → m.find? k = m'.find? k) : mappedBelow s t m = mappedBelow s t m' := by
  rw [mappedBelow, mappedBelow, OrdMap.from_congr h]

theorem eagerFreeLoop_break {freeEnd start ret : Nat} {iter : List (Nat × Option Nat)}
    (h : freeEnd < addSize start kVmmAlignSize) :
    eagerFreeLoop host freeEnd iter start ret a = some (some ret, a) := by
  cases iter with
  | nil => simp only [eagerFreeLoop, h, if_true]
  | cons e iter => simp only [eagerFreeLoop, h, if_true]

/-- One turn of the loop that does not leave it. -/
theorem eagerFreeLoop_step {freeEnd s : Nat} (ret : Nat) (hi : Sane host a) {v : Option Nat}
    (hs : a.vmmMap.find? s = some v) (hend : ¬ freeEnd < addSize s kVmmAlignSize) :
    ∃ a', eagerFreeLoop host freeEnd (a.vmmMap.from_ s) s ret a =
        eagerFreeLoop host freeEnd (a'.vmmMap.from_ (s + kVmmAlignSize)) (addSize s kVmmAlignSize)
          (if v.isSome then addSize ret kVmmAlignSize else ret) a' ∧
      Released host s (s + kVmmAlignSize) a a' := by
  rw [hi.from_eq hs]
  cases v with
  | none =>
      refine ⟨a, ?_, .skip hi hs⟩
      simp only [eagerFreeLoop, hend, if_false, ne_eq, not_true_eq_false, Option.isSome_none,
        Bool.false_eq_true]
  | some h =>
      obtain ⟨m, hm, hi'⟩ := hi.unbind hs
      have hrel := Released.unbind hi hs hi'
      have hpos : 0 < kVmmAlignSize := by decide
      have hfrom : a.vmmMap.from_ (s + kVmmAlignSize) =
          (a.vmmMap.modify s fun _ => none).from_ (s + kVmmAlignSize) :=
        OrdMap.from_congr fun k hk => (hrel.others k (by omega)).symm
      refine ⟨_, ?_, hrel⟩
      rw [hfrom]
      simp only [eagerFreeLoop, hend, if_false, ne_eq, not_true_eq_false, hm, Option.isSome_some,
        if_true, Option.bind_eq_bind, Option.bind_some, Bool.not_true, Bool.false_eq_true]

/-- `n` turns of the loop. -/
theorem eagerFreeLoop_steps (freeEnd n : Nat) :
    ∀ (s ret : Nat) {a : VmmAdapter}, Sane host a → ret < sizeBound →
      (∀ j < n, (a.vmmMap.find? (s + j * kVmmAlignSize)).isSome) →
      (∀ j < n, (s + (j + 1) * kVmmAlignSize) % sizeBound ≤ freeEnd) →
      ∃ a', eagerFreeLoop host freeEnd (a.vmmMap.from_ s) (s % sizeBound) ret a =
          eagerFreeLoop host freeEnd (a'.vmmMap.from_ (s + n * kVmmAlignSize))
            ((s + n * kVmmAlignSize) % sizeBound)
            ((ret + kVmmAlignSize * mappedBelow s (s + n * kVmmAlignSize) a.vmmMap) % sizeBound)
            a' ∧
        Released host s (s + n * kVmmAlignSize) a a' ∧
        mappedBelow s (s + n * kVmmAlignSize) a.vmmMap ≤ n := by
  induction n with
  | zero =>
      intro s ret a hi hret _ _
      rw [Nat.zero_mul, Nat.add_zero, mappedBelow_self, Nat.mul_zero, Nat.add_zero,
        Nat.mod_eq_of_lt hret]
      exact ⟨a, rfl, .nil hi s, le_rfl⟩
  | succ n ih =>
      intro s ret a hi hret hres hend
      have hsome := hres 0 (Nat.succ_pos n)
      rw [Nat.zero_mul, Nat.add_zero] at hsome
      obtain ⟨v, hv⟩ := Option.isSome_iff_exists.mp hsome
      have hend₀ := hend 0 (Nat.succ_pos n)
      rw [Nat.zero_add, Nat.one_mul] at hend₀
      have hnext : ∀ j, s + kVmmAlignSize + j * kVmmAlignSize = s + (j + 1) * kVmmAlignSize := by
        intro j
        rw [Nat.add_mul, Nat.one_mul, Nat.add_assoc, Nat.add_comm kVmmAlignSize]
      have hpos : 0 < kVmmAlignSize := by decide
      have hlt : s < s + (n + 1) * kVmmAlignSize :=
        Nat.lt_add_of_pos_right (Nat.mul_pos (Nat.succ_pos n) hpos)
      obtain ⟨a₁, hstep, hrel⟩ := eagerFreeLoop_step ret hi hv (not_lt.mpr hend₀)
      have hsame : ∀ k, s + kVmmAlignSize ≤ k → a.vmmMap.find? k = a₁.vmmMap.find? k :=
        fun k hk => (hrel.others k (by omega)).symm
      have hcount := hi.mappedBelow_step hv hlt
      obtain ⟨a', hloop, hrel', hle⟩ := ih (s + kVmmAlignSize)
        (if v.isSome then addSize ret kVmmAlignSize else ret) hrel.sane
        (by split; exacts [addSize_lt _ _, hret])
        (fun j hj => by
          rw [hnext, ← hsame _ (by rw [← hnext]; exact Nat.le_add_right _ _)]
          exact hres (j + 1) (Nat.succ_lt_succ hj))
        (fun j hj => by
          rw [hnext]
          exact hend (j + 1) (Nat.succ_lt_succ hj))
      rw [hnext, ← mappedBelow_congr hsame] at hloop hle
      rw [hnext] at hrel'
      refine ⟨a', ?_, hrel.trans hrel' (Nat.le_add_right _ _) ?_, ?_⟩
      · have hmod : s % sizeBound = s := Nat.mod_eq_of_lt (hi.aligned s v hv).2
        have hret' : ((if v.isSome then addSize ret kVmmAlignSize else ret) + kVmmAlignSize *
            mappedBelow (s + kVmmAlignSize) (s + (n + 1) * kVmmAlignSize) a.vmmMap) % sizeBound =
            (ret + kVmmAlignSize * mappedBelow s (s + (n + 1) * kVmmAlignSize) a.vmmMap) %
              sizeBound := by
          rw [hcount]
          split
          · rw [addSize, Nat.mod_add_mod, Nat.mul_add, Nat.mul_one, Nat.add_right_comm,
              Nat.add_assoc]
          · rw [Nat.add_zero (mappedBelow (s + kVmmAlignSize) _ a.vmmMap)]
        rw [hmod, hstep, ← hret', ← hloop]
        rfl
      · rw [← hnext]
        exact Nat.le_add_right _ _
      · rw [hcount]
        split
        · exact Nat.succ_le_succ hle
        · exact Nat.le_succ_of_le hle

/-- With no mapped segment ahead the loop changes nothing and adds nothing. -/
theorem eagerFreeLoop_idle (host : Nat ↪ Nat) (freeEnd : Nat) {iter : List (Nat × Option Nat)}
    (hiter : ∀ e ∈ iter, e.2 = none) :
    ∀ (start ret : Nat), ∃ r, eagerFreeLoop host freeEnd iter start ret a = some (r, a) ∧
      (r = some ret ∨ r = none) := by
  induction iter with
  | nil =>
      intro start ret
      rw [eagerFreeLoop]
      split
      · exact ⟨_, rfl, .inl rfl⟩
      · exact ⟨_, rfl, .inr rfl⟩
  | cons e iter ih =>
      intro start ret
      obtain ⟨key, value⟩ := e
      obtain rfl : value = none := hiter (key, value) (.head _)
      rw [eagerFreeLoop]
      split
      · exact ⟨_, rfl, .inl rfl⟩
      · split
        · exact ⟨_, rfl, .inr rfl⟩
        · exact ih (fun d hd => hiter d (.tail _ hd)) _ ret

/-! ## What is released -/

/-- The segment at `k` lies inside the range. -/
def Inside (addr size k : Nat) : Prop := addr ≤ k ∧ k + kVmmAlignSize ≤ addr + size

instance (addr size k : Nat) : Decidable (Inside addr size k) :=
  inferInstanceAs (Decidable (_ ∧ _))

/-- The mapped segments inside the range. -/
def mappedInside (addr size : Nat) (m : OrdMap Nat (Option Nat)) : Nat :=
  m.entries.countP fun e => decide (Inside addr size e.1) && e.2.isSome

/-- Every byte of the range lies in a segment that is reserved. -/
def InRegions (addr size : Nat) (a : VmmAdapter) : Prop :=
  ∀ x, addr ≤ x → x < addr + size →
    (a.vmmMap.find? (x / kVmmAlignSize * kVmmAlignSize)).isSome

/-- Exactly the mapped segments inside the range have been unmapped. -/
structure EagerFreed (addr size : Nat) (a : VmmAdapter) (r : Nat) (a' : VmmAdapter) : Prop where
  unmapped : ∀ k h, Inside addr size k → a.vmmMap.find? k = some (some h) →
    a'.vmmMap.find? k = some none
  others : ∀ k, ¬ (Inside addr size k ∧ ∃ h, a.vmmMap.find? k = some (some h)) →
    a'.vmmMap.find? k = a.vmmMap.find? k
  cached : ∀ h, h ∈ a'.cachedHandleSets ↔ h ∈ a.cachedHandleSets ∨
    ∃ k, Inside addr size k ∧ a.vmmMap.find? k = some (some h)
  returned : r = kVmmAlignSize * mappedInside addr size a.vmmMap

theorem mappedInside_eq_zero {addr size : Nat}
    (hnone : ∀ k h, addr ≤ k → a.vmmMap.find? k ≠ some (some h)) :
    mappedInside addr size a.vmmMap = 0 := by
  refine List.countP_eq_zero.mpr fun e he => ?_
  rw [Bool.and_eq_true, decide_eq_true_iff, Option.isSome_iff_exists]
  rintro ⟨hin, h, hh⟩
  refine hnone e.1 h hin.1 (OrdMap.find?_eq_some_iff.mpr ?_)
  rw [← hh]
  exact he

/-- The released segments are those inside the range. -/
theorem Released.eagerFreed {addr size s t : Nat} (hi : Sane host a)
    (hrel : Released host s t a a')
    (hst : ∀ k, k % kVmmAlignSize = 0 → k < sizeBound → (Inside addr size k ↔ s ≤ k ∧ k < t)) :
    EagerFreed addr size a (kVmmAlignSize * mappedBelow s t a.vmmMap) a' := by
  have hiff : ∀ k v, a.vmmMap.find? k = some v → (Inside addr size k ↔ s ≤ k ∧ k < t) :=
    fun k v hk => hst k (hi.aligned k v hk).1 (hi.aligned k v hk).2
  exact {
    unmapped := by
      intro k h hin hk
      obtain ⟨hs, ht⟩ := (hiff k _ hk).mp hin
      rw [hrel.inside k hs ht, hk]
      rfl
    others := by
      intro k hk
      by_cases hst : s ≤ k ∧ k < t
      · rw [hrel.inside k hst.1 hst.2]
        cases hf : a.vmmMap.find? k with
        | none => rfl
        | some v =>
            cases v with
            | none => rfl
            | some h => exact absurd ⟨(hiff k _ hf).mpr hst, h, hf⟩ hk
      · exact hrel.others k hst
    cached := by
      intro h
      rw [hrel.cached]
      refine or_congr_right ⟨?_, ?_⟩
      · rintro ⟨k, hs, ht, hk⟩
        exact ⟨k, (hiff k _ hk).mpr ⟨hs, ht⟩, hk⟩
      · rintro ⟨k, hin, hk⟩
        obtain ⟨hs, ht⟩ := (hiff k _ hk).mp hin
        exact ⟨k, hs, ht, hk⟩
    returned := by
      rw [mappedBelow, OrdMap.from_eq_filter, List.countP_filter, mappedInside]
      congr 1
      refine List.countP_congr fun e he => ?_
      have := hiff e.1 e.2 (OrdMap.find?_eq_some_iff.mpr he)
      simp only [Bool.and_eq_true, decide_eq_true_iff, this]
      tauto }

/-! ## The call -/

/-- The first address of a segment at or above `addr`. -/
def firstSegment (addr : Nat) : Nat :=
  (addr + (kVmmAlignSize - 1)) / kVmmAlignSize * kVmmAlignSize

theorem firstSegment_spec (addr : Nat) :
    addr ≤ firstSegment addr ∧ firstSegment addr < addr + kVmmAlignSize ∧
      firstSegment addr % kVmmAlignSize = 0 := by
  unfold firstSegment kVmmAlignSize
  omega

theorem firstSegment_le_iff {addr : Nat} (hk : k % kVmmAlignSize = 0) :
    firstSegment addr ≤ k ↔ addr ≤ k := by
  unfold firstSegment kVmmAlignSize at *
  omega

theorem Sane.from_first (hi : Sane host a) (addr : Nat) :
    a.vmmMap.from_ addr = a.vmmMap.from_ (firstSegment addr) := by
  refine OrdMap.sorted_ext (a.vmmMap.sorted_from _) (a.vmmMap.sorted_from _) fun e => ?_
  rw [OrdMap.mem_from_, OrdMap.mem_from_]
  refine and_congr_right fun he => ?_
  exact (firstSegment_le_iff (hi.aligned e.1 e.2 (OrdMap.find?_eq_some_iff.mpr he)).1).symm

theorem Sane.first_reserved (hi : Sane host a) {addr : Nat} {v : Option Nat}
    (hk : a.vmmMap.find? k = some v) (hle : addr ≤ k) :
    ∃ v, a.vmmMap.find? (firstSegment addr) = some v := by
  obtain ⟨hal, hb⟩ := hi.aligned k v hk
  refine Option.isSome_iff_exists.mp ?_
  refine hi.filled.down (firstSegment_spec addr).2.2 ((firstSegment_le_iff hal).mpr hle) ?_ hb
  rw [hk]
  rfl

theorem Sane.eagerFree_eq (hi : Sane host a) {addr : Nat} {v : Option Nat}
    (hfirst : a.vmmMap.find? (firstSegment addr) = some v) (size : Nat) :
    a.eagerFreeDeviceMem host addr size =
      (eagerFreeLoop host (addSize addr size) (a.vmmMap.from_ (firstSegment addr))
        (firstSegment addr % sizeBound) 0 a).bind fun x => some (x.1.getD 0, x.2) := by
  rw [Nat.mod_eq_of_lt (hi.aligned _ v hfirst).2]
  unfold eagerFreeDeviceMem
  rw [hi.from_first addr, hi.from_eq hfirst]
  rfl

/-- The reserved segments inside a range. -/
theorem InRegions.segment {addr size : Nat} (hin : InRegions addr size a)
    (hk : k % kVmmAlignSize = 0) (hle : addr ≤ k) (hlt : k < addr + size) :
    (a.vmmMap.find? k).isSome := by
  have h := hin k hle hlt
  rwa [Nat.div_mul_cancel (Nat.dvd_of_mod_eq_zero hk)] at h

/-- Nothing is mapped behind the start of the range. -/
theorem eagerFree_idle (host : Nat ↪ Nat) {addr : Nat} (size : Nat)
    (hnone : ∀ k h, addr ≤ k → a.vmmMap.find? k ≠ some (some h)) :
    a.eagerFreeDeviceMem host addr size = some (0, a) ∧ EagerFreed addr size a 0 a := by
  have hiter : ∀ e ∈ a.vmmMap.from_ addr, e.2 = none := by
    intro e he
    obtain ⟨hmem, hle⟩ := OrdMap.mem_from_.mp he
    have hfind := OrdMap.find?_eq_some_iff.mpr hmem
    cases hv : e.2 with
    | none => rfl
    | some h =>
        rw [hv] at hfind
        exact absurd hfind (hnone e.1 h hle)
  refine ⟨?_, ?_⟩
  · unfold eagerFreeDeviceMem
    cases hfrom : a.vmmMap.from_ addr with
    | nil => rfl
    | cons e iter =>
        rw [hfrom] at hiter
        obtain ⟨r, hloop, hr⟩ := eagerFreeLoop_idle (a := a) host (addSize addr size) hiter e.1 0
        dsimp only
        rw [hloop]
        rcases hr with rfl | rfl
        · rfl
        · rfl
  · exact {
      unmapped := fun k h hin hk => absurd hk (hnone k h hin.1)
      others := fun _ _ => rfl
      cached := fun h =>
        ⟨.inl, fun hh => hh.resolve_right fun ⟨k, hin, hk⟩ => hnone k h hin.1 hk⟩
      returned := by rw [mappedInside_eq_zero hnone, Nat.mul_zero] }

/-- The loop takes `n` segments and then leaves by `break`. -/
theorem Sane.eagerFree_break (hi : Sane host a) {addr s t : Nat} (size n : Nat) {v : Option Nat}
    (hs : firstSegment addr = s) (hfirst : a.vmmMap.find? s = some v)
    (ht : t = s + n * kVmmAlignSize) (hn : n * kVmmAlignSize < sizeBound)
    (hres : ∀ j < n, (a.vmmMap.find? (s + j * kVmmAlignSize)).isSome)
    (hend : ∀ j < n, (s + (j + 1) * kVmmAlignSize) % sizeBound ≤ addSize addr size)
    (hbreak : addSize addr size < addSize (t % sizeBound) kVmmAlignSize) :
    ∃ a', a.eagerFreeDeviceMem host addr size =
        some (kVmmAlignSize * mappedBelow s t a.vmmMap, a') ∧ Released host s t a a' := by
  subst ht
  subst hs
  obtain ⟨a', hloop, hrel, hle⟩ := eagerFreeLoop_steps (addSize addr size) n (firstSegment addr) 0
    hi (by decide) hres hend
  refine ⟨a', ?_, hrel⟩
  have hlt : kVmmAlignSize * mappedBelow (firstSegment addr)
      (firstSegment addr + n * kVmmAlignSize) a.vmmMap < sizeBound := by
    rw [Nat.mul_comm]
    exact Nat.lt_of_le_of_lt (Nat.mul_le_mul_right _ hle) hn
  rw [Nat.zero_add, Nat.mod_eq_of_lt hlt] at hloop
  rw [hi.eagerFree_eq hfirst, hloop, eagerFreeLoop_break hbreak]
  rfl

/-- A range that stays away from the end of the address space. -/
theorem Sane.eagerFree_inside (hi : Sane host a) {addr size : Nat} {v : Option Nat}
    (hfirst : a.vmmMap.find? (firstSegment addr) = some v) (hin : InRegions addr size a)
    (haddr : addr + 2 * kVmmAlignSize ≤ sizeBound)
    (hend : addr + size + kVmmAlignSize < sizeBound) :
    ∃ r a', a.eagerFreeDeviceMem host addr size = some (r, a') ∧
      EagerFreed addr size a r a' := by
  obtain ⟨hle, hlt, hal⟩ := firstSegment_spec addr
  have hsum : addSize addr size = addr + size :=
    addSize_eq (Nat.lt_of_le_of_lt (Nat.le_add_right _ _) hend)
  generalize hs : firstSegment addr = s at *
  have hseg : ∀ j, (s + j * kVmmAlignSize) % kVmmAlignSize = 0 := by
    intro j
    rw [Nat.add_mul_mod_self_right, hal]
  obtain ⟨a', hcall, hrel⟩ := hi.eagerFree_break size ((addr + size - s) / kVmmAlignSize) hs
    hfirst rfl
    (by simp only [kVmmAlignSize, sizeBound] at *; omega)
    (fun j hj => hin.segment (hseg j) (Nat.le_add_right_of_le hle)
      (by simp only [kVmmAlignSize] at *; omega))
    (fun j hj => by
      rw [hsum]
      simp only [kVmmAlignSize, sizeBound] at *
      omega)
    (by
      rw [hsum, addSize]
      simp only [kVmmAlignSize, sizeBound] at *
      omega)
  refine ⟨_, a', hcall, hrel.eagerFreed hi fun k hk hkb => ?_⟩
  simp only [Inside, kVmmAlignSize, sizeBound] at *
  omega

/-- After any run, as long as the map fits, every range inside the reserved regions is
released exactly. -/
theorem eagerFree_exact (host : Nat ↪ Nat) {ls : List (VmmCall × Nat)}
    (hrun : Run (CallStep host) {} ls a) (hfits : a.Fits) {addr size : Nat}
    (hin : InRegions addr size a) :
    ∃ r a', a.eagerFreeDeviceMem host addr size = some (r, a') ∧
      EagerFreed addr size a r a' := by
  have hi := sane_of_run hrun
  obtain ⟨hbase, hbelow⟩ := hi.below hfits
  by_cases hmapped : ∀ k h, addr ≤ k → a.vmmMap.find? k ≠ some (some h)
  · exact ⟨0, a, eagerFree_idle host size hmapped⟩
  push Not at hmapped
  obtain ⟨k, h, hak, hk⟩ := hmapped
  have hkb := hbelow k (by
    rw [hk]
    rfl)
  obtain ⟨v, hfirst⟩ := hi.first_reserved hk hak
  have hend : addr + size ≤ 2 ^ 63 + kVmmAlignSize := by
    by_cases hsize : size = 0
    · omega
    · have hlast := hbelow _ (hin (addr + size - 1) (by omega) (by omega))
      simp only [kVmmAlignSize] at *
      omega
  refine hi.eagerFree_inside hfirst hin ?_ ?_
  · simp only [kVmmAlignSize, sizeBound]
    omega
  · simp only [kVmmAlignSize, sizeBound] at *
    omega

theorem inRegions_segment (hk : k % kVmmAlignSize = 0) (hsome : (a.vmmMap.find? k).isSome) :
    InRegions k kVmmAlignSize a := by
  intro x hle hlt
  have hx : x / kVmmAlignSize * kVmmAlignSize = k := by
    simp only [kVmmAlignSize] at *
    omega
  rw [hx]
  exact hsome

/-- The second of three segments is mapped and released. -/
theorem eagerFree_exact_three :
    ∃ a, Run (CallStep (.refl Nat)) {} [(.alloc (3 * kVmmAlignSize), kMaxUsedMemSize),
        (.mmap 1 kVmmAlignSize, kMaxUsedMemSize)] a ∧
      a.vmmMap.find? kVmmAlignSize = some (some 0) ∧ a.Fits ∧
      InRegions kVmmAlignSize kVmmAlignSize a ∧
      ∃ r a', a.eagerFreeDeviceMem (.refl Nat) kVmmAlignSize kVmmAlignSize = some (r, a') ∧
        EagerFreed kVmmAlignSize kVmmAlignSize a r a' := by
  have hexec : ((Run.exec (fun a l => exec (.refl Nat) l.2 a l.1) (fun _ _ => True) {}
      [(.alloc (3 * kVmmAlignSize), kMaxUsedMemSize), (.mmap 1 kVmmAlignSize, kMaxUsedMemSize)]).map
        fun a => (a.vmmMap.find? kVmmAlignSize, decide a.Fits)) = some (some (some 0), true) := by
    decide +kernel
  obtain ⟨a, ha, hres⟩ := Option.map_eq_some_iff.mp hexec
  obtain ⟨hk, hfits⟩ := Prod.mk.inj hres
  have hrun : Run (CallStep (.refl Nat)) {} _ a := (Run.of_exec ha).imp fun _ _ _ h => h.1
  have hin : InRegions kVmmAlignSize kVmmAlignSize a :=
    inRegions_segment (by decide) (by rw [hk]; rfl)
  have hfits := of_decide_eq_true hfits
  exact ⟨a, hrun, hk, hfits, hin, eagerFree_exact (.refl Nat) hrun hfits hin⟩

end VmmAdapter

end Ccbase.Memory

import Ccbase.Memory.VmmAdapter
import Ccbase.Lib.Run

/-!
# The handles of the adapter

Every handle the manager has made is in one place: in `vmm_map_`, in the cache,
or, in the middle of an operation, on its way between the two. `VmmAdapter.Inv`
has the handles on their way as an argument. Each operation is a sequence of
moves of single handles, and every move keeps the invariant; so none of the
exits of the loops can lose or double a handle, and no call of the manager
throws.
-/

namespace Ccbase.Memory

open Ccbase.Lib

namespace VmmAdapter

variable {host : Nat ↪ Nat} {maxSize : Nat} {a a' : VmmAdapter} {k h : Nat}

/-- The handles in `vmm_map_`. -/
def mappedHandles (a : VmmAdapter) : List Nat := a.vmmMap.entries.filterMap Prod.snd

/-- `loose` are the handles on their way. -/
structure Inv (host : Nat ↪ Nat) (maxSize : Nat) (loose : List Nat) (a : VmmAdapter) :
    Prop where
  aligned : ∀ k v, a.vmmMap.find? k = some v → k % kVmmAlignSize = 0 ∧ k < sizeBound
  base : a.manager.baseAddr % kVmmAlignSize = 0 ∧ a.manager.baseAddr < sizeBound
  mapped : ∀ k h, a.vmmMap.find? k = some (some h) ↔ a.manager.mappedAddrs.find? k = some h
  places : (loose ++ (a.mappedHandles ++ a.cachedHandleSets)).Perm a.manager.handles
  sorted : OrdSet.Sorted host a.manager.handles
  cached : OrdSet.Sorted host a.cachedHandleSets
  made : ∀ h ∈ a.manager.handles, ∃ o, a.manager.objects.get h = some o
  addr : ∀ k h o, a.manager.mappedAddrs.find? k = some h →
    a.manager.objects.get h = some o → o.addr = k
  size : a.physicalHandleSize = a.manager.handles.length
  limit : a.manager.maxMemSize = kMaxUsedMemSize
  real : a.manager.handles.length * kVmmAlignSize < kMaxUsedMemSize + kVmmAlignSize
  bound : a.manager.handles.length * kVmmAlignSize < maxSize + kVmmAlignSize

theorem inv_init (host : Nat ↪ Nat) (maxSize : Nat) : Inv host maxSize [] {} where
  aligned := fun _ _ hk => by cases hk
  base := by decide
  mapped := fun _ _ => ⟨fun hk => (by cases hk), fun hk => (by cases hk)⟩
  places := .refl _
  sorted := OrdSet.sorted_nil
  cached := OrdSet.sorted_nil
  made := fun _ hh => by cases hh
  addr := fun _ _ _ hk => by cases hk
  size := rfl
  limit := rfl
  real := by decide
  bound := by
    show 0 * kVmmAlignSize < maxSize + kVmmAlignSize
    have : 0 < kVmmAlignSize := by decide
    omega

/-! ## Places of handles -/

theorem Inv.nodup {loose : List Nat} (hi : Inv host maxSize loose a) :
    (loose ++ (a.mappedHandles ++ a.cachedHandleSets)).Nodup :=
  hi.places.nodup_iff.mpr hi.sorted.nodup

theorem Inv.mem_handles (hi : Inv host maxSize [] a) (hk : a.vmmMap.find? k = some (some h)) :
    h ∈ a.manager.handles := by
  refine hi.places.mem_iff.mp (List.mem_append_right _ (List.mem_append_left _ ?_))
  exact List.mem_filterMap.mpr ⟨_, OrdMap.find?_eq_some_iff.mp hk, rfl⟩

/-- A handle is mapped at one address. -/
theorem Inv.mapped_inj {loose : List Nat} (hi : Inv host maxSize loose a) {k' : Nat}
    (hk : a.vmmMap.find? k = some (some h)) (hk' : a.vmmMap.find? k' = some (some h))
    (hh : ∃ o, a.manager.objects.get h = some o) : k = k' := by
  obtain ⟨o, ho⟩ := hh
  rw [← hi.addr k h o ((hi.mapped k h).mp hk) ho,
    hi.addr k' h o ((hi.mapped k' h).mp hk') ho]

/-- `vmm_map_[k]` gets a handle. -/
theorem mappedHandles_bind {m : OrdMap Nat (Option Nat)} (hk : m.find? k = some none) (h : Nat) :
    ((m.modify k fun _ => some h).entries.filterMap Prod.snd).Perm
      (h :: m.entries.filterMap Prod.snd) := by
  obtain ⟨rest, hm, hf⟩ := OrdMap.exists_perm_modify hk
  refine ((hf fun _ => some h).filterMap Prod.snd).trans ?_
  simp only [List.filterMap_cons]
  refine List.Perm.cons h ?_
  refine List.Perm.trans ?_ (hm.filterMap Prod.snd).symm
  simp only [List.filterMap_cons]
  exact .refl _

/-- `vmm_map_[k]` loses its handle. -/
theorem mappedHandles_unbind {m : OrdMap Nat (Option Nat)} (hk : m.find? k = some (some h)) :
    (m.entries.filterMap Prod.snd).Perm
      (h :: (m.modify k fun _ => none).entries.filterMap Prod.snd) := by
  obtain ⟨rest, hm, hf⟩ := OrdMap.exists_perm_modify hk
  refine (hm.filterMap Prod.snd).trans ?_
  simp only [List.filterMap_cons]
  refine List.Perm.cons h ?_
  refine List.Perm.trans ?_ ((hf fun _ => none).filterMap Prod.snd).symm
  simp only [List.filterMap_cons]
  exact .refl _

/-- A segment that is not mapped is reserved. -/
theorem mappedHandles_reserve {m : OrdMap Nat (Option Nat)}
    (hk : ∀ h, m.find? k ≠ some (some h)) :
    ((m.insert k none).entries.filterMap Prod.snd).Perm (m.entries.filterMap Prod.snd) := by
  cases hf : m.find? k with
  | none =>
      refine ((OrdMap.perm_insert_of_none none hf).filterMap Prod.snd).trans ?_
      simp only [List.filterMap_cons]
      exact .refl _
  | some v =>
      cases v with
      | none => rw [OrdMap.insert_of_find? hf]
      | some h => exact absurd hf (hk h)

/-! ## Moves -/

/-- The handle of a new object is not among the old ones. -/
theorem Inv.next_notMem {loose : List Nat} (hi : Inv host maxSize loose a) :
    a.manager.objects.next ∉ a.manager.handles := by
  intro hmem
  obtain ⟨o, ho⟩ := hi.made _ hmem
  exact Heap.ne_next ho rfl

theorem getHandle_cases {m m' : VmmManager} {r : Option Nat} (h : m.getHandle host = (r, m')) :
    (r = none ∧ m' = m) ∨
    (r = some m.objects.next ∧ mulSize m.handles.length kDefaultMapSize < m.maxMemSize ∧
      m' = { m with objects := m.objects.new {}
                    handles := OrdSet.emplace host m.objects.next m.handles }) := by
  unfold VmmManager.getHandle at h
  split at h
  · cases h
    exact .inl ⟨rfl, rfl⟩
  · rename_i hlt
    cases h
    exact .inr ⟨rfl, not_le.mp hlt, rfl⟩

/-- A new handle, on its way. -/
theorem Inv.new (hi : Inv host maxSize [] a)
    (hmax : a.manager.handles.length * kVmmAlignSize < maxSize)
    (hreal : a.manager.handles.length * kVmmAlignSize < kMaxUsedMemSize) :
    Inv host maxSize [a.manager.objects.next]
      { a with
        manager := { a.manager with
          objects := a.manager.objects.new {}
          handles := OrdSet.emplace host a.manager.objects.next a.manager.handles }
        physicalHandleSize := addSize a.physicalHandleSize 1 } := by
  have hperm : (OrdSet.emplace host a.manager.objects.next a.manager.handles).Perm
      (a.manager.objects.next :: a.manager.handles) :=
    OrdSet.perm_emplace fun y hy heq => hi.next_notMem (host.injective heq ▸ hy)
  have hlen := hperm.length_eq
  rw [List.length_cons] at hlen
  have hsmall : a.manager.handles.length + 1 < sizeBound := by
    have h1 : kMaxUsedMemSize + kVmmAlignSize < sizeBound := by decide
    have h2 : 0 < kVmmAlignSize := by decide
    have h3 := Nat.le_mul_of_pos_right a.manager.handles.length h2
    omega
  exact {
    aligned := hi.aligned
    base := hi.base
    mapped := hi.mapped
    places := (hi.places.cons _).trans hperm.symm
    sorted := OrdSet.sorted_emplace hi.sorted
    cached := hi.cached
    made := by
      intro h' hh'
      rcases OrdSet.mem_emplace hh' with rfl | hh'
      · exact ⟨_, Heap.get_new_self _ _⟩
      · obtain ⟨o, ho⟩ := hi.made h' hh'
        exact ⟨o, (Heap.get_new _ _ _).trans ((if_neg (Heap.ne_next ho)).trans ho)⟩
    addr := by
      intro k h' o hk ho
      obtain ⟨o', ho'⟩ := hi.made h' (hi.mem_handles ((hi.mapped k h').mpr hk))
      have hget : (a.manager.objects.new {}).get h' = a.manager.objects.get h' :=
        (Heap.get_new _ _ _).trans (if_neg (Heap.ne_next ho'))
      exact hi.addr k h' o hk (hget ▸ ho)
    size := by
      rw [hlen, hi.size]
      exact addSize_eq hsmall
    limit := hi.limit
    real := by
      rw [hlen, Nat.add_mul]
      omega
    bound := by
      rw [hlen, Nat.add_mul]
      omega }

/-- A handle that is taken is on its way; if there is none, nothing happens. -/
theorem takeHandle_spec (hi : Inv host maxSize [] a) {r : Option Nat}
    (h : a.takeHandle host maxSize = (r, a')) :
    a'.vmmMap = a.vmmMap ∧ a'.manager.baseAddr = a.manager.baseAddr ∧
      Inv host maxSize r.toList a' := by
  have hlt : a.manager.handles.length * kVmmAlignSize < sizeBound :=
    Nat.lt_of_lt_of_le hi.real (by decide)
  unfold takeHandle at h
  split at h
  · -- from the cache
    rename_i handle cached hcached
    cases h
    obtain ⟨_, hsorted⟩ := OrdSet.sorted_cons.mp (hcached ▸ hi.cached)
    refine ⟨rfl, rfl, { hi with places := ?_, cached := hsorted }⟩
    refine List.Perm.trans ?_ hi.places
    rw [hcached]
    show (handle :: (a.mappedHandles ++ cached)).Perm (a.mappedHandles ++ handle :: cached)
    exact List.perm_middle.symm
  · split at h
    · cases h
      exact ⟨rfl, rfl, hi⟩
    · rename_i hmax
      rw [hi.size, mulSize_eq hlt] at hmax
      split at h
      · rename_i m hm
        rcases getHandle_cases hm with ⟨_, rfl⟩ | ⟨hr, _⟩
        · cases h
          exact ⟨rfl, rfl, hi⟩
        · cases hr
      · rename_i handle m hm
        rcases getHandle_cases hm with ⟨hr, _⟩ | ⟨hr, hreal, rfl⟩
        · cases hr
        · cases hr
          cases h
          rw [hi.limit, show kDefaultMapSize = kVmmAlignSize from rfl, mulSize_eq hlt] at hreal
          exact ⟨rfl, rfl, hi.new (not_le.mp hmax) hreal⟩

/-- A segment ends at or before the next one. -/
theorem segment_end_le {k k' : Nat} (hk : k % kVmmAlignSize = 0) (hk' : k' % kVmmAlignSize = 0)
    (hlt : k < k') (hb : k' < sizeBound) :
    addSize k kVmmAlignSize = k + kVmmAlignSize ∧ k + kVmmAlignSize ≤ k' := by
  simp only [addSize, kVmmAlignSize, sizeBound] at *
  omega

/-- Mapped segments do not overlap, so the driver has nothing to complain
about. -/
theorem Inv.not_nearMapped {loose : List Nat} (hi : Inv host maxSize loose a)
    (hk : a.vmmMap.find? k = some none) : a.manager.nearMapped k = false := by
  have hseg : ∀ k' h', a.manager.mappedAddrs.find? k' = some h' →
      k' % kVmmAlignSize = 0 ∧ k' < sizeBound :=
    fun k' h' hk' => hi.aligned k' _ ((hi.mapped k' h').mpr hk')
  obtain ⟨hkal, hkb⟩ := hi.aligned k _ hk
  unfold VmmManager.nearMapped
  rw [show kDefaultMapSize = kVmmAlignSize from rfl]
  cases hup : a.manager.mappedAddrs.upper? k with
  | none => rfl
  | some e =>
      obtain ⟨up, hu⟩ := e
      obtain ⟨humem, hulo⟩ := OrdMap.upper?_eq_some hup
      obtain ⟨hual, hub⟩ := hseg up hu (OrdMap.find?_eq_some_iff.mpr humem)
      obtain ⟨heq, hle⟩ := segment_end_le hkal hual hulo hub
      have hnot : ¬ up < addSize k kVmmAlignSize := by omega
      simp only [hnot, decide_false, Bool.false_or]
      cases hlow : a.manager.mappedAddrs.floor? k with
      | none => rfl
      | some e =>
          obtain ⟨low, hl⟩ := e
          obtain ⟨hlmem, hlk, -⟩ := OrdMap.floor?_eq_some hlow
          have hlf := OrdMap.find?_eq_some_iff.mpr hlmem
          have hne : low ≠ k := by
            rintro rfl
            rw [(hi.mapped low hl).mpr hlf] at hk
            cases hk
          obtain ⟨heq', hle'⟩ :=
            segment_end_le (hseg low hl hlf).1 hkal (Nat.lt_of_le_of_ne hlk hne) hkb
          have hnot' : ¬ k < addSize low kVmmAlignSize := by omega
          simp only [hnot', decide_false]

/-- A handle on its way is mapped into a segment. -/
theorem Inv.bind (hi : Inv host maxSize [h] a) (hk : a.vmmMap.find? k = some none) :
    ∃ m, a.manager.map h k = some (true, m) ∧ m.baseAddr = a.manager.baseAddr ∧
      Inv host maxSize []
        { a with manager := m, vmmMap := a.vmmMap.modify k fun _ => some h } := by
  have hnone : a.manager.mappedAddrs.find? k = none := by
    cases hf : a.manager.mappedAddrs.find? k with
    | none => rfl
    | some h' =>
        rw [(hi.mapped k h').mpr hf] at hk
        cases hk
  have hmap : a.manager.map h k = some (true,
      { a.manager with
        objects := a.manager.objects.modify h (MemHandle.map k)
        mappedAddrs := a.manager.mappedAddrs.emplace k h }) := by
    simp only [VmmManager.map, hnone, Option.isSome_none, hi.not_nearMapped hk,
      Bool.false_eq_true, if_false]
  -- the handle is mapped nowhere else
  have hfree : ∀ k', a.vmmMap.find? k' ≠ some (some h) := by
    intro k' hk'
    have hnd := hi.nodup
    rw [List.singleton_append, List.nodup_cons] at hnd
    refine hnd.1 (List.mem_append_left _ ?_)
    exact List.mem_filterMap.mpr ⟨_, OrdMap.find?_eq_some_iff.mp hk', rfl⟩
  have hfind := OrdMap.find?_emplace_of_none h hnone
  refine ⟨_, hmap, rfl, ?_⟩
  exact {
    aligned := by
      intro k' v hv
      rw [OrdMap.find?_modify] at hv
      split at hv
      · rename_i heq
        exact hi.aligned k' _ (heq ▸ hk)
      · exact hi.aligned k' v hv
    base := hi.base
    mapped := by
      intro k' h'
      rw [OrdMap.find?_modify, hfind]
      split
      · rw [hk]
        simp
      · exact hi.mapped k' h'
    places := by
      refine List.Perm.trans ?_ hi.places
      exact (mappedHandles_bind hk h).append_right _
    sorted := hi.sorted
    cached := hi.cached
    made := by
      intro h' hh'
      obtain ⟨o, ho⟩ := hi.made h' hh'
      show ∃ o, (a.manager.objects.modify h (MemHandle.map k)).get h' = some o
      rw [Heap.get_modify]
      split
      · rename_i heq
        rw [← heq, ho]
        exact ⟨_, rfl⟩
      · exact ⟨o, ho⟩
    addr := by
      intro k' h' o hk' ho
      rw [hfind] at hk'
      change (a.manager.objects.modify h (MemHandle.map k)).get h' = some o at ho
      rw [Heap.get_modify] at ho
      split at hk'
      · rename_i heq
        cases hk'
        obtain ⟨o', ho'⟩ := hi.made h (hi.places.mem_iff.mp (by simp))
        rw [if_pos rfl, ho'] at ho
        cases ho
        exact heq.symm
      · have hne : h' ≠ h := by
          rintro rfl
          exact hfree k' ((hi.mapped k' h').mpr hk')
        rw [if_neg hne] at ho
        exact hi.addr k' h' o hk' ho
    size := hi.size
    limit := hi.limit
    real := hi.real
    bound := hi.bound }

/-- A mapped handle goes back to the cache. -/
theorem Inv.unbind (hi : Inv host maxSize [] a) (hk : a.vmmMap.find? k = some (some h)) :
    ∃ m, a.manager.unmap k = some (true, m) ∧ m.baseAddr = a.manager.baseAddr ∧
      Inv host maxSize []
        { a with
          manager := m
          vmmMap := a.vmmMap.modify k fun _ => none
          cachedHandleSets := OrdSet.emplace host h a.cachedHandleSets } := by
  have hm := (hi.mapped k h).mp hk
  obtain ⟨o, ho⟩ := hi.made h (hi.mem_handles hk)
  have haddr := hi.addr k h o hm ho
  have hunmap : a.manager.unmap k = some (true,
      { a.manager with
        objects := a.manager.objects.modify h MemHandle.unmap
        mappedAddrs := a.manager.mappedAddrs.erase k }) := by
    simp [VmmManager.unmap, hm, ho, haddr]
  have hcached : h ∉ a.cachedHandleSets := by
    intro hmem
    have hnd := hi.nodup
    rw [List.nil_append] at hnd
    refine (List.nodup_append.mp hnd).2.2 h ?_ h hmem rfl
    exact List.mem_filterMap.mpr ⟨_, OrdMap.find?_eq_some_iff.mp hk, rfl⟩
  have hother : ∀ k', k' ≠ k → a.vmmMap.find? k' ≠ some (some h) :=
    fun k' hne hk' => hne (hi.mapped_inj hk' hk ⟨o, ho⟩)
  refine ⟨_, hunmap, rfl, ?_⟩
  exact {
    aligned := by
      intro k' v hv
      rw [OrdMap.find?_modify] at hv
      split at hv
      · rename_i heq
        exact hi.aligned k' _ (heq ▸ hk)
      · exact hi.aligned k' v hv
    base := hi.base
    mapped := by
      intro k' h'
      rw [OrdMap.find?_modify, OrdMap.find?_erase]
      split
      · rw [hk]
        simp
      · exact hi.mapped k' h'
    places := by
      have hp : (OrdSet.emplace host h a.cachedHandleSets).Perm (h :: a.cachedHandleSets) :=
        OrdSet.perm_emplace fun y hy heq => hcached (host.injective heq ▸ hy)
      refine List.Perm.trans ?_ hi.places
      refine (hp.append_left _).trans ?_
      refine List.perm_middle.trans ?_
      exact ((mappedHandles_unbind hk).append_right a.cachedHandleSets).symm
    sorted := hi.sorted
    cached := OrdSet.sorted_emplace hi.cached
    made := by
      intro h' hh'
      obtain ⟨o', ho'⟩ := hi.made h' hh'
      show ∃ o, (a.manager.objects.modify h MemHandle.unmap).get h' = some o
      rw [Heap.get_modify]
      split
      · rw [ho]
        exact ⟨_, rfl⟩
      · exact ⟨o', ho'⟩
    addr := by
      intro k' h' o' hk' ho'
      rw [OrdMap.find?_erase] at hk'
      split at hk'
      · cases hk'
      · rename_i hne
        have hneh : h' ≠ h := by
          rintro rfl
          exact hother k' hne ((hi.mapped k' h').mpr hk')
        change (a.manager.objects.modify h MemHandle.unmap).get h' = some o' at ho'
        rw [Heap.get_modify, if_neg hneh] at ho'
        exact hi.addr k' h' o' hk' ho'
    size := hi.size
    limit := hi.limit
    real := hi.real
    bound := hi.bound }

/-! ## The loops -/

/-- `m'` has the segments of `m`, and more of them are mapped. -/
def Grown (m m' : OrdMap Nat (Option Nat)) : Prop :=
  ∀ k, m'.find? k = m.find? k ∨ (m.find? k = some none ∧ ∃ h, m'.find? k = some (some h))

theorem Grown.refl (m : OrdMap Nat (Option Nat)) : Grown m m := fun _ => .inl rfl

/-- What is mapped stays mapped. -/
theorem Grown.keeps {m m' : OrdMap Nat (Option Nat)} (hg : Grown m m')
    (hk : m.find? k = some (some h)) : m'.find? k = some (some h) := by
  rcases hg k with heq | ⟨hnone, _⟩
  · rw [heq, hk]
  · rw [hk] at hnone
    cases hnone

theorem Grown.trans {m m' m'' : OrdMap Nat (Option Nat)} (hg : Grown m m')
    (hg' : Grown m' m'') : Grown m m'' := by
  intro k
  rcases hg k with heq | ⟨hnone, h, hk⟩
  · rw [← heq]
    exact hg' k
  · exact .inr ⟨hnone, h, hg'.keeps hk⟩

theorem grown_bind {m : OrdMap Nat (Option Nat)} (hk : m.find? k = some none) (h : Nat) :
    Grown m (m.modify k fun _ => some h) := by
  intro k'
  rw [OrdMap.find?_modify]
  split
  · rename_i heq
    exact .inr ⟨heq ▸ hk, h, by rw [hk]; rfl⟩
  · exact .inl rfl

/-- Mapped segments can be unmapped one after the other, and `P` holds all along. -/
def Unbinds (host : Nat ↪ Nat) (P : VmmAdapter → Prop) : Prop :=
  ∀ ⦃a : VmmAdapter⦄ ⦃k h : Nat⦄, P a → a.vmmMap.find? k = some (some h) →
    ∃ m, a.manager.unmap k = some (true, m) ∧ P
      { a with
        manager := m
        vmmMap := a.vmmMap.modify k fun _ => none
        cachedHandleSets := OrdSet.emplace host h a.cachedHandleSets }

theorem unbinds_inv (host : Nat ↪ Nat) (maxSize base : Nat) :
    Unbinds host fun a => Inv host maxSize [] a ∧ a.manager.baseAddr = base := by
  rintro a k h ⟨hi, hbase⟩ hk
  obtain ⟨m, hm, hbase', hi'⟩ := hi.unbind hk
  exact ⟨m, hm, hi', hbase'.trans hbase⟩

theorem moveBack_spec {P : VmmAdapter → Prop} (hP : Unbinds host P) {es : List (Nat × Nat)}
    (hes : es.Pairwise fun x y => x.1 < y.1) :
    ∀ {a : VmmAdapter}, P a → (∀ e ∈ es, a.vmmMap.find? e.1 = some (some e.2)) →
      ∃ a', es.foldlM (moveBackOne host) a = some a' ∧ P a' ∧
        ∀ k, a'.vmmMap.find? k =
          if k ∈ es.map Prod.fst then some none else a.vmmMap.find? k := by
  induction es with
  | nil => exact fun {a} hi _ => ⟨a, rfl, hi, fun k => by simp⟩
  | cons e es ih =>
      intro a hi hmapped
      obtain ⟨hlt, hes'⟩ := List.pairwise_cons.mp hes
      have he := hmapped e (by simp)
      obtain ⟨m, hm, hi₁⟩ := hP hi he
      have hone : moveBackOne host a e = some { a with
          manager := m
          vmmMap := a.vmmMap.modify e.1 fun _ => none
          cachedHandleSets := OrdSet.emplace host e.2 a.cachedHandleSets } := by
        simp [moveBackOne, hm, he]
      obtain ⟨a', hfold, hi', hfind⟩ := ih hes' hi₁ fun d hd => by
        rw [OrdMap.find?_modify, if_neg (hlt d hd).ne']
        exact hmapped d (by simp [hd])
      refine ⟨a', ?_, hi', fun k => ?_⟩
      · rw [List.foldlM_cons, hone]
        exact hfold
      · rw [hfind, OrdMap.find?_modify, he]
        by_cases hk : k = e.1
        · simp [hk]
        · simp only [List.map_cons, List.mem_cons, hk, false_or, if_false]

/-- The loop of `MmapDeviceMem` from the state `a₀` it started in: what it has
mapped so far are the entries of `mapped`. -/
structure Mapping (a₀ : VmmAdapter) (iter : List (Nat × Option Nat)) (mapped : OrdMap Nat Nat)
    (a : VmmAdapter) : Prop where
  iterSorted : iter.Pairwise fun x y => x.1 < y.1
  ahead : ∀ e ∈ iter, a.vmmMap.find? e.1 = some e.2
  behind : ∀ e ∈ mapped.entries, ∀ d ∈ iter, e.1 < d.1
  done : ∀ e ∈ mapped.entries, a.vmmMap.find? e.1 = some (some e.2)
  before : ∀ e ∈ mapped.entries, a₀.vmmMap.find? e.1 = some none
  others : ∀ k, mapped.find? k = none → a.vmmMap.find? k = a₀.vmmMap.find? k

variable {a₀ : VmmAdapter} {iter : List (Nat × Option Nat)} {mapped : OrdMap Nat Nat}

theorem Mapping.grown (hm : Mapping a₀ iter mapped a) : Grown a₀.vmmMap a.vmmMap := by
  intro k
  cases hf : mapped.find? k with
  | none => exact .inl (hm.others k hf)
  | some h =>
      have hmem := OrdMap.find?_eq_some_iff.mp hf
      exact .inr ⟨hm.before _ hmem, h, hm.done _ hmem⟩

theorem Mapping.skip {e : Nat × Option Nat} (hm : Mapping a₀ (e :: iter) mapped a) :
    Mapping a₀ iter mapped a :=
  { hm with
    iterSorted := (List.pairwise_cons.mp hm.iterSorted).2
    ahead := fun d hd => hm.ahead d (by simp [hd])
    behind := fun d hd d' hd' => hm.behind d hd d' (by simp [hd']) }

theorem Mapping.congr (hm : Mapping a₀ iter mapped a) (hvmm : a'.vmmMap = a.vmmMap) :
    Mapping a₀ iter mapped a' :=
  { hm with
    ahead := fun d hd => hvmm ▸ hm.ahead d hd
    done := fun d hd => hvmm ▸ hm.done d hd
    others := fun k hk => hvmm ▸ hm.others k hk }

/-- What lies ahead has not been mapped yet. -/
theorem Mapping.fresh {v : Option Nat} (hm : Mapping a₀ ((k, v) :: iter) mapped a) :
    mapped.find? k = none := by
  refine OrdMap.find?_eq_none_iff.mpr fun w hw => ?_
  exact lt_irrefl _ (hm.behind _ hw (k, v) (by simp))

theorem Mapping.bind {m : VmmManager} (hm : Mapping a₀ ((k, none) :: iter) mapped a) (h : Nat) :
    Mapping a₀ iter (mapped.insert k h)
      { a with manager := m, vmmMap := a.vmmMap.modify k fun _ => some h } := by
  obtain ⟨hlt, hsorted⟩ := List.pairwise_cons.mp hm.iterSorted
  have hk : a.vmmMap.find? k = some none := hm.ahead (k, none) (by simp)
  have hmem : ∀ e ∈ (mapped.insert k h).entries, e = (k, h) ∨ (e ∈ mapped.entries ∧ e.1 ≠ k) :=
    fun e he => (OrdMap.mem_insertList_iff mapped.sorted).mp he
  have hnone := hm.fresh
  exact {
    iterSorted := hsorted
    ahead := by
      intro d hd
      rw [OrdMap.find?_modify, if_neg (hlt d hd).ne']
      exact hm.ahead d (by simp [hd])
    behind := by
      intro e he d hd
      rcases hmem e he with rfl | ⟨he, _⟩
      · exact hlt d hd
      · exact hm.behind e he d (by simp [hd])
    done := by
      intro e he
      rw [OrdMap.find?_modify]
      rcases hmem e he with rfl | ⟨he, hne⟩
      · rw [if_pos rfl, hk]
        rfl
      · rw [if_neg hne]
        exact hm.done e he
    before := by
      intro e he
      rcases hmem e he with rfl | ⟨he, _⟩
      · rw [← hm.others k hnone]
        exact hk
      · exact hm.before e he
    others := by
      intro k' hk'
      rw [OrdMap.find?_insert] at hk'
      split at hk'
      · cases hk'
      · rename_i hne
        rw [OrdMap.find?_modify, if_neg hne]
        exact hm.others k' hk' }

/-- Moving back what the loop has mapped undoes the loop. -/
theorem Mapping.moveBack {P : VmmAdapter → Prop} (hP : Unbinds host P)
    (hm : Mapping a₀ iter mapped a) (hi : P a) :
    ∃ a', moveBackMappedHandle host mapped a = some a' ∧ P a' ∧
      ∀ k, a'.vmmMap.find? k = a₀.vmmMap.find? k := by
  obtain ⟨a', h, hi', hfind⟩ := moveBack_spec hP mapped.sorted hi hm.done
  refine ⟨a', h, hi', fun k => ?_⟩
  rw [hfind]
  split
  · rename_i hk
    obtain ⟨e, he, rfl⟩ := List.mem_map.mp hk
    exact (hm.before e he).symm
  · rename_i hk
    refine hm.others k (OrdMap.find?_eq_none_iff.mpr fun v hv => hk ?_)
    exact List.mem_map.mpr ⟨_, hv, rfl⟩

/-- The loop returns, loses no handle, and unmaps nothing that was mapped. If it
succeeds, its segments are mapped. -/
theorem mmapLoop_spec (host : Nat ↪ Nat) (maxSize start n : Nat) :
    ∀ {i : Nat} {iter : List (Nat × Option Nat)} {mapped : OrdMap Nat Nat} {a : VmmAdapter},
      Inv host maxSize [] a → Mapping a₀ iter mapped a →
      ∃ ok a', mmapLoop host maxSize start n i iter mapped a = some (ok, a') ∧
        Inv host maxSize [] a' ∧ a'.manager.baseAddr = a.manager.baseAddr ∧
        Grown a₀.vmmMap a'.vmmMap ∧
        (ok = true → Grown a.vmmMap a'.vmmMap ∧ ∀ j, j < n →
          ∃ h, a'.vmmMap.find? (addSize start (mulSize (i + j) kVmmAlignSize)) =
            some (some h)) := by
  induction n with
  | zero =>
      intro i iter mapped a hi hm
      exact ⟨true, a, rfl, hi, rfl, hm.grown, fun _ => ⟨fun k => .inl rfl, fun j hj => by omega⟩⟩
  | succ n ih =>
      intro i iter mapped a hi hm
      cases iter with
      | nil => exact ⟨false, a, rfl, hi, rfl, hm.grown, fun h => by cases h⟩
      | cons e iter =>
          obtain ⟨key, value⟩ := e
          simp only [mmapLoop]
          by_cases hkey : key = addSize start (mulSize i kVmmAlignSize)
          · rw [if_neg (not_not.mpr hkey), ← hkey]
            have hhead : a.vmmMap.find? key = some value := hm.ahead (key, value) (by simp)
            -- the head of the loop and the turns after it
            have hturns : ∀ {a' : VmmAdapter} {h : Nat}, a'.vmmMap.find? key = some (some h) →
                (∀ j, j < n → ∃ h, a'.vmmMap.find?
                  (addSize start (mulSize (i + 1 + j) kVmmAlignSize)) = some (some h)) →
                ∀ j, j < n + 1 → ∃ h, a'.vmmMap.find?
                  (addSize start (mulSize (i + j) kVmmAlignSize)) = some (some h) := by
              intro a' h hk hrest j hj
              cases j with
              | zero => exact ⟨h, hkey ▸ hk⟩
              | succ j =>
                  rw [show i + (j + 1) = i + 1 + j by omega]
                  exact hrest j (by omega)
            cases value with
            | some h =>
                simp only [Option.isSome_some, if_true]
                obtain ⟨ok, a', hloop, hi', hbase, hg, hok⟩ := ih (i := i + 1) hi hm.skip
                refine ⟨ok, a', hloop, hi', hbase, hg, fun h1 => ?_⟩
                obtain ⟨hga, hrest⟩ := hok h1
                exact ⟨hga, hturns (hga.keeps hhead) hrest⟩
            | none =>
                simp only [Option.isSome_none, Bool.false_eq_true, if_false]
                cases htake : a.takeHandle host maxSize with
                | mk r a₁ =>
                    obtain ⟨hvmm, hbase₁, hi₁⟩ := takeHandle_spec hi htake
                    have hm₁ := hm.congr hvmm
                    cases r with
                    | none =>
                        obtain ⟨a', hback, ⟨hi', hbase'⟩, hfind⟩ :=
                          hm₁.moveBack (unbinds_inv host maxSize _) ⟨hi₁, rfl⟩
                        refine ⟨false, a', ?_, hi', hbase'.trans hbase₁,
                          fun k => .inl (hfind k), fun h => by cases h⟩
                        simp [hback]
                    | some h =>
                        have hhead₁ : a₁.vmmMap.find? key = some none := hvmm ▸ hhead
                        obtain ⟨m, hmap, hbase₂, hi₂⟩ := hi₁.bind hhead₁
                        obtain ⟨ok, a', hloop, hi', hbase', hg, hok⟩ :=
                          ih (i := i + 1) hi₂ (hm₁.bind h)
                        refine ⟨ok, a', ?_, hi', ?_, hg, fun h1 => ?_⟩
                        · simp only [hmap]
                          exact hloop
                        · exact hbase'.trans (hbase₂.trans hbase₁)
                        · obtain ⟨hga, hrest⟩ := hok h1
                          have hkept : a'.vmmMap.find? key = some (some h) := by
                            refine hga.keeps ?_
                            rw [OrdMap.find?_modify, if_pos rfl, hhead₁]
                            rfl
                          have hg₁ := (grown_bind hhead₁ h).trans hga
                          rw [hvmm] at hg₁
                          exact ⟨hg₁, hturns hkept hrest⟩
          · rw [if_pos hkey]
            exact ⟨false, a, rfl, hi, rfl, hm.grown, fun h => by cases h⟩

/-- The loop of `EagerFreeDeviceMem` returns. It unmaps only segments of `iter` that end
at or before `freeEnd`. -/
theorem eagerFreeLoop_spec {P : VmmAdapter → Prop} (hP : Unbinds host P) (freeEnd : Nat)
    {iter : List (Nat × Option Nat)} (hiter : iter.Pairwise fun x y => x.1 < y.1) :
    ∀ (start ret : Nat) {a : VmmAdapter}, P a →
      (∀ e ∈ iter, a.vmmMap.find? e.1 = some e.2) →
      ∃ r a', eagerFreeLoop host freeEnd iter start ret a = some (r, a') ∧ P a' ∧
        ∀ k, a'.vmmMap.find? k = a.vmmMap.find? k ∨
          (k ∈ iter.map Prod.fst ∧ addSize k kVmmAlignSize ≤ freeEnd ∧
            a'.vmmMap.find? k = some none) := by
  induction iter with
  | nil =>
      intro start ret a hi _
      simp only [eagerFreeLoop]
      split
      · exact ⟨_, a, rfl, hi, fun k => .inl rfl⟩
      · exact ⟨_, a, rfl, hi, fun k => .inl rfl⟩
  | cons e iter ih =>
      intro start ret a hi hahead
      obtain ⟨key, value⟩ := e
      obtain ⟨hlt, hiter'⟩ := List.pairwise_cons.mp hiter
      simp only [eagerFreeLoop]
      by_cases hend : freeEnd < addSize start kVmmAlignSize
      · rw [if_pos hend]
        exact ⟨_, a, rfl, hi, fun k => .inl rfl⟩
      rw [if_neg hend]
      by_cases hkey : key = start
      · subst hkey
        rw [if_neg (not_not.mpr rfl)]
        have hhead : a.vmmMap.find? key = some value := hahead (key, value) (by simp)
        cases value with
        | none =>
            obtain ⟨r, a', hloop, hi', hframe⟩ :=
              ih hiter' _ _ hi (fun d hd => hahead d (by simp [hd]))
            refine ⟨r, a', hloop, hi', fun k => ?_⟩
            exact (hframe k).imp id fun ⟨hk, hle, hnone⟩ => ⟨by simp [hk], hle, hnone⟩
        | some h =>
            obtain ⟨m, hm, hi₁⟩ := hP hi hhead
            obtain ⟨r, a', hloop, hi', hframe⟩ := ih hiter' _ _ hi₁ fun d hd => by
              rw [OrdMap.find?_modify, if_neg (hlt d hd).ne']
              exact hahead d (by simp [hd])
            refine ⟨r, a', ?_, hi', fun k => ?_⟩
            · simp only [hm]
              exact hloop
            · rcases hframe k with heq | ⟨hk, hle, hnone⟩
              · rw [OrdMap.find?_modify, hhead] at heq
                split at heq
                · rename_i hkk
                  exact .inr ⟨by simp [hkk], hkk ▸ not_lt.mp hend, heq⟩
                · exact .inl heq
              · exact .inr ⟨by simp [hk], hle, hnone⟩
      · rw [if_pos hkey]
        exact ⟨_, a, rfl, hi, fun k => .inl rfl⟩

theorem find?_reserveSegments (addr n : Nat) :
    ∀ (i : Nat) (m : OrdMap Nat (Option Nat)) (k : Nat),
      (reserveSegments addr n i m).find? k =
        if ∃ j < n, k = addSize addr (mulSize (i + j) kVmmAlignSize) then some none
        else m.find? k := by
  induction n with
  | zero =>
      intro i m k
      simp [reserveSegments]
  | succ n ih =>
      intro i m k
      rw [reserveSegments, ih, OrdMap.find?_insert]
      by_cases hrest : ∃ j < n, k = addSize addr (mulSize (i + 1 + j) kVmmAlignSize)
      · obtain ⟨j, hj, hk⟩ := hrest
        rw [if_pos ⟨j, hj, hk⟩, if_pos ⟨j + 1, by omega, by rw [hk]; congr 2; omega⟩]
      · rw [if_neg hrest]
        by_cases hk : k = addSize addr (mulSize i kVmmAlignSize)
        · rw [if_pos hk, if_pos ⟨0, by omega, hk⟩]
        · rw [if_neg hk, if_neg]
          rintro ⟨j, hj, hj'⟩
          cases j with
          | zero => exact hk hj'
          | succ j => exact hrest ⟨j, by omega, by rw [hj']; congr 2; omega⟩

/-- Reserving segments that are not mapped moves no handle. -/
theorem mappedHandles_reserveSegments (addr n : Nat) :
    ∀ (i : Nat) (m : OrdMap Nat (Option Nat)),
      (∀ j < n, ∀ h, m.find? (addSize addr (mulSize (i + j) kVmmAlignSize)) ≠ some (some h)) →
      ((reserveSegments addr n i m).entries.filterMap Prod.snd).Perm
        (m.entries.filterMap Prod.snd) := by
  induction n with
  | zero => exact fun i m _ => .refl _
  | succ n ih =>
      intro i m hfree
      have hhead := mappedHandles_reserve (hfree 0 (by omega))
      refine (ih (i + 1) _ fun j hj h => ?_).trans hhead
      rw [OrdMap.find?_insert]
      split
      · intro heq
        cases heq
      · have := hfree (j + 1) (by omega) h
        rwa [show i + (j + 1) = i + 1 + j by omega] at this

end VmmAdapter

end Ccbase.Memory

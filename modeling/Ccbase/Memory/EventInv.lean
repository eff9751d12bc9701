import Ccbase.Memory.Runs

/-!
# The invariant of buffers with events

A buffer with a pending event of a user stream is in one of the sets of that
stream, and a buffer that has been freed while it carried events still carries
one and is still the value of its address (`EventInv`). Every step of the arena
keeps this, including the ones that work on a buffer that has left the pool.
-/

namespace Ccbase.Memory

open Ccbase.Lib Relation

variable {δ : Type} {dev : Device δ}

namespace Arena

variable {vmm : Bool} {law : DeviceLaw dev} {A A' : Arena δ} {p q : Nat} {key : Nat × Nat}

/-! ## The sets -/

/-- `stream_pair_mem_bufs_[key]`, empty if the key is not there. -/
def set (A : Arena δ) (key : Nat × Nat) : List Nat := (A.pairs.lookup key).getD []

theorem set_congr (h : A'.pairs = A.pairs) : A'.set = A.set := by
  unfold set
  rw [h]

theorem set_erasePair (key : Nat × Nat) (p : Nat) (A : Arena δ) (key' : Nat × Nat) :
    (erasePair key p A).set key' = if key' = key then (A.set key).erase p else A.set key' := by
  unfold erasePair set
  cases hl : A.pairs.lookup key with
  | none =>
      by_cases hk : key' = key
      · subst hk
        simp [hl]
      · simp [hk]
  | some ps =>
      by_cases hk : key' = key
      · subst hk
        simp [AList.lookup_insert]
      · simp [hk, AList.lookup_insert_ne hk]

/-- Only the sets change. -/
theorem erasePair_eq (key : Nat × Nat) (p : Nat) (A : Arena δ) :
    ∃ ps, erasePair key p A = { A with pairs := ps } := by
  unfold erasePair
  split
  · exact ⟨A.pairs, rfl⟩
  · exact ⟨_, rfl⟩

theorem foldl_erasePair_eq (p : Nat) (keys : List (Nat × Nat)) :
    ∀ A : Arena δ, ∃ ps,
      keys.foldl (fun A key => erasePair key p A) A = { A with pairs := ps } := by
  induction keys with
  | nil => exact fun A => ⟨A.pairs, rfl⟩
  | cons key keys ih =>
      intro A
      obtain ⟨ps, hps⟩ := erasePair_eq key p A
      obtain ⟨ps', hps'⟩ := ih (erasePair key p A)
      exact ⟨ps', by rw [List.foldl_cons, hps', hps]⟩

theorem eraseAllPairs_eq (p : Nat) (A : Arena δ) :
    ∃ ps, eraseAllPairs p A = { A with pairs := ps } := foldl_erasePair_eq p _ A

theorem erase_sublist_foldl (p : Nat) (keys : List (Nat × Nat)) (key : Nat × Nat) :
    ∀ A : Arena δ,
      ((keys.foldl (fun A key => erasePair key p A) A).set key).Sublist (A.set key) := by
  induction keys with
  | nil => exact fun A => List.Sublist.refl _
  | cons key' keys ih =>
      intro A
      refine (ih (erasePair key' p A)).trans ?_
      rw [set_erasePair]
      split
      · rename_i heq
        rw [heq]
        exact List.erase_sublist
      · exact List.Sublist.refl _

theorem mem_set_foldl (p : Nat) (keys : List (Nat × Nat)) (r : Nat) (key : Nat × Nat) :
    ∀ A : Arena δ, (∀ key, (A.set key).Nodup) →
      (r ∈ (keys.foldl (fun A key => erasePair key p A) A).set key ↔
        r ∈ A.set key ∧ ¬ (r = p ∧ key ∈ keys)) := by
  induction keys with
  | nil => simp
  | cons key' keys ih =>
      intro A hnd
      have hnd' : ∀ key, ((erasePair key' p A).set key).Nodup := by
        intro key
        rw [set_erasePair]
        split
        · exact (hnd key').erase p
        · exact hnd key
      rw [List.foldl_cons, ih _ hnd', set_erasePair]
      by_cases hk : key = key'
      · subst hk
        rw [if_pos rfl, (hnd key).mem_erase_iff]
        simp only [List.mem_cons, true_or, and_true]
        constructor
        · rintro ⟨⟨hne, hr⟩, _⟩
          exact ⟨hr, hne⟩
        · rintro ⟨hr, hne⟩
          exact ⟨⟨hne, hr⟩, fun h => hne h.1⟩
      · rw [if_neg hk]
        simp [hk]

/-- The buffer `p` has left all sets, and nothing else has. -/
theorem mem_set_eraseAllPairs (hnd : ∀ key, (A.set key).Nodup) (p r : Nat) (key : Nat × Nat) :
    r ∈ (eraseAllPairs p A).set key ↔ r ∈ A.set key ∧ r ≠ p := by
  unfold eraseAllPairs
  rw [mem_set_foldl p _ r key A hnd]
  constructor
  · rintro ⟨hr, hnot⟩
    refine ⟨hr, fun hrp => hnot ⟨hrp, ?_⟩⟩
    -- a key without an entry has no members
    by_contra hkey
    have hnone : A.pairs.lookup key = none := AList.lookup_eq_none.mpr hkey
    unfold set at hr
    rw [hnone] at hr
    cases hr
  · exact fun ⟨hr, hne⟩ => ⟨hr, fun h => hne h.1⟩

/-! ## Taking a buffer back -/

/-- What taking back the buffer `q` leaves alone. -/
structure ReleaseFrame (addr q : Nat) (A A' : Arena δ) : Prop where
  pairs : A'.pairs = A.pairs
  live : A'.live = A.live.erase addr
  usedByEvent : A'.env.memStat.usedByEventSize = A.env.memStat.usedByEventSize
  other : ∀ r d, r ≠ q → ¬ d.status.isFree →
    (A'.bufs.get r = some d ↔ A.bufs.get r = some d)
  self : ∀ d, A'.bufs.get q = some d → d.status.isFree

theorem Release.frame {addr : Nat} {k : AllocatorKey} (hl : A.live.lookup addr = some (q, k))
    (h : Release addr A A') : ReleaseFrame addr q A A' := by
  cases h with
  | @mk p k' d D hl' hp hquiet hD =>
      rw [hl] at hl'
      cases hl'
      have hwork := FreeWork.merges hD
      refine ⟨rfl, rfl, rfl, ?_, ?_⟩
      · intro r d' hr hst
        refine (hwork.live_iff hst).trans ?_
        rw [Heap.get_modify_ne _ _ hr]
      · intro d' hd'
        rcases hwork.back q d' hd' with hd' | ⟨hfree, _⟩
        · rw [Heap.get_modify_self, hp] at hd'
          cases hd'
          exact .inl rfl
        · exact hfree

/-- A buffer without events that the map knows is really taken back. -/
theorem FreeStep.release_of {addr : Nat} {k : AllocatorKey} {d : BufData} {ok : Bool}
    (h : FreeStep addr A ok A') (hl : A.live.lookup addr = some (q, k))
    (hq : A.bufs.get q = some d) (hquiet : d.isEventNotUsed = true) : Release addr A A' := by
  cases h with
  | absent hnone =>
      rw [hl] at hnone
      cases hnone
  | release hr => exact hr
  | retain hr =>
      cases hr with
      | mk hl' hp hused =>
          rw [hl] at hl'
          cases hl'
          rw [hq] at hp
          cases hp
          rw [hquiet] at hused
          cases hused

/-! ## The invariant -/

/-- What holds of buffers with events in every state. -/
structure EventInv (law : DeviceLaw dev) (vmm : Bool) (A : Arena δ) : Prop
    extends Base law vmm 0 A where
  wf : ∀ p d, A.bufs.get p = some d → d.toEventBase.WellFormed
  sorted : ∀ key, OrdSet.Sorted dev.bufAddress (A.set key)
  member : ∀ p d u, A.bufs.get p = some d → d.pending u ≠ [] → ∃ m, p ∈ A.set (u, m)
  registered : ∀ p d, A.bufs.get p = some d → d.isEventNotUsed = false →
    ∃ k, A.live.lookup d.addr = some (p, k)
  waiting : ∀ p d, A.bufs.get p = some d → d.status = .usedByEvent → d.isEventNotUsed = false

theorem nodup_of_sorted {ps : List Nat} (h : OrdSet.Sorted dev.bufAddress ps) : ps.Nodup :=
  h.imp fun hlt heq => by
    subst heq
    exact Nat.lt_irrefl _ hlt

theorem EventInv.nodup (h : EventInv law vmm A) (key : Nat × Nat) : (A.set key).Nodup :=
  nodup_of_sorted (h.sorted key)

/-- Free buffers carry no events, so the invariant is about buffers in use. -/
theorem EventInv.of_inUse (hb : Base law vmm 0 A)
    (hsorted : ∀ key, OrdSet.Sorted dev.bufAddress (A.set key))
    (hwf : ∀ p d, A.bufs.get p = some d → ¬ d.status.isFree → d.toEventBase.WellFormed)
    (hmem : ∀ p d u, A.bufs.get p = some d → ¬ d.status.isFree → d.pending u ≠ [] →
      ∃ m, p ∈ A.set (u, m))
    (hreg : ∀ p d, A.bufs.get p = some d → ¬ d.status.isFree → d.isEventNotUsed = false →
      ∃ k, A.live.lookup d.addr = some (p, k))
    (hwait : ∀ p d, A.bufs.get p = some d → ¬ d.status.isFree → d.status = .usedByEvent →
      d.isEventNotUsed = false) : EventInv law vmm A := by
  refine ⟨hb, ?_, hsorted, ?_, ?_, ?_⟩
  · intro p d hd
    by_cases hst : d.status.isFree
    · exact EventBase.wellFormed_of_isEventNotUsed (hb.quiet p d hd (Nat.zero_le _) hst)
    · exact hwf p d hd hst
  · intro p d u hd hu
    by_cases hst : d.status.isFree
    · have hq := hb.quiet p d hd (Nat.zero_le _) hst
      exact absurd (EventBase.pending_of_isEventNotUsed hq u) hu
    · exact hmem p d u hd hst hu
  · intro p d hd hused
    by_cases hst : d.status.isFree
    · rw [hb.quiet p d hd (Nat.zero_le _) hst] at hused
      cases hused
    · exact hreg p d hd hst hused
  · intro p d hd hst
    exact hwait p d hd (by rw [hst]; exact not_isFree_usedByEvent) hst

theorem EventInv.path (h : EventInv law vmm A) (hs : ReflTransGen (Background dev vmm) A A') :
    EventInv law vmm A' := by
  have hc := Calm.of_path hs
  have hset := set_congr hc.pairs
  refine .of_inUse (h.toBase.path hs) ?_ ?_ ?_ ?_ ?_
  · rw [hset]
    exact h.sorted
  · exact fun p d hd hst => h.wf p d ((hc.live_iff p d hst).mp hd)
  · rw [hset]
    exact fun p d u hd hst => h.member p d u ((hc.live_iff p d hst).mp hd)
  · rw [hc.live]
    exact fun p d hd hst => h.registered p d ((hc.live_iff p d hst).mp hd)
  · exact fun p d hd hst => h.waiting p d ((hc.live_iff p d hst).mp hd)

theorem EventInv.release {addr : Nat} (h : EventInv law vmm A) (hr : Release addr A A') :
    EventInv law vmm A' := by
  have hb := h.toBase.release hr
  have hreg : ∃ v, A.live.lookup addr = some v := by
    cases hr with
    | mk hl _ _ _ => exact ⟨_, hl⟩
  obtain ⟨⟨q, k⟩, hl⟩ := hreg
  have hf := hr.frame hl
  have hback : ∀ p d, A'.bufs.get p = some d → ¬ d.status.isFree →
      p ≠ q ∧ A.bufs.get p = some d := by
    intro p d hd hst
    have hpq : p ≠ q := fun heq => hst (hf.self d (heq ▸ hd))
    exact ⟨hpq, (hf.other p d hpq hst).mp hd⟩
  have hset := set_congr hf.pairs
  refine .of_inUse hb ?_ ?_ ?_ ?_ ?_
  · rw [hset]
    exact h.sorted
  · exact fun p d hd hst => h.wf p d (hback p d hd hst).2
  · rw [hset]
    exact fun p d u hd hst => h.member p d u (hback p d hd hst).2
  · intro p d hd hst hused
    obtain ⟨hpq, hp⟩ := hback p d hd hst
    obtain ⟨k', hl'⟩ := h.registered p d hp hused
    refine ⟨k', ?_⟩
    rw [hf.live, AList.lookup_erase_ne]
    · exact hl'
    · intro heq
      rw [heq, hl] at hl'
      cases hl'
      exact hpq rfl
  · exact fun p d hd hst => h.waiting p d (hback p d hd hst).2

theorem EventInv.retain {addr : Nat} (h : EventInv law vmm A) (hr : Retain addr A A') :
    EventInv law vmm A' := by
  have hb := h.toBase.retain hr
  cases hr with
  | @mk q k d hl hq hused =>
      have hget : ∀ p x, (A.bufs.modify q fun y => { y with status := .usedByEvent }).get p =
          some x → ∃ x₀, A.bufs.get p = some x₀ ∧ x.toEventBase = x₀.toEventBase ∧
          x.addr = x₀.addr ∧ (p ≠ q → x.status = x₀.status) := by
        intro p x hx
        rw [Heap.get_modify] at hx
        split at hx
        · rename_i hpq
          rw [hq] at hx
          cases hx
          exact ⟨d, hpq ▸ hq, rfl, rfl, fun hne => absurd hpq hne⟩
        · exact ⟨x, hx, rfl, rfl, fun _ => rfl⟩
      refine .of_inUse hb h.sorted ?_ ?_ ?_ ?_
      · intro p x hx _
        obtain ⟨x₀, hx₀, hev, _⟩ := hget p x hx
        rw [hev]
        exact h.wf p x₀ hx₀
      · intro p x u hx _ hu
        obtain ⟨x₀, hx₀, hev, _⟩ := hget p x hx
        rw [hev] at hu
        exact h.member p x₀ u hx₀ hu
      · intro p x hx _ hused
        obtain ⟨x₀, hx₀, hev, haddr, _⟩ := hget p x hx
        rw [hev] at hused
        rw [haddr]
        exact h.registered p x₀ hx₀ hused
      · intro p x hx _ hst
        obtain ⟨x₀, hx₀, hev, _, hstat⟩ := hget p x hx
        rw [hev]
        by_cases hpq : p = q
        · subst hpq
          rw [hq] at hx₀
          cases hx₀
          exact hused
        · rw [hstat hpq] at hst
          exact h.waiting p x₀ hx₀ hst

theorem EventInv.free {addr : Nat} {ok : Bool} (h : EventInv law vmm A)
    (hf : FreeStep addr A ok A') : EventInv law vmm A' := by
  cases hf with
  | absent _ => exact h
  | release hr => exact h.release hr
  | retain hr => exact h.retain hr

theorem EventInv.hand {size p : Nat} {k : AllocatorKey} (h : EventInv law vmm A)
    (hh : Hand dev size p k A A') : EventInv law vmm A' := by
  obtain ⟨d₀, hf⟩ := hh.frame
  have hquiet := h.quiet p d₀ hf.free.1 (Nat.zero_le _) hf.free.2
  have hset := set_congr hf.pairs
  refine .of_inUse (h.toBase.hand hh) ?_ ?_ ?_ ?_ ?_
  · rw [hset]
    exact h.sorted
  · intro q d hd _
    rcases hf.get_back hd with ⟨_, rfl⟩ | ⟨_, hd⟩
    · exact EventBase.wellFormed_of_isEventNotUsed hquiet
    · exact h.wf q d hd
  · intro q d u hd _ hu
    rw [hset]
    rcases hf.get_back hd with ⟨_, rfl⟩ | ⟨_, hd⟩
    · exact absurd (EventBase.pending_of_isEventNotUsed hquiet u) hu
    · exact h.member q d u hd hu
  · intro q d hd _ hused
    rcases hf.get_back hd with ⟨_, rfl⟩ | ⟨_, hd⟩
    · rw [show d₀.isEventNotUsed = false from hused] at hquiet
      cases hquiet
    · obtain ⟨k', hl⟩ := h.registered q d hd hused
      refine ⟨k', ?_⟩
      rw [hf.live]
      split
      · exact hl
      · rename_i hnone
        rw [AList.lookup_insert_ne]
        · exact hl
        · intro heq
          rw [← heq, hl] at hnone
          exact hnone rfl
  · intro q d hd _ hst
    rcases hf.get_back hd with ⟨_, rfl⟩ | ⟨_, hd⟩
    · cases hst
    · exact h.waiting q d hd hst

/-- A freed buffer with events is the value of its address. -/
theorem EventInv.waits (h : EventInv law vmm A) {d : BufData} (hq : A.bufs.get q = some d)
    (hst : d.status = .usedByEvent) : ∃ k, A.live.lookup d.addr = some (q, k) :=
  h.registered q d hq (h.waiting q d hq hst)

/-! ## Waiting -/

theorem EventInv.base_setEvents (h : EventInv law vmm A) {d : BufData} {e : EventBase}
    (hq : A.bufs.get q = some d) (he : d.status.isFree → e.isEventNotUsed = true) :
    Base law vmm 0 (A.setEvents q e) :=
  h.toBase.write (f := fun d => { d with toEventBase := e }) hq rfl rfl he A.live
    (fun a v hv => ⟨hv, fun hf heq => by
      obtain ⟨r, k⟩ := v
      obtain ⟨x, hx, _, hst, _⟩ := h.live _ _ _ hv
      cases heq
      rw [hq] at hx
      cases hx
      exact hst hf⟩) A.env fun _ _ h => h

theorem get_setEvents {d : BufData} (hq : A.bufs.get q = some d) (e : EventBase) :
    (A.setEvents q e).bufs.get q = some { d with toEventBase := e } := by
  show (A.bufs.modify q _).get q = _
  rw [Heap.get_modify_self, hq]
  rfl

theorem get_setEvents_ne {r : Nat} (hr : r ≠ q) (e : EventBase) :
    (A.setEvents q e).bufs.get r = A.bufs.get r := Heap.get_modify_ne _ _ hr

/-- What a turn of a wait loop on `q` leaves alone. -/
structure WaitFrame (law : DeviceLaw dev) (vmm : Bool) (q : Nat) (A A' : Arena δ) : Prop where
  base : Base law vmm 0 A'
  sorted : ∀ key, OrdSet.Sorted dev.bufAddress (A'.set key)
  other : ∀ r x, r ≠ q → ¬ x.status.isFree →
    (A'.bufs.get r = some x ↔ A.bufs.get r = some x)
  live : ∀ a r k, r ≠ q → (A'.live.lookup a = some (r, k) ↔ A.live.lookup a = some (r, k))
  set : ∀ key r, r ≠ q → (r ∈ A'.set key ↔ r ∈ A.set key)

/-- What a turn of a wait loop does to `q` itself, whose events become `e`. -/
inductive WaitSelf (key : Nat × Nat) (q : Nat) (d : BufData) (e : EventBase) (A A' : Arena δ) :
    Prop where
  | keep (hused : e.isEventNotUsed = false)
      (hget : A'.bufs.get q = some { d with toEventBase := e })
      (hset : ∀ key', q ∈ A'.set key' ↔ q ∈ A.set key') (hlive : A'.live = A.live)
      (hstat : A'.env.memStat.usedByEventSize = A.env.memStat.usedByEventSize)
  | drop (hquiet : e.isEventNotUsed = true) (hst : d.status ≠ .usedByEvent)
      (hget : A'.bufs.get q = some { d with toEventBase := e })
      (hset : ∀ key', q ∈ A'.set key' ↔ q ∈ A.set key' ∧ key' ≠ key) (hlive : A'.live = A.live)
      (hstat : A'.env.memStat.usedByEventSize = subSize A.env.memStat.usedByEventSize d.size)
  | free (hquiet : e.isEventNotUsed = true) (hst : d.status = .usedByEvent)
      (hfree : ∀ x, A'.bufs.get q = some x → x.status.isFree) (hset : ∀ key', q ∉ A'.set key')
      (hstat : A'.env.memStat.usedByEventSize = subSize A.env.memStat.usedByEventSize d.size)

/-- The arena of a wait loop before the buffer may be freed: the events of `q`
are `e` and `q` has left some sets. -/
def dropped (key : Nat × Nat) (q n : Nat) (e : EventBase) (A : Arena δ) : Arena δ :=
  subUsedByEvent n (erasePair key q (A.setEvents q e))

theorem dropped_eq (key : Nat × Nat) (q n : Nat) (e : EventBase) (A : Arena δ) :
    ∃ ps, dropped key q n e A = { A.setEvents q e with
      pairs := ps
      env := { A.env with memStat := { A.env.memStat with
        usedByEventSize := subSize A.env.memStat.usedByEventSize n } } } := by
  obtain ⟨ps, hps⟩ := erasePair_eq key q (A.setEvents q e)
  refine ⟨ps, ?_⟩
  unfold dropped
  rw [hps]
  rfl

theorem set_dropped (key : Nat × Nat) (q n : Nat) (e : EventBase) (A : Arena δ)
    (key' : Nat × Nat) :
    (dropped key q n e A).set key' = if key' = key then (A.set key).erase q else A.set key' :=
  set_erasePair key q (A.setEvents q e) key'

theorem EventInv.mem_set_dropped (h : EventInv law vmm A) (key : Nat × Nat) (q n : Nat)
    (e : EventBase) (key' : Nat × Nat) (r : Nat) :
    r ∈ (dropped key q n e A).set key' ↔ r ∈ A.set key' ∧ ¬ (key' = key ∧ r = q) := by
  rw [set_dropped]
  by_cases hk : key' = key
  · subst hk
    rw [if_pos rfl, (h.nodup key').mem_erase_iff]
    simp only [true_and]
    exact and_comm
  · rw [if_neg hk]
    simp [hk]

theorem EventInv.sorted_dropped (h : EventInv law vmm A) (key : Nat × Nat) (q n : Nat)
    (e : EventBase) (key' : Nat × Nat) :
    OrdSet.Sorted dev.bufAddress ((dropped key q n e A).set key') := by
  rw [set_dropped]
  split
  · exact (h.sorted key).sublist List.erase_sublist
  · exact h.sorted key'

/-- Events of a free buffer are none, before and after a wait. -/
theorem EventInv.quiet_wait (h : EventInv law vmm A) {d : BufData} (hq : A.bufs.get q = some d)
    (n u : Nat) (hst : d.status.isFree) :
    (d.toEventBase.waitEvent n u).2.isEventNotUsed = true := by
  have hquiet := h.quiet q d hq (Nat.zero_le _) hst
  rw [EventBase.waitEvent_of_isEventNotUsed hquiet]
  exact hquiet

theorem WaitStep.frame {taskId : Int} (h : EventInv law vmm A)
    (hs : WaitStep taskId key q A A') : WaitFrame law vmm q A A' ∧
      ∀ d, A.bufs.get q = some d →
        WaitSelf key q d (d.toEventBase.waitEvent (Pool.toUInt32 taskId) key.1).2 A A' := by
  cases hs with
  | gone hnone =>
      refine ⟨⟨h.toBase, h.sorted, fun _ _ _ _ => Iff.rfl, fun _ _ _ _ => Iff.rfl,
        fun _ _ _ => Iff.rfl⟩, fun d hd => ?_⟩
      rw [hnone] at hd
      cases hd
  -- events are left: the buffer stays where it is
  | @keep d e hq he hused =>
      have hb : Base law vmm 0 (A.setEvents q e) := h.base_setEvents hq fun hst => by
        rw [← he]
        exact h.quiet_wait hq _ _ hst
      refine ⟨⟨hb, h.sorted, ?_, fun _ _ _ _ => Iff.rfl, fun _ _ _ => Iff.rfl⟩, ?_⟩
      · intro r x hr _
        rw [get_setEvents_ne hr]
      · intro d' hd'
        rw [hq] at hd'
        cases hd'
        rw [he]
        exact .keep hused (get_setEvents hq e) (fun _ => Iff.rfl) rfl rfl
  -- it has none, but it is in use: it leaves the set of its pair
  | @drop d e hq he hquiet hst =>
      obtain ⟨ps, hps⟩ := dropped_eq key q d.size e A
      have hb : Base law vmm 0 (dropped key q d.size e A) := by
        rw [hps]
        exact ((h.base_setEvents hq fun _ => hquiet).pairs ps).stat _
      have hbufs : (dropped key q d.size e A).bufs = (A.setEvents q e).bufs := by rw [hps]
      have hlive : (dropped key q d.size e A).live = A.live := by
        rw [hps]
        rfl
      refine ⟨⟨hb, h.sorted_dropped key q d.size e, ?_, ?_, ?_⟩, ?_⟩
      · intro r x hr _
        show (dropped key q d.size e A).bufs.get r = _ ↔ _
        rw [hbufs, get_setEvents_ne hr]
      · intro a r k _
        show (dropped key q d.size e A).live.lookup a = _ ↔ _
        rw [hlive]
      · intro key' r hr
        exact (h.mem_set_dropped key q d.size e key' r).trans (by simp [hr])
      · intro d' hd'
        rw [hq] at hd'
        cases hd'
        rw [he]
        refine .drop hquiet hst ?_ ?_ hlive ?_
        · show (dropped key q d.size e A).bufs.get q = _
          rw [hbufs]
          exact get_setEvents hq e
        · intro key'
          exact (h.mem_set_dropped key q d.size e key' q).trans (by simp)
        · show (dropped key q d.size e A).env.memStat.usedByEventSize = _
          rw [hps]
  -- it was waiting to be freed: it leaves every set, and then it is freed
  | @free d e ok _ hq he hquiet hst hf =>
      obtain ⟨ps, hps⟩ := dropped_eq key q d.size e A
      obtain ⟨ps', hps'⟩ := eraseAllPairs_eq q (dropped key q d.size e A)
      have hb : Base law vmm 0 (eraseAllPairs q (dropped key q d.size e A)) := by
        rw [hps', hps]
        exact (((h.base_setEvents hq fun _ => hquiet).pairs ps).stat _).pairs ps'
      have hbufs : (eraseAllPairs q (dropped key q d.size e A)).bufs = (A.setEvents q e).bufs := by
        rw [hps', hps]
      have hlive : (eraseAllPairs q (dropped key q d.size e A)).live = A.live := by
        rw [hps', hps]
        rfl
      have hstat : (eraseAllPairs q (dropped key q d.size e A)).env.memStat.usedByEventSize =
          subSize A.env.memStat.usedByEventSize d.size := by
        rw [hps', hps]
      have hset : ∀ key' r, r ∈ (eraseAllPairs q (dropped key q d.size e A)).set key' ↔
          r ∈ A.set key' ∧ r ≠ q := by
        intro key' r
        rw [mem_set_eraseAllPairs (fun k => nodup_of_sorted (h.sorted_dropped key q d.size e k)),
          h.mem_set_dropped key q d.size e key' r]
        constructor
        · exact fun hr => ⟨hr.1.1, hr.2⟩
        · exact fun hr => ⟨⟨hr.1, fun heq => hr.2 heq.2⟩, hr.2⟩
      have hsorted : ∀ key', OrdSet.Sorted dev.bufAddress
          ((eraseAllPairs q (dropped key q d.size e A)).set key') := fun key' =>
        (h.sorted_dropped key q d.size e key').sublist (erase_sublist_foldl q _ key' _)
      -- so far the address map still has it
      obtain ⟨k, hl⟩ := h.waits hq hst
      have hf : FreeStep d.addr (eraseAllPairs q (dropped key q d.size e A)) ok A' := hf
      generalize eraseAllPairs q (dropped key q d.size e A) = B at *
      have hr := hf.release_of (q := q) (k := k) (by rw [hlive]; exact hl)
        (by rw [hbufs]; exact get_setEvents hq e) hquiet
      have hfr := hr.frame (q := q) (k := k) (by rw [hlive]; exact hl)
      have hset' := set_congr hfr.pairs
      refine ⟨⟨hb.release hr, by rw [hset']; exact hsorted, ?_, ?_, ?_⟩, ?_⟩
      · intro r x hne hx
        rw [hfr.other r x hne hx, hbufs, get_setEvents_ne hne]
      · intro a r k' hne
        rw [hfr.live, hlive]
        by_cases ha : a = d.addr
        · subst ha
          rw [AList.lookup_erase, hl]
          simp [hne.symm]
        · rw [AList.lookup_erase_ne ha]
      · intro key' r hne
        rw [hset', hset]
        simp [hne]
      · intro d' hd'
        rw [hq] at hd'
        cases hd'
        rw [he]
        refine .free hquiet hst hfr.self ?_ (hfr.usedByEvent.trans hstat)
        intro key'
        rw [hset', hset]
        simp

theorem EventInv.waitStep {taskId : Int} (h : EventInv law vmm A)
    (hs : WaitStep taskId key q A A') : EventInv law vmm A' := by
  cases hq : A.bufs.get q with
  | none =>
      cases hs with
      | gone _ => exact h
      | keep hp _ _ => rw [hq] at hp; cases hp
      | drop hp _ _ _ => rw [hq] at hp; cases hp
      | free hp _ _ _ _ => rw [hq] at hp; cases hp
  | some d =>
      obtain ⟨hf, hself⟩ := hs.frame h
      have hself := hself d hq
      have hwf := EventBase.waitEvent_wellFormed (h.wf q d hq) (Pool.toUInt32 taskId) key.1
      have hpend := EventBase.pending_waitEvent d.toEventBase (Pool.toUInt32 taskId) key.1
      generalize (d.toEventBase.waitEvent (Pool.toUInt32 taskId) key.1).2 = e at hself hwf hpend
      -- a buffer in use is `q` with what the wait has left of its events, or as before
      have hcase : ∀ p x, A'.bufs.get p = some x → ¬ x.status.isFree →
          (p ≠ q ∧ A.bufs.get p = some x) ∨ (p = q ∧ x = { d with toEventBase := e }) := by
        intro p x hx hst
        by_cases hpq : p = q
        · subst hpq
          refine .inr ⟨rfl, ?_⟩
          cases hself with
          | keep _ hget _ _ _ => rw [hget] at hx; cases hx; rfl
          | drop _ _ hget _ _ _ => rw [hget] at hx; cases hx; rfl
          | free _ _ hfree _ _ => exact absurd (hfree x hx) hst
        · exact .inl ⟨hpq, (hf.other p x hpq hst).mp hx⟩
      refine .of_inUse hf.base hf.sorted ?_ ?_ ?_ ?_
      · intro p x hx hst
        rcases hcase p x hx hst with ⟨_, hx⟩ | ⟨_, rfl⟩
        · exact h.wf p x hx
        · exact hwf
      · intro p x u hx hst hu
        rcases hcase p x hx hst with ⟨hpq, hx⟩ | ⟨rfl, rfl⟩
        · obtain ⟨m, hm⟩ := h.member p x u hx hu
          exact ⟨m, (hf.set _ p hpq).mpr hm⟩
        · have hu : e.pending u ≠ [] := hu
          cases hself with
          -- what is pending now was pending before
          | keep _ _ hset _ _ =>
              have hold : d.pending u ≠ [] := by
                intro hnil
                rw [hpend] at hu
                split at hu
                · rename_i heq
                  rw [← heq, hnil] at hu
                  exact hu rfl
                · exact hu hnil
              obtain ⟨m, hm⟩ := h.member p d u hq hold
              exact ⟨m, (hset _).mpr hm⟩
          | drop hquiet _ _ _ _ _ =>
              exact absurd (EventBase.pending_of_isEventNotUsed hquiet u) hu
          | free hquiet _ _ _ _ => exact absurd (EventBase.pending_of_isEventNotUsed hquiet u) hu
      · intro p x hx hst hused
        rcases hcase p x hx hst with ⟨hpq, hx⟩ | ⟨rfl, rfl⟩
        · obtain ⟨k, hl⟩ := h.registered p x hx hused
          exact ⟨k, (hf.live _ p k hpq).mpr hl⟩
        · have hused : e.isEventNotUsed = false := hused
          cases hself with
          | keep _ _ _ hlive _ =>
              have hold : d.isEventNotUsed = false := by
                cases hd : d.isEventNotUsed with
                | false => rfl
                | true =>
                    obtain ⟨u, hu⟩ := EventBase.exists_pending hwf hused
                    rw [hpend] at hu
                    have hnil := EventBase.pending_of_isEventNotUsed hd
                    simp [hnil] at hu
              obtain ⟨k, hl⟩ := h.registered p d hq hold
              exact ⟨k, by rw [hlive]; exact hl⟩
          | drop hquiet _ _ _ _ _ =>
              rw [hquiet] at hused
              cases hused
          | free hquiet _ _ _ _ =>
              rw [hquiet] at hused
              cases hused
      · intro p x hx hlive hst
        rcases hcase p x hx hlive with ⟨hpq, hx⟩ | ⟨rfl, rfl⟩
        · exact h.waiting p x hx hst
        · cases hself with
          | keep hused _ _ _ _ => exact hused
          | drop _ hne _ _ _ _ => exact absurd hst hne
          | free _ _ hfree _ _ => exact absurd (hfree _ hx) hlive

/-- What every single step keeps is kept by the whole loop. -/
theorem Chained.inv {α : Type} {step : α → Arena δ → Arena δ → Prop} {xs : List α}
    {I : Arena δ → Prop} (hc : Chained step xs A A') (h : I A)
    (hstep : ∀ x ∈ xs, ∀ A A', I A → step x A A' → I A') : I A' := by
  induction hc with
  | nil A => exact h
  | cons hx _ ih =>
      exact ih (hstep _ (List.mem_cons_self ..) _ _ h hx)
        fun y hy => hstep y (List.mem_cons_of_mem _ hy)

theorem EventInv.waitPair {taskId : Int} (h : EventInv law vmm A)
    (hs : WaitPair taskId key A A') : EventInv law vmm A' :=
  Chained.inv hs h fun _ _ _ _ h hs => h.waitStep hs

/-! ## Recording -/

/-- What recording an event does. -/
inductive Recorded (taskId : Int) (user : Nat) (event : DeviceEvent) (mem addr : Nat)
    (A A' : Arena δ) : Prop where
  | absent (hl : A.live.lookup addr = none) (hA : A' = A)
  | record {p : Nat} {k : AllocatorKey} {d : BufData} (hl : A.live.lookup addr = some (p, k))
      (hp : A.bufs.get p = some d) (hst : ¬ d.status.isFree) (haddr : d.addr = addr)
      (hbufs : A'.bufs = (A.setEvents p (d.toEventBase.recordEvent taskId user event)).bufs)
      (hlive : A'.live = A.live)
      (hset : ∀ key r, r ∈ A'.set key ↔ r ∈ A.set key ∨ (key = (user, mem) ∧ r = p))
      (hstat : A'.env.memStat.usedByEventSize =
        if d.isEventNotUsed then addSize A.env.memStat.usedByEventSize d.size
        else A.env.memStat.usedByEventSize)

theorem RecordStep.frame {taskId : Int} {user mem addr : Nat} {event : DeviceEvent}
    (h : EventInv law vmm A) (hs : RecordStep dev taskId user event mem addr A A') :
    Base law vmm 0 A' ∧ (∀ key, OrdSet.Sorted dev.bufAddress (A'.set key)) ∧
      Recorded taskId user event mem addr A A' := by
  cases hs with
  | absent hl => exact ⟨h.toBase, h.sorted, .absent hl rfl⟩
  | @record p k d hl hp =>
      obtain ⟨d', hd', haddr, hst, _⟩ := h.live _ _ _ hl
      rw [hp] at hd'
      cases hd'
      have hb := h.base_setEvents (e := d.toEventBase.recordEvent taskId user event) hp
        fun hf => absurd hf hst
      have hset : ∀ key : Nat × Nat, ((A.pairs.insert (user, mem) (OrdSet.emplace dev.bufAddress p
          ((A.pairs.lookup (user, mem)).getD []))).lookup key).getD [] =
          if key = (user, mem) then OrdSet.emplace dev.bufAddress p (A.set (user, mem))
          else A.set key := by
        intro key
        by_cases hk : key = (user, mem)
        · subst hk
          rw [AList.lookup_insert, if_pos rfl]
          rfl
        · rw [AList.lookup_insert_ne hk, if_neg hk]
          rfl
      refine ⟨?_, ?_, .record hl hp hst haddr ?_ ?_ ?_ ?_⟩
      · split
        · exact (hb.pairs _).stat _
        · exact hb.pairs _
      · intro key
        unfold set
        dsimp only
        rw [hset]
        split
        · exact OrdSet.sorted_emplace (h.sorted _)
        · exact h.sorted key
      · dsimp only
        split <;> rfl
      · dsimp only
        split <;> rfl
      · intro key r
        unfold set
        dsimp only
        rw [hset]
        split
        · rename_i hk
          subst hk
          constructor
          · intro hr
            rcases OrdSet.mem_emplace hr with hr | hr
            · exact .inr ⟨rfl, hr⟩
            · exact .inl hr
          · rintro (hr | ⟨_, rfl⟩)
            · exact OrdSet.mem_emplace_of_mem hr
            · exact OrdSet.mem_emplace_inj dev.bufAddress_inj _ _
        · rename_i hk
          constructor
          · exact fun hr => .inl hr
          · rintro (hr | ⟨hk', _⟩)
            · exact hr
            · exact absurd hk' hk
      · dsimp only
        split <;> rfl

theorem EventInv.recordStep {taskId : Int} {user mem addr : Nat} {event : DeviceEvent}
    (h : EventInv law vmm A) (hs : RecordStep dev taskId user event mem addr A A') :
    EventInv law vmm A' := by
  obtain ⟨hb, hsorted, hrec⟩ := hs.frame h
  cases hrec with
  | absent _ hA =>
      subst hA
      exact h
  | @record p k d hl hp hst haddr hbufs hlive hset hstat =>
      have hcase : ∀ r x, A'.bufs.get r = some x → (r ≠ p ∧ A.bufs.get r = some x) ∨
          (r = p ∧ x = { d with
            toEventBase := d.toEventBase.recordEvent taskId user event }) := by
        intro r x hx
        rw [hbufs] at hx
        by_cases hr : r = p
        · subst hr
          rw [get_setEvents hp] at hx
          cases hx
          exact .inr ⟨rfl, rfl⟩
        · rw [get_setEvents_ne hr] at hx
          exact .inl ⟨hr, hx⟩
      refine .of_inUse hb hsorted ?_ ?_ ?_ ?_
      · intro r x hx _
        rcases hcase r x hx with ⟨_, hx⟩ | ⟨_, rfl⟩
        · exact h.wf r x hx
        · exact EventBase.recordEvent_wellFormed (h.wf p d hp) taskId user event
      · intro r x u hx _ hu
        rcases hcase r x hx with ⟨_, hx⟩ | ⟨rfl, rfl⟩
        · obtain ⟨m, hm⟩ := h.member r x u hx hu
          exact ⟨m, (hset _ r).mpr (.inl hm)⟩
        · have hu : (d.toEventBase.recordEvent taskId user event).pending u ≠ [] := hu
          rw [EventBase.pending_recordEvent] at hu
          by_cases huu : u = user
          · exact ⟨mem, (hset _ r).mpr (.inr ⟨by rw [huu], rfl⟩)⟩
          · rw [if_neg huu] at hu
            obtain ⟨m, hm⟩ := h.member r d u hp hu
            exact ⟨m, (hset _ r).mpr (.inl hm)⟩
      · intro r x hx _ hused
        rw [hlive]
        rcases hcase r x hx with ⟨_, hx⟩ | ⟨rfl, rfl⟩
        · exact h.registered r x hx hused
        · exact ⟨k, by rw [haddr]; exact hl⟩
      · intro r x hx _ hst
        rcases hcase r x hx with ⟨_, hx⟩ | ⟨rfl, rfl⟩
        · exact h.waiting r x hx hst
        · exact EventBase.isEventNotUsed_recordEvent ..

/-! ## Syncing -/

/-- What a turn of the sync loop does to `q` itself. -/
inductive SyncSelf (q : Nat) (d : BufData) (A' : Arena δ) : Prop where
  | clear (hst : d.status ≠ .usedByEvent)
      (hget : A'.bufs.get q = some { d with toEventBase := d.toEventBase.syncAllEvents.2 })
  | free (hst : d.status = .usedByEvent) (hfree : ∀ x, A'.bufs.get q = some x → x.status.isFree)

theorem SyncStep.frame (h : EventInv law vmm A) (hs : SyncStep q A A') :
    WaitFrame law vmm q A A' ∧ A'.pairs = A.pairs ∧
      A'.env.memStat.usedByEventSize = A.env.memStat.usedByEventSize ∧
      ∀ d, A.bufs.get q = some d → SyncSelf q d A' := by
  cases hs with
  | gone hnone =>
      refine ⟨⟨h.toBase, h.sorted, fun _ _ _ _ => Iff.rfl, fun _ _ _ _ => Iff.rfl,
        fun _ _ _ => Iff.rfl⟩, rfl, rfl, fun d hd => ?_⟩
      rw [hnone] at hd
      cases hd
  | @clear d hq hcond =>
      have hb := h.base_setEvents (e := d.toEventBase.syncAllEvents.2) hq
        fun _ => EventBase.isEventNotUsed_syncAllEvents _
      have hst : d.status ≠ .usedByEvent := by
        intro hst
        -- a buffer that waits to be freed has events to sync
        have hused := h.waiting q d hq hst
        rcases hcond with hfalse | hne
        · rw [EventBase.syncAllEvents_fst, hused] at hfalse
          cases hfalse
        · exact hne hst
      refine ⟨⟨hb, h.sorted, ?_, fun _ _ _ _ => Iff.rfl, fun _ _ _ => Iff.rfl⟩, rfl, rfl, ?_⟩
      · intro r x hr _
        rw [get_setEvents_ne hr]
      · intro d' hd'
        rw [hq] at hd'
        cases hd'
        exact .clear hst (get_setEvents hq _)
  | @free d ok _ hq _ hst hf =>
      have hquiet := EventBase.isEventNotUsed_syncAllEvents d.toEventBase
      have hb := h.base_setEvents (e := d.toEventBase.syncAllEvents.2) hq fun _ => hquiet
      obtain ⟨k, hl⟩ := h.waits hq hst
      have hl' : (A.setEvents q d.toEventBase.syncAllEvents.2).live.lookup d.addr =
        some (q, k) := hl
      have hr := hf.release_of hl' (get_setEvents hq _) hquiet
      have hfr := hr.frame hl'
      have hset := set_congr hfr.pairs
      refine ⟨⟨hb.release hr, by rw [hset]; exact h.sorted, ?_, ?_, ?_⟩, hfr.pairs,
        hfr.usedByEvent, ?_⟩
      · intro r x hne hx
        rw [hfr.other r x hne hx, get_setEvents_ne hne]
      · intro a r k' hne
        rw [hfr.live]
        by_cases ha : a = d.addr
        · subst ha
          rw [AList.lookup_erase, hl]
          simp [hne.symm]
        · rw [AList.lookup_erase_ne ha]
          exact Iff.rfl
      · intro key' r hne
        rw [hset]
        exact Iff.rfl
      · intro d' hd'
        rw [hq] at hd'
        cases hd'
        exact .free hst hfr.self

theorem EventInv.syncStep (h : EventInv law vmm A) (hs : SyncStep q A A') :
    EventInv law vmm A' := by
  obtain ⟨hf, hpairs, _, hself⟩ := hs.frame h
  have hset := set_congr hpairs
  cases hq : A.bufs.get q with
  | none =>
      cases hs with
      | gone _ => exact h
      | clear hp _ => rw [hq] at hp; cases hp
      | free hp _ _ _ => rw [hq] at hp; cases hp
  | some d =>
      have hcase : ∀ p x, A'.bufs.get p = some x → ¬ x.status.isFree →
          (p ≠ q ∧ A.bufs.get p = some x) ∨
            (x.status ≠ .usedByEvent ∧ x.isEventNotUsed = true) := by
        intro p x hx hst
        by_cases hpq : p = q
        · subst hpq
          cases hself d hq with
          | clear hne hget =>
              rw [hget] at hx
              cases hx
              exact .inr ⟨hne, EventBase.isEventNotUsed_syncAllEvents _⟩
          | free _ hfree => exact absurd (hfree x hx) hst
        · exact .inl ⟨hpq, (hf.other p x hpq hst).mp hx⟩
      refine .of_inUse hf.base hf.sorted ?_ ?_ ?_ ?_
      · intro p x hx hst
        rcases hcase p x hx hst with ⟨_, hx⟩ | ⟨_, hquiet⟩
        · exact h.wf p x hx
        · exact EventBase.wellFormed_of_isEventNotUsed hquiet
      · intro p x u hx hst hu
        rw [hset]
        rcases hcase p x hx hst with ⟨_, hx⟩ | ⟨_, hquiet⟩
        · exact h.member p x u hx hu
        · exact absurd (EventBase.pending_of_isEventNotUsed hquiet u) hu
      · intro p x hx hst hused
        rcases hcase p x hx hst with ⟨hpq, hx⟩ | ⟨_, hquiet⟩
        · obtain ⟨k, hl⟩ := h.registered p x hx hused
          exact ⟨k, (hf.live _ p k hpq).mpr hl⟩
        · rw [hquiet] at hused
          cases hused
      · intro p x hx hlive hst
        rcases hcase p x hx hlive with ⟨_, hx⟩ | ⟨hne, _⟩
        · exact h.waiting p x hx hst
        · exact absurd hst hne

/-- No event is pending on the buffer `p`. -/
def QuietAt (A : Arena δ) (p : Nat) : Prop := ∀ d, A.bufs.get p = some d → d.isEventNotUsed = true

theorem QuietAt.syncStep {p : Nat} (h : EventInv law vmm A) (hs : SyncStep q A A')
    (hp : p = q ∨ A.QuietAt p) : A'.QuietAt p := by
  obtain ⟨hf, _, _, hself⟩ := hs.frame h
  intro x hx
  by_cases hst : x.status.isFree
  · exact hf.base.quiet p x hx (Nat.zero_le _) hst
  · by_cases hpq : p = q
    · subst hpq
      cases hq : A.bufs.get p with
      | none =>
          cases hs with
          | gone _ => rw [hq] at hx; cases hx
          | clear hp _ => rw [hq] at hp; cases hp
          | free hp _ _ _ => rw [hq] at hp; cases hp
      | some d =>
          cases hself d hq with
          | clear _ hget =>
              rw [hget] at hx
              cases hx
              exact EventBase.isEventNotUsed_syncAllEvents _
          | free _ hfree => exact absurd (hfree x hx) hst
    · exact hp.resolve_left hpq x ((hf.other p x hpq hst).mp hx)

/-- The sync loop clears all buffers it visits. -/
theorem sync_chain {ps : List Nat} (h : EventInv law vmm A) (hc : Chained SyncStep ps A A')
    (hall : ∀ p, p ∉ ps → A.QuietAt p) :
    EventInv law vmm A' ∧ (∀ p, A'.QuietAt p) ∧
      A'.env.memStat.usedByEventSize = A.env.memStat.usedByEventSize := by
  induction hc with
  | nil A => exact ⟨h, fun p => hall p (by simp), rfl⟩
  | @cons q ps A A₁ A₂ hs _ ih =>
      obtain ⟨hinv, hq, hstat⟩ := ih (h.syncStep hs) fun p hp => by
        by_cases hpq : p = q
        · exact QuietAt.syncStep h hs (.inl hpq)
        · exact QuietAt.syncStep h hs (.inr (hall p (by simp [hpq, hp])))
      exact ⟨hinv, hq, hstat.trans (hs.frame h).2.2.1⟩

theorem mem_foldl_emplace {f : Nat → Nat} (hf : Function.Injective f) {p : Nat} (xs : List Nat) :
    ∀ acc : List Nat, p ∈ xs ∨ p ∈ acc →
      p ∈ xs.foldl (fun acc p => OrdSet.emplace f p acc) acc := by
  induction xs with
  | nil => simp
  | cons x xs ih =>
      intro acc hp
      refine ih _ ?_
      rcases hp with hp | hp
      · rcases List.mem_cons.mp hp with rfl | hp
        · exact .inr (OrdSet.mem_emplace_inj hf _ _)
        · exact .inl hp
      · exact .inr (OrdSet.mem_emplace_of_mem hp)

theorem mem_carriers (hp : p ∈ A.set key) : p ∈ carriers dev A := by
  unfold carriers
  refine mem_foldl_emplace dev.bufAddress_inj _ _ (.inl ?_)
  unfold set at hp
  cases hl : A.pairs.lookup key with
  | none =>
      rw [hl] at hp
      cases hp
  | some ps =>
      rw [hl] at hp
      exact List.mem_flatMap.mpr ⟨⟨key, ps⟩, AList.mem_lookup_iff.mp hl, hp⟩

/-- After a sync no event is pending and the sets are empty; the counter stays
as it was. -/
theorem SyncAll.frame (h : EventInv law vmm A) (hs : SyncAll dev A A') :
    EventInv law vmm A' ∧ (∀ p, A'.QuietAt p) ∧ (∀ key, A'.set key = []) ∧
      A'.env.memStat.usedByEventSize = A.env.memStat.usedByEventSize := by
  cases hs with
  | none hempty =>
      have hset : ∀ key, A.set key = [] := by
        intro key
        have hnone : A.pairs.lookup key = Option.none := by
          rw [AList.lookup_eq_none]
          intro hmem
          rw [List.isEmpty_iff] at hempty
          rw [AList.mem_keys, AList.keys, hempty] at hmem
          cases hmem
        unfold set
        rw [hnone]
        rfl
      refine ⟨h, fun p d hd => ?_, hset, rfl⟩
      refine EventBase.isEventNotUsed_of_pending (h.wf p d hd) fun u => ?_
      by_contra hu
      obtain ⟨m, hm⟩ := h.member p d u hd hu
      rw [hset] at hm
      cases hm
  | @all A₁ hne hc =>
      obtain ⟨hinv, hq, hstat⟩ := sync_chain h hc fun p hp d hd => by
        refine EventBase.isEventNotUsed_of_pending (h.wf p d hd) fun u => ?_
        by_contra hu
        obtain ⟨m, hm⟩ := h.member p d u hd hu
        exact hp (mem_carriers hm)
      refine ⟨.of_inUse (hinv.toBase.pairs ∅) (fun _ => OrdSet.sorted_nil) ?_ ?_ ?_ ?_, hq,
        fun _ => rfl, hstat⟩
      · exact fun p d hd _ => hinv.wf p d hd
      · intro p d u hd _ hu
        exact absurd (EventBase.pending_of_isEventNotUsed (hq p d hd) u) hu
      · exact fun p d hd _ => hinv.registered p d hd
      · exact fun p d hd _ => hinv.waiting p d hd

/-! ## Calls -/

/-- The steps of one call, `FreePartTensorMems` apart. `ex` says that the search
of an allocation is exhausted. -/
def Moves (dev : Device δ) (vmm : Bool) (ex : Prop) (A A' : Arena δ) : Call → Prop
  | .alloc size _ _ addr => AllocStep dev vmm (alignMemorySize size) ex A addr A'
  | .free addr => ∃ ok, FreeStep addr A ok A'
  | .freePart _ _ _ => False
  | .defrag => ReflTransGen (Background dev vmm) A A'
  | .record taskId user mas event =>
      Chained (fun ma => RecordStep dev taskId user event ma.1 ma.2) mas A A'
  | .wait taskId user mem => WaitPair taskId (user, mem) A A'
  | .waitMem taskId mem order =>
      order.Perm A.pairs.keys ∧
        Chained (WaitPair taskId) (order.filter fun key => decide (key.2 = mem)) A A'
  | .syncAllEvents => SyncAll dev A A'

theorem EventInv.moves {ex : Prop} {c : Call} (h : EventInv law vmm A)
    (hs : Moves dev vmm ex A A' c) : EventInv law vmm A' := by
  cases c with
  | alloc size _ _ addr =>
      cases hs with
      | fail hpath => exact h.path hpath
      | hand hpath hh _ => exact (h.path hpath).hand hh
      | syncFail _ hpath hsync hpath' => exact (hsync.frame (h.path hpath)).1.path hpath'
      | syncHand _ hpath hsync hpath' hh _ =>
          exact ((hsync.frame (h.path hpath)).1.path hpath').hand hh
  | free addr =>
      obtain ⟨ok, hf⟩ := hs
      exact h.free hf
  | freePart _ _ _ => exact hs.elim
  | defrag => exact h.path hs
  | record taskId user mas event =>
      exact Chained.inv hs h fun _ _ _ _ h hs => h.recordStep hs
  | wait taskId user mem => exact h.waitPair hs
  | waitMem taskId mem order => exact Chained.inv hs.2 h fun _ _ _ _ h hs => h.waitPair hs
  | syncAllEvents => exact (hs.frame h).1

end Arena

namespace Pool

variable {law : DeviceLaw dev} {s s' : Pool δ}

/-- The calls that leave buffers whole. -/
def wholeCall : Call → Prop
  | .freePart _ _ _ => False
  | _ => True

instance : DecidablePred wholeCall
  | .freePart _ _ _ => isFalse id
  | .alloc _ _ _ _ => isTrue trivial
  | .free _ => isTrue trivial
  | .defrag => isTrue trivial
  | .record _ _ _ _ => isTrue trivial
  | .wait _ _ _ => isTrue trivial
  | .waitMem _ _ _ => isTrue trivial
  | .syncAllEvents => isTrue trivial

/-- The search of an allocation is exhausted: events are synced. -/
def exhausts (dev : Device δ) (s : Pool δ) : Call → Prop
  | .alloc size fromPersistentMem streamId _ =>
      Exhausts dev (alignMemorySize size) fromPersistentMem streamId s
  | _ => False

theorem moves_of_step {c : Call} (h : Inv law 0 s) (hc : wholeCall c) (hs : Step dev s c s') :
    Does law 0 s s' fun A A' => Arena.Moves dev s.enableVmm (exhausts dev s c) A A' c := by
  cases c with
  | alloc size b n addr => exact allocTensorMem_spec h (.inl rfl) hs
  | free addr =>
      cases hs
      exact freeTensorMem_spec h addr
  | freePart _ _ _ => exact hc.elim
  | defrag =>
      have hq := defragMemory_spec h hs
      exact ⟨hq.inv, hq.vmm, hq.path⟩
  | record taskId user mas event =>
      cases hs
      exact recordEvent_spec h taskId user mas event
  | wait taskId user mem =>
      cases hs
      exact waitEvent_spec h taskId user mem
  | waitMem taskId mem order =>
      obtain ⟨hperm, rfl⟩ := hs
      have hd := waitEventOnMemoryStream_spec h taskId mem order
      exact ⟨hd.inv, hd.vmm, hperm, hd.step⟩
  | syncAllEvents =>
      cases hs
      exact doSyncAllEvents_spec h

/-- The invariant of a pool whose buffers are left whole. -/
structure EventsOk (law : DeviceLaw dev) (s : Pool δ) : Prop where
  inv : Inv law 0 s
  events : Arena.EventInv law s.enableVmm s.arena

theorem EventsOk.step {c : Call} (h : EventsOk law s) (hc : wholeCall c)
    (hs : Step dev s c s') : EventsOk law s' := by
  have hd := moves_of_step h.inv hc hs
  refine ⟨hd.inv, ?_⟩
  rw [hd.vmm]
  exact h.events.moves hd.step

theorem EventsOk.init (law : DeviceLaw dev) (enableVmm enableTiny : Bool) (d : δ) :
    EventsOk law (Pool.init enableVmm enableTiny d) := by
  have hi := Inv.init law enableVmm enableTiny d
  exact ⟨hi, hi.base, nofun, fun _ => OrdSet.sorted_nil, nofun, nofun, nofun⟩

end Pool

end Ccbase.Memory

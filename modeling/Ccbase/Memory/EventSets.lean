import Ccbase.Memory.Waiting

/-!
# The sets of event-carrying buffers

A buffer can be in several sets, and a wait takes a buffer that loses its last
event out of one of them only, unless the buffer has been freed. A wait is clean
if that cannot leave a buffer without events behind (`LeavesClean`): a buffer in
use that loses its last event loses it in the first of the waited sets that hold
it, and all sets that hold it are waited for. In runs of clean waits every member
of every set is a live buffer with a pending event.
-/

namespace Ccbase.Memory

open Ccbase.Lib Relation

variable {δ : Type} {dev : Device δ}

namespace EventBase

/-- The events that are left after waiting for task `n` on the streams of `keys`. -/
def popped (n : Nat) (e : EventBase) (keys : List (Nat × Nat)) : EventBase :=
  keys.foldl (fun e key => (e.waitEvent n key.1).2) e

theorem popped_cons (n : Nat) (e : EventBase) (key : Nat × Nat) (keys : List (Nat × Nat)) :
    e.popped n (key :: keys) = (e.waitEvent n key.1).2.popped n keys := rfl

theorem popped_of_isEventNotUsed {e : EventBase} (h : e.isEventNotUsed = true) (n : Nat)
    (keys : List (Nat × Nat)) : e.popped n keys = e := by
  induction keys with
  | nil => rfl
  | cons key keys ih => rw [popped_cons, waitEvent_of_isEventNotUsed h, ih]

end EventBase

namespace Arena

variable {vmm : Bool} {law : DeviceLaw dev} {A A' : Arena δ} {p q : Nat} {key : Nat × Nat}
  {taskId : Int}

/-! ## One set -/

/-- What the loop over the set `key` does to a buffer `p` in use. -/
inductive PairSelf (n : Nat) (key : Nat × Nat) (p : Nat) (d : BufData) (A A' : Arena δ) :
    Prop where
  | untouched (hp : p ∉ A.set key) (hget : A'.bufs.get p = some d)
      (hset : ∀ key', p ∈ A'.set key' ↔ p ∈ A.set key')
  | keep (hp : p ∈ A.set key)
      (hused : (d.toEventBase.waitEvent n key.1).2.isEventNotUsed = false)
      (hget : A'.bufs.get p = some { d with toEventBase := (d.toEventBase.waitEvent n key.1).2 })
      (hset : ∀ key', p ∈ A'.set key' ↔ p ∈ A.set key')
  | drop (hp : p ∈ A.set key)
      (hquiet : (d.toEventBase.waitEvent n key.1).2.isEventNotUsed = true)
      (hst : d.status ≠ .usedByEvent)
      (hget : A'.bufs.get p = some { d with toEventBase := (d.toEventBase.waitEvent n key.1).2 })
      (hset : ∀ key', p ∈ A'.set key' ↔ p ∈ A.set key' ∧ key' ≠ key)
  | free (hp : p ∈ A.set key)
      (hquiet : (d.toEventBase.waitEvent n key.1).2.isEventNotUsed = true)
      (hst : d.status = .usedByEvent) (hfree : ∀ x, A'.bufs.get p = some x → x.status.isFree)
      (hset : ∀ key', p ∉ A'.set key')

/-- Turns on other buffers do not touch a buffer in use. -/
theorem waits_other {ps : List Nat} {d : BufData} (h : EventInv law vmm A)
    (hc : Chained (WaitStep taskId key) ps A A') (hp : p ∉ ps) (hd : A.bufs.get p = some d)
    (hst : ¬ d.status.isFree) :
    A'.bufs.get p = some d ∧ ∀ key', p ∈ A'.set key' ↔ p ∈ A.set key' := by
  induction hc with
  | nil A => exact ⟨hd, fun _ => Iff.rfl⟩
  | @cons q ps A A₁ A₂ hs _ ih =>
      have hpq : p ≠ q := fun heq => hp (heq ▸ List.mem_cons_self ..)
      have hf := (hs.frame h).1
      obtain ⟨hget, hset⟩ := ih (h.waitStep hs) (fun hmem => hp (List.mem_cons_of_mem _ hmem))
        ((hf.other p d hpq hst).mpr hd)
      exact ⟨hget, fun key' => (hset key').trans (hf.set key' p hpq)⟩

theorem waits_gone {ps : List Nat} (h : EventInv law vmm A)
    (hc : Chained (WaitStep taskId key) ps A A') (hp : p ∉ ps)
    (hfree : ∀ x, A.bufs.get p = some x → x.status.isFree) (hset : ∀ key', p ∉ A.set key') :
    (∀ x, A'.bufs.get p = some x → x.status.isFree) ∧ ∀ key', p ∉ A'.set key' := by
  induction hc with
  | nil A => exact ⟨hfree, hset⟩
  | @cons q ps A A₁ A₂ hs _ ih =>
      have hpq : p ≠ q := fun heq => hp (heq ▸ List.mem_cons_self ..)
      have hf := (hs.frame h).1
      refine ih (h.waitStep hs) (fun hmem => hp (List.mem_cons_of_mem _ hmem)) ?_ ?_
      · intro x hx
        by_contra hst
        exact hst (hfree x ((hf.other p x hpq hst).mp hx))
      · exact fun key' hmem => hset key' ((hf.set key' p hpq).mp hmem)

/-- A loop that visits `p` once; `A` is where the loop started. -/
theorem waits_self {ps : List Nat} {d : BufData} {B : Arena δ} (h : EventInv law vmm B)
    (hc : Chained (WaitStep taskId key) ps B A') (hnd : ps.Nodup) (hp : p ∈ ps)
    (hd : B.bufs.get p = some d) (hst : ¬ d.status.isFree) (hmem : p ∈ A.set key)
    (hset : ∀ key', p ∈ B.set key' ↔ p ∈ A.set key') :
    PairSelf (Pool.toUInt32 taskId) key p d A A' := by
  induction hc with
  | nil B => cases hp
  | @cons q ps B B₁ B₂ hs hrest ih =>
      obtain ⟨hf, hself⟩ := hs.frame h
      obtain ⟨hq, hnd⟩ := List.nodup_cons.mp hnd
      have h₁ := h.waitStep hs
      by_cases hpq : p = q
      · subst hpq
        cases hself d hd with
        | keep hused hget hset' _ _ =>
            obtain ⟨h1, h2⟩ := waits_other h₁ hrest hq hget hst
            exact .keep hmem hused h1 fun key' =>
              ((h2 key').trans (hset' key')).trans (hset key')
        | drop hquiet hne hget hset' _ _ =>
            obtain ⟨h1, h2⟩ := waits_other h₁ hrest hq hget hst
            exact .drop hmem hquiet hne h1 fun key' =>
              ((h2 key').trans (hset' key')).trans (and_congr_left fun _ => hset key')
        | free hquiet heq hfree hset' _ =>
            obtain ⟨h1, h2⟩ := waits_gone h₁ hrest hq hfree hset'
            exact .free hmem hquiet heq h1 h2
      · refine ih h₁ hnd ((List.mem_cons.mp hp).resolve_left hpq)
          ((hf.other p d hpq hst).mpr hd) fun key' => ?_
        exact (hf.set key' p hpq).trans (hset key')

theorem WaitPair.self {d : BufData} (h : EventInv law vmm A) (hs : WaitPair taskId key A A')
    (hd : A.bufs.get p = some d) (hst : ¬ d.status.isFree) :
    PairSelf (Pool.toUInt32 taskId) key p d A A' := by
  by_cases hmem : p ∈ A.set key
  · exact waits_self h hs (h.nodup key) hmem hd hst hmem fun _ => Iff.rfl
  · obtain ⟨h1, h2⟩ := waits_other h hs hmem hd hst
    exact .untouched hmem h1 h2

/-- A wait only takes members out of sets. -/
theorem WaitPair.mem_set (h : EventInv law vmm A) (hs : WaitPair taskId key A A')
    {key' : Nat × Nat} (hp : p ∈ A'.set key') : p ∈ A.set key' := by
  have hstep : ∀ {q : Nat} {B B' : Arena δ}, EventInv law vmm B → WaitStep taskId key q B B' →
      ∀ r, r ∈ B'.set key' → r ∈ B.set key' := by
    intro q B B' hB hs r hr
    obtain ⟨hf, hself⟩ := hs.frame hB
    by_cases hrq : r = q
    · subst hrq
      cases hq : B.bufs.get r with
      | none =>
          cases hs with
          | gone _ => exact hr
          | keep hp _ _ => rw [hq] at hp; cases hp
          | drop hp _ _ _ => rw [hq] at hp; cases hp
          | free hp _ _ _ _ => rw [hq] at hp; cases hp
      | some d =>
          cases hself d hq with
          | keep _ _ hset _ _ => exact (hset key').mp hr
          | drop _ _ _ hset _ _ => exact ((hset key').mp hr).1
          | free _ _ _ hset _ => exact absurd hr (hset key')
    · exact (hf.set key' r hrq).mp hr
  exact (Chained.inv (I := fun B => EventInv law vmm B ∧ ∀ r, r ∈ B.set key' → r ∈ A.set key') hs
    ⟨h, fun _ hr => hr⟩ fun q _ B B' hB hs =>
      ⟨hB.1.waitStep hs, fun r hr => hB.2 r (hstep hB.1 hs r hr)⟩).2 p hp

/-! ## All waited sets -/

/-- The sets of `keys` that hold `p`. -/
def held (A : Arena δ) (keys : List (Nat × Nat)) (p : Nat) : List (Nat × Nat) :=
  keys.filter fun key => decide (p ∈ A.set key)

/-- A buffer in use that loses its last event to a wait for task `n` on the sets
of `keys` loses it in the first of them that holds it, and is in no other set. -/
def LeavesClean (n : Nat) (keys : List (Nat × Nat)) (A : Arena δ) : Prop :=
  ∀ p d, A.bufs.get p = some d → d.isEventNotUsed = false → d.status ≠ .usedByEvent →
    (d.toEventBase.popped n (A.held keys p)).isEventNotUsed = true →
    (d.toEventBase.popped n ((A.held keys p).take 1)).isEventNotUsed = true ∧
      ∀ key, p ∈ A.set key → key ∈ keys

/-- A member of a set is in one of finitely many. -/
theorem forall_set_iff {P : Nat × Nat → Prop} :
    (∀ key ∈ A.pairs.keys, p ∈ A.set key → P key) ↔ ∀ key, p ∈ A.set key → P key := by
  constructor
  · intro hall key hp
    refine hall key ?_ hp
    by_contra hnone
    unfold set at hp
    rw [AList.lookup_eq_none.mpr (fun hmem => hnone (AList.mem_keys.mp hmem))] at hp
    cases hp
  · exact fun hall key _ hp => hall key hp

instance (n : Nat) (keys : List (Nat × Nat)) (A : Arena δ) : Decidable (LeavesClean n keys A) :=
  decidable_of_iff (∀ p ∈ List.range A.bufs.next, ∀ d ∈ A.bufs.get p,
    d.isEventNotUsed = false → d.status ≠ .usedByEvent →
    (d.toEventBase.popped n (A.held keys p)).isEventNotUsed = true →
    (d.toEventBase.popped n ((A.held keys p).take 1)).isEventNotUsed = true ∧
      ∀ key ∈ A.pairs.keys, p ∈ A.set key → key ∈ keys) (by
    simp only [forall_set_iff]
    exact Heap.forall_get_iff)

theorem held_cons_of_mem {keys : List (Nat × Nat)} (hp : p ∈ A.set key) :
    A.held (key :: keys) p = key :: A.held keys p := by
  unfold held
  rw [List.filter_cons_of_pos (by simpa using hp)]

theorem held_cons_of_not_mem {keys : List (Nat × Nat)} (hp : p ∉ A.set key) :
    A.held (key :: keys) p = A.held keys p := by
  unfold held
  rw [List.filter_cons_of_neg (by simpa using hp)]

theorem held_congr {keys : List (Nat × Nat)} (h : ∀ key ∈ keys, p ∈ A'.set key ↔ p ∈ A.set key) :
    A'.held keys p = A.held keys p :=
  List.filter_congr fun key hkey => by simp [h key hkey]

/-- Members are in use, and those without events are still to be visited. -/
structure Sound (keys : List (Nat × Nat)) (A : Arena δ) : Prop where
  live : ∀ key p, p ∈ A.set key → ∃ d, A.bufs.get p = some d ∧ ¬ d.status.isFree
  pending : ∀ key p d, p ∈ A.set key → A.bufs.get p = some d →
    d.isEventNotUsed = false ∨ key ∈ keys

theorem Sound.waitPair {keys : List (Nat × Nat)} (h : EventInv law vmm A)
    (hs : WaitPair taskId key A A') (hS : Sound (key :: keys) A)
    (hC : LeavesClean (Pool.toUInt32 taskId) (key :: keys) A) : Sound keys A' := by
  have hkey : ∀ {key' : Nat × Nat} {p : Nat}, p ∈ A'.set key' → ∃ d, A.bufs.get p = some d ∧
      ¬ d.status.isFree ∧ PairSelf (Pool.toUInt32 taskId) key p d A A' := by
    intro key' p hp
    obtain ⟨d, hd, hst⟩ := hS.live key' p (hs.mem_set h hp)
    exact ⟨d, hd, hst, hs.self h hd hst⟩
  constructor
  · intro key' p hp
    obtain ⟨d, hd, hst, hself⟩ := hkey hp
    cases hself with
    | untouched _ hget _ => exact ⟨d, hget, hst⟩
    | keep _ _ hget _ => exact ⟨_, hget, hst⟩
    | drop _ _ _ hget _ => exact ⟨_, hget, hst⟩
    | free _ _ _ _ hset => exact absurd hp (hset key')
  · intro key' p x hp hx
    obtain ⟨d, hd, hst, hself⟩ := hkey hp
    cases hself with
    | untouched hnot hget hset =>
        rw [hget] at hx
        cases hx
        have hp := (hset key').mp hp
        refine (hS.pending key' p _ hp hd).imp_right fun hmem => ?_
        exact (List.mem_cons.mp hmem).resolve_left fun heq => hnot (heq ▸ hp)
    | keep _ hused hget _ =>
        rw [hget] at hx
        cases hx
        exact .inl hused
    | drop hmem hquiet hne hget hset =>
        -- the buffer has left this set, all others are still to come
        obtain ⟨hp, hkk⟩ := (hset key').mp hp
        refine .inr ?_
        have hall : key' ∈ key :: keys := by
          rcases hS.pending key' p d hp hd with hused | hmem'
          · refine (hC p d hd hused hne ?_).2 key' hp
            rw [held_cons_of_mem hmem, EventBase.popped_cons,
              EventBase.popped_of_isEventNotUsed hquiet]
            exact hquiet
          · exact hmem'
        exact (List.mem_cons.mp hall).resolve_left hkk
    | free _ _ _ _ hset => exact absurd hp (hset key')

theorem LeavesClean.waitPair {keys : List (Nat × Nat)} (h : EventInv law vmm A)
    (hs : WaitPair taskId key A A')
    (hC : LeavesClean (Pool.toUInt32 taskId) (key :: keys) A) :
    LeavesClean (Pool.toUInt32 taskId) keys A' := by
  intro p x hx hused hne hpop
  have hinv := h.waitPair hs
  have hlive : ¬ x.status.isFree := fun hf => by
    rw [hinv.quiet p x hx (Nat.zero_le _) hf] at hused
    cases hused
  obtain ⟨d, hd, hst, _⟩ := NoRevival.waitPair h hs p x hx hlive
  cases hs.self h hd hst with
  | untouched hmem hget hset =>
      rw [hget] at hx
      cases hx
      rw [held_congr fun key' _ => hset key'] at hpop ⊢
      rw [← held_cons_of_not_mem hmem] at hpop ⊢
      obtain ⟨h1, h2⟩ := hC p _ hd hused hne hpop
      refine ⟨h1, fun key' hp => ?_⟩
      have hp := (hset key').mp hp
      exact (List.mem_cons.mp (h2 key' hp)).resolve_left fun heq => hmem (heq ▸ hp)
  | keep hmem hused' hget hset =>
      rw [hget] at hx
      cases hx
      -- the last event would have to go with the first set, and it did not
      have hold : d.isEventNotUsed = false := by
        cases hq : d.isEventNotUsed with
        | false => rfl
        | true =>
            rw [EventBase.waitEvent_of_isEventNotUsed hq, hq] at hused'
            cases hused'
      rw [held_congr fun key' _ => hset key'] at hpop
      have hfirst := (hC p d hd hold hne (by
        rw [held_cons_of_mem hmem, EventBase.popped_cons]
        exact hpop)).1
      rw [held_cons_of_mem hmem, List.take_succ_cons, List.take_zero,
        EventBase.popped_cons] at hfirst
      rw [show (d.toEventBase.waitEvent (Pool.toUInt32 taskId) key.1).2.isEventNotUsed = true
        from hfirst] at hused'
      cases hused'
  | drop _ hquiet _ hget _ =>
      rw [hget] at hx
      cases hx
      rw [show (d.toEventBase.waitEvent (Pool.toUInt32 taskId) key.1).2.isEventNotUsed = false
        from hused] at hquiet
      cases hquiet
  | free _ _ _ hfree _ => exact absurd (hfree x hx) hlive

/-- A clean wait on several sets, one after the other. -/
theorem Sound.waitPairs {keys : List (Nat × Nat)} (h : EventInv law vmm A)
    (hc : Chained (WaitPair taskId) keys A A') (hS : Sound keys A)
    (hC : LeavesClean (Pool.toUInt32 taskId) keys A) : Sound [] A' := by
  induction hc with
  | nil A => exact hS
  | @cons key keys A A₁ A₂ hs _ ih =>
      exact ih (h.waitPair hs) (hS.waitPair h hs hC) (LeavesClean.waitPair h hs hC)

theorem Sound.weaken {keys : List (Nat × Nat)} (h : Sound [] A) : Sound keys A :=
  ⟨h.live, fun key p d hp hd => .inl ((h.pending key p d hp hd).resolve_right nofun)⟩

/-! ## The other steps -/

/-- If the sets stay the same and buffers with events stay where they are, all
stays in order. -/
theorem Sound.of_keeps (hS : Sound [] A) (hset : A'.set = A.set)
    (hkeep : ∀ p d, A.bufs.get p = some d → d.isEventNotUsed = false →
      ∃ d', A'.bufs.get p = some d' ∧ ¬ d'.status.isFree ∧ d'.isEventNotUsed = false) :
    Sound [] A' := by
  have hmem : ∀ key p, p ∈ A'.set key → ∃ d', A'.bufs.get p = some d' ∧
      ¬ d'.status.isFree ∧ d'.isEventNotUsed = false := by
    intro key p hp
    rw [hset] at hp
    obtain ⟨d, hd, _⟩ := hS.live key p hp
    exact hkeep p d hd ((hS.pending key p d hp hd).resolve_right nofun)
  constructor
  · intro key p hp
    obtain ⟨d', hd', hst, _⟩ := hmem key p hp
    exact ⟨d', hd', hst⟩
  · intro key p d hp hd
    obtain ⟨d', hd', _, hused⟩ := hmem key p hp
    rw [hd] at hd'
    cases hd'
    exact .inl hused

/-- A buffer with events is in use. -/
theorem EventInv.inUse (h : EventInv law vmm A) {d : BufData} (hp : A.bufs.get p = some d)
    (hused : d.isEventNotUsed = false) : ¬ d.status.isFree := fun hf => by
  rw [h.quiet p d hp (Nat.zero_le _) hf] at hused
  cases hused

theorem Sound.path (h : EventInv law vmm A) (hS : Sound [] A)
    (hs : ReflTransGen (Background dev vmm) A A') : Sound [] A' := by
  have hc := Calm.of_path hs
  refine hS.of_keeps (set_congr hc.pairs) fun p d hd hused => ?_
  have hst := h.inUse hd hused
  exact ⟨d, (hc.live_iff p d hst).mpr hd, hst, hused⟩

theorem Sound.hand {size q : Nat} {k : AllocatorKey} (h : EventInv law vmm A) (hS : Sound [] A)
    (hh : Hand dev size q k A A') : Sound [] A' := by
  obtain ⟨d₀, hf⟩ := hh.frame
  refine hS.of_keeps (set_congr hf.pairs) fun p d hd hused => ?_
  have hst := h.inUse hd hused
  exact ⟨d, (hf.get hd hst).2, hst, hused⟩

theorem Sound.free {addr : Nat} {ok : Bool} (h : EventInv law vmm A) (hS : Sound [] A)
    (hf : FreeStep addr A ok A') : Sound [] A' := by
  cases hf with
  | absent _ => exact hS
  | release hr =>
      cases hr with
      | @mk q k x D hl hq hquiet hD =>
          have hfr := (Release.mk hl hq hquiet hD).frame hl
          refine hS.of_keeps rfl fun p d hd hused => ?_
          have hst := h.inUse hd hused
          have hpq : p ≠ q := fun heq => by
            rw [heq, hq] at hd
            cases hd
            rw [hquiet] at hused
            cases hused
          exact ⟨d, (hfr.other p d hpq hst).mpr hd, hst, hused⟩
  | retain hr =>
      cases hr with
      | @mk q k x hl hq _ =>
          refine hS.of_keeps rfl fun p d hd hused => ?_
          show ∃ d', (A.bufs.modify q _).get p = some d' ∧ _
          rw [Heap.get_modify]
          split
          · rename_i hpq
            rw [hpq, hq] at hd
            cases hd
            exact ⟨{ x with status := .usedByEvent }, by rw [hq]; rfl, not_isFree_usedByEvent,
              hused⟩
          · exact ⟨d, hd, h.inUse hd hused, hused⟩

theorem Sound.record {user mem addr : Nat} {event : DeviceEvent} (h : EventInv law vmm A)
    (hS : Sound [] A) (hs : RecordStep dev taskId user event mem addr A A') : Sound [] A' := by
  cases (hs.frame h).2.2 with
  | absent _ hA =>
      subst hA
      exact hS
  | @record q k x hl hq hst haddr hbufs hlive hset hstat =>
      have hself : A'.bufs.get q = some { x with
          toEventBase := x.toEventBase.recordEvent taskId user event } := by
        rw [hbufs]
        exact get_setEvents hq _
      have hmem : ∀ key p, p ∈ A'.set key → p = q ∨ (p ≠ q ∧ p ∈ A.set key) := by
        intro key p hp
        by_cases hpq : p = q
        · exact .inl hpq
        · exact .inr ⟨hpq, ((hset key p).mp hp).resolve_right fun hh => hpq hh.2⟩
      constructor
      · intro key p hp
        rcases hmem key p hp with rfl | ⟨hpq, hp⟩
        · exact ⟨_, hself, hst⟩
        · obtain ⟨d, hd, hlive⟩ := hS.live key p hp
          exact ⟨d, by rw [hbufs, get_setEvents_ne hpq]; exact hd, hlive⟩
      · intro key p d hp hd
        rcases hmem key p hp with rfl | ⟨hpq, hp⟩
        · rw [hself] at hd
          cases hd
          exact .inl (EventBase.isEventNotUsed_recordEvent ..)
        · rw [hbufs, get_setEvents_ne hpq] at hd
          exact hS.pending key p d hp hd

theorem Sound.empty (h : ∀ key, A.set key = []) : Sound [] A := by
  constructor
  · intro key p hp
    rw [h] at hp
    cases hp
  · intro key p _ hp
    rw [h] at hp
    cases hp

/-- The waits of a call are clean. -/
def CleanCall (A : Arena δ) : Call → Prop
  | .wait taskId user mem => LeavesClean (Pool.toUInt32 taskId) [(user, mem)] A
  | .waitMem taskId mem order =>
      LeavesClean (Pool.toUInt32 taskId) (order.filter fun key => decide (key.2 = mem)) A
  | _ => True

instance (A : Arena δ) : DecidablePred A.CleanCall
  | .wait taskId user mem =>
      inferInstanceAs (Decidable (LeavesClean (Pool.toUInt32 taskId) [(user, mem)] A))
  | .waitMem taskId mem order =>
      inferInstanceAs (Decidable (LeavesClean (Pool.toUInt32 taskId)
        (order.filter fun key => decide (key.2 = mem)) A))
  | .alloc _ _ _ _ => isTrue trivial
  | .free _ => isTrue trivial
  | .freePart _ _ _ => isTrue trivial
  | .defrag => isTrue trivial
  | .record _ _ _ _ => isTrue trivial
  | .syncAllEvents => isTrue trivial

theorem Sound.moves {ex : Prop} {c : Call} (h : EventInv law vmm A) (hS : Sound [] A)
    (hc : CleanCall A c) (hs : Moves dev vmm ex A A' c) : Sound [] A' := by
  cases c with
  | alloc size _ _ addr =>
      cases hs with
      | fail hpath => exact hS.path h hpath
      | hand hpath hh _ => exact (hS.path h hpath).hand (h.path hpath) hh
      | syncFail _ hpath hsync hpath' =>
          obtain ⟨hinv, _, hset, _⟩ := hsync.frame (h.path hpath)
          exact (Sound.empty hset).path hinv hpath'
      | syncHand _ hpath hsync hpath' hh _ =>
          obtain ⟨hinv, _, hset, _⟩ := hsync.frame (h.path hpath)
          exact ((Sound.empty hset).path hinv hpath').hand (hinv.path hpath') hh
  | free addr =>
      obtain ⟨ok, hf⟩ := hs
      exact hS.free h hf
  | freePart _ _ _ => exact hs.elim
  | defrag => exact hS.path h hs
  | record taskId user mas event =>
      exact (Chained.inv (I := fun B => EventInv law vmm B ∧ Sound [] B) hs ⟨h, hS⟩
        fun _ _ _ _ hB hs => ⟨hB.1.recordStep hs, hB.2.record hB.1 hs⟩).2
  | wait taskId user mem =>
      exact Sound.waitPairs h (.cons hs (.nil _)) hS.weaken hc
  | waitMem taskId mem order => exact Sound.waitPairs h hs.2 hS.weaken hc
  | syncAllEvents => exact Sound.empty (hs.frame h).2.2.1

end Arena

namespace Pool

variable {s : Pool δ}

/-- In every run of clean waits all members of all sets are live buffers with a
pending event, and the values of their addresses. -/
theorem event_sets_live (law : DeviceLaw dev) (enableVmm enableTiny : Bool) (d : δ)
    (calls : List Call)
    (hrun : Run (fun s c s' => Step dev s c s' ∧ wholeCall c ∧ s.arena.CleanCall c)
      (Pool.init enableVmm enableTiny d) calls s) :
    ∀ key ps p, s.streamPairMemBufs.lookup key = some ps → p ∈ ps →
      ∃ b k, s.bufs.get p = some b ∧ ¬ b.status.isFree ∧ (∃ u, b.pending u ≠ []) ∧
        s.addrMemBufAllocators.lookup b.addr = some (p, k) := by
  have hinv : EventsOk law s ∧ Arena.Sound [] s.arena := by
    refine hrun.state_inv (I := fun s => EventsOk law s ∧ Arena.Sound [] s.arena)
      ⟨EventsOk.init law enableVmm enableTiny d, Arena.Sound.empty fun _ => rfl⟩ ?_
    rintro s c s' ⟨h, hS⟩ ⟨hs, hc, hclean⟩
    exact ⟨h.step hc hs, hS.moves h.events hclean (moves_of_step h.inv hc hs).step⟩
  obtain ⟨h, hS⟩ := hinv
  intro key ps p hl hp
  have hp : p ∈ s.arena.set key := by
    unfold Arena.set
    rw [show s.arena.pairs.lookup key = some ps from hl]
    exact hp
  obtain ⟨x, hx, hst⟩ := hS.live key p hp
  have hused := (hS.pending key p x hp hx).resolve_right nofun
  obtain ⟨k, hk⟩ := h.events.registered p x hx hused
  obtain ⟨b, hb, rfl⟩ := dataOf_get_some hx
  exact ⟨b, k, hb, hst, EventBase.exists_pending (h.events.wf p _ hx) hused, hk⟩

/-- A buffer in two sets that is waited for on its memory stream, with an event
left. -/
theorem event_sets_live_two :
    ∃ calls s, Run (fun s c s' => Step (linearDevice false true) s c s' ∧ wholeCall c ∧
        s.arena.CleanCall c) (Pool.init false false (LinearState.init 0)) calls s ∧
      s.streamPairMemBufs.lookup (1, 2) = some [0] ∧
      ∀ key ps p, s.streamPairMemBufs.lookup key = some ps → p ∈ ps →
        ∃ b k, s.bufs.get p = some b ∧ ¬ b.status.isFree ∧ (∃ u, b.pending u ≠ []) ∧
          s.addrMemBufAllocators.lookup b.addr = some (p, k) := by
  let calls : List Call := [.alloc 1000 false 0 512, .record 3 1 [(2, 512)] 7,
    .record 9 2 [(2, 512)] 8, .wait 3 2 2, .waitMem 3 2 [(2, 2), (1, 2)], .free 512]
  have hexec : ((exec (linearDevice false true) (fun s c => wholeCall c ∧ s.arena.CleanCall c)
      (Pool.init false false (LinearState.init 0)) calls).map
        fun s => s.streamPairMemBufs.lookup (1, 2)) = some (some [0]) := by
    decide +kernel
  obtain ⟨s, hs, heq⟩ := Option.map_eq_some_iff.mp hexec
  exact ⟨calls, s, run_of_exec hs, heq,
    event_sets_live (linearLaw false true) false false _ calls (run_of_exec hs)⟩

/-- A buffer is recorded for one user stream on two memory streams. The wait on
one of them takes the last event and leaves the buffer in the other set, where it
stays even when it is freed. -/
theorem event_set_keeps_freed_buffer :
    ∃ s, Run (fun s c s' => Step (linearDevice false true) s c s' ∧ wholeCall c)
        (Pool.init false false (LinearState.init 0))
        [.alloc 1000 false 0 512, .record 3 1 [(1, 512)] 7, .record 3 1 [(2, 512)] 7,
          .wait 3 1 1, .free 512] s ∧
      s.streamPairMemBufs.lookup (1, 2) = some [0] ∧
      (s.bufs.get 0).map (fun b => (b.status, b.isEventNotUsed)) = some (.idle, true) := by
  have hexec : ((exec (linearDevice false true) (fun _ => wholeCall)
      (Pool.init false false (LinearState.init 0))
      [.alloc 1000 false 0 512, .record 3 1 [(1, 512)] 7, .record 3 1 [(2, 512)] 7,
        .wait 3 1 1, .free 512]).map fun s => (s.streamPairMemBufs.lookup (1, 2),
          (s.bufs.get 0).map fun b => (b.status, b.isEventNotUsed))) =
      some (some [0], some (.idle, true)) := by
    decide +kernel
  obtain ⟨s, hs, heq⟩ := Option.map_eq_some_iff.mp hexec
  exact ⟨s, run_of_exec hs, congrArg Prod.fst heq, congrArg Prod.snd heq⟩

end Pool

end Ccbase.Memory

import Ccbase.Memory.Sizes
import Ccbase.Memory.EventSets

/-!
# The counter of memory held by events

`used_by_event_size_` is raised when a buffer gets its first event and lowered
in the wait loops, once for each set in which they find the buffer without
events. A sync clears all events and leaves the counter alone. The counter is
exact as long as a wait finds each buffer without events at most once
(`CountsOnce`) and no event is pending when a sync is made.
-/

namespace Ccbase.Memory

open Ccbase.Lib Relation

variable {δ : Type} {dev : Device δ}

/-- The bytes of a buffer that events hold. -/
def BufData.eventSize (d : BufData) : Nat := if d.isEventNotUsed then 0 else d.size

theorem eventSize_of_quiet {d : BufData} (h : d.isEventNotUsed = true) : d.eventSize = 0 :=
  if_pos h

theorem eventSize_of_used {d : BufData} (h : d.isEventNotUsed = false) : d.eventSize = d.size :=
  if_neg (by rw [h]; decide)

theorem eventSize_le (d : BufData) : d.eventSize ≤ d.size := by
  unfold BufData.eventSize
  split
  · exact Nat.zero_le _
  · exact Nat.le_refl _

namespace Arena

variable {vmm : Bool} {law : DeviceLaw dev} {A A' : Arena δ} {p q : Nat} {key : Nat × Nat}
  {taskId : Int}

/-! ## Blocks -/

theorem FreeStep.blocks {addr : Nat} {ok : Bool} (h : FreeStep addr A ok A') :
    A'.blocks = A.blocks ∧ A'.owns = A.owns := by
  cases h with
  | absent _ => exact ⟨rfl, rfl⟩
  | release hr =>
      cases hr with
      | mk _ _ _ _ => exact ⟨rfl, rfl⟩
  | retain hr =>
      cases hr with
      | mk _ _ _ => exact ⟨rfl, rfl⟩

theorem WaitStep.blocks (h : WaitStep taskId key q A A') :
    A'.blocks = A.blocks ∧ A'.owns = A.owns := by
  cases h with
  | gone _ => exact ⟨rfl, rfl⟩
  | keep _ _ _ => exact ⟨rfl, rfl⟩
  | @drop d e _ _ _ _ =>
      obtain ⟨ps, hps⟩ := dropped_eq key q d.size e A
      unfold dropped at hps
      rw [hps]
      exact ⟨rfl, rfl⟩
  | @free d e _ _ _ _ _ _ hf =>
      obtain ⟨ps, hps⟩ := dropped_eq key q d.size e A
      obtain ⟨ps', hps'⟩ := eraseAllPairs_eq q (dropped key q d.size e A)
      have hb := hf.blocks
      unfold dropped at hps hps'
      rw [hps', hps] at hb
      exact hb

theorem SyncStep.blocks (h : SyncStep q A A') : A'.blocks = A.blocks ∧ A'.owns = A.owns := by
  cases h with
  | gone _ => exact ⟨rfl, rfl⟩
  | clear _ _ => exact ⟨rfl, rfl⟩
  | free _ _ _ hf => exact hf.blocks

theorem RecordStep.blocks {user mem addr : Nat} {event : DeviceEvent}
    (h : RecordStep dev taskId user event mem addr A A') :
    A'.blocks = A.blocks ∧ A'.owns = A.owns := by
  cases h with
  | absent _ => exact ⟨rfl, rfl⟩
  | record _ _ =>
      dsimp only
      split <;> exact ⟨rfl, rfl⟩

theorem Chained.blocks {α : Type} {step : α → Arena δ → Arena δ → Prop} {xs : List α}
    (h : Chained step xs A A')
    (hstep : ∀ x A A', step x A A' → A'.blocks = A.blocks ∧ A'.owns = A.owns) :
    A'.blocks = A.blocks ∧ A'.owns = A.owns :=
  h.inv (I := fun B => B.blocks = A.blocks ∧ B.owns = A.owns) ⟨rfl, rfl⟩
    fun x _ B B' hB hs => ⟨(hstep x B B' hs).1.trans hB.1, (hstep x B B' hs).2.trans hB.2⟩

theorem SyncAll.blocks (h : SyncAll dev A A') : A'.blocks = A.blocks ∧ A'.owns = A.owns := by
  cases h with
  | none _ => exact ⟨rfl, rfl⟩
  | @all A₁ _ hc =>
      have hsteps : A₁.blocks = A.blocks ∧ A₁.owns = A.owns := hc.blocks fun _ _ _ hs => hs.blocks
      exact hsteps

/-- What depends on the blocks only and survives work in the background survives
every call. -/
theorem Moves.blocks {ex : Prop} {c : Call} {P : Arena δ → Prop} (h : EventInv law vmm A)
    (hcongr : ∀ A A' : Arena δ, P A → A'.blocks = A.blocks ∧ A'.owns = A.owns → P A')
    (hpath : ∀ A A', EventInv law vmm A → P A → ReflTransGen (Background dev vmm) A A' → P A')
    (hs : Moves dev vmm ex A A' c) (hP : P A) : P A' := by
  cases c with
  | alloc size _ _ addr =>
      cases hs with
      | fail hp => exact hpath _ _ h hP hp
      | hand hp hh _ => exact hcongr _ _ (hpath _ _ h hP hp) hh.blocks
      | syncFail _ hp hsync hp' =>
          exact hpath _ _ (hsync.frame (h.path hp)).1
            (hcongr _ _ (hpath _ _ h hP hp) hsync.blocks) hp'
      | syncHand _ hp hsync hp' hh _ =>
          exact hcongr _ _ (hpath _ _ (hsync.frame (h.path hp)).1
            (hcongr _ _ (hpath _ _ h hP hp) hsync.blocks) hp') hh.blocks
  | free addr =>
      obtain ⟨ok, hf⟩ := hs
      exact hcongr _ _ hP hf.blocks
  | freePart _ _ _ => exact hs.elim
  | defrag => exact hpath _ _ h hP hs
  | record taskId user mas event =>
      exact hcongr _ _ hP (Chained.blocks hs fun _ _ _ hs => hs.blocks)
  | wait taskId user mem =>
      exact hcongr _ _ hP (Chained.blocks hs fun _ _ _ hs => hs.blocks)
  | waitMem taskId mem order =>
      exact hcongr _ _ hP (Chained.blocks hs.2 fun _ _ _ hs =>
        Chained.blocks hs fun _ _ _ hs => hs.blocks)
  | syncAllEvents => exact hcongr _ _ hP (SyncAll.blocks hs)

/-! ## The counter -/

/-- The counter is exact, up to a multiple of `2 ^ 64`. -/
def EventExact (A : Arena δ) : Prop :=
  A.env.memStat.usedByEventSize = A.bufs.sum BufData.eventSize % sizeBound

theorem EventExact.congr (h : EventExact A)
    (hstat : A'.env.memStat.usedByEventSize = A.env.memStat.usedByEventSize)
    (hw : ∀ r, Heap.weight BufData.eventSize (A'.bufs.get r) =
      Heap.weight BufData.eventSize (A.bufs.get r)) : EventExact A' := by
  unfold EventExact
  rw [hstat, Heap.sum_eq_of_weight hw]
  exact h

theorem eventSize_of_free (hb : Base law vmm 0 A) {d : BufData} (hd : A.bufs.get p = some d)
    (hst : d.status.isFree) : d.eventSize = 0 :=
  eventSize_of_quiet (hb.quiet p d hd (Nat.zero_le _) hst)

/-- Free buffers weigh nothing. -/
theorem weight_of_free (hb : Base law vmm 0 A)
    (hfree : ∀ x, A.bufs.get p = some x → x.status.isFree) :
    Heap.weight BufData.eventSize (A.bufs.get p) = 0 := by
  cases hd : A.bufs.get p with
  | none => rfl
  | some d => exact eventSize_of_free hb hd (hfree d hd)

/-- A cell whose buffer in use is the same weighs the same. -/
theorem weight_congr (hb : Base law vmm 0 A) (hb' : Base law vmm 0 A')
    (hiff : ∀ x, ¬ x.status.isFree → (A'.bufs.get p = some x ↔ A.bufs.get p = some x)) :
    Heap.weight BufData.eventSize (A'.bufs.get p) =
      Heap.weight BufData.eventSize (A.bufs.get p) := by
  by_cases hfree : ∀ x, A.bufs.get p = some x → x.status.isFree
  · rw [weight_of_free hb hfree, weight_of_free hb']
    intro x hx
    by_contra hst
    exact hst (hfree x ((hiff x hst).mp hx))
  · simp only [not_forall, exists_prop] at hfree
    obtain ⟨x, hx, hst⟩ := hfree
    rw [hx, (hiff x hst).mpr hx]

theorem EventExact.path (hb : Base law vmm 0 A) (h : EventExact A)
    (hs : ReflTransGen (Background dev vmm) A A') : EventExact A' := by
  have hc := Calm.of_path hs
  exact h.congr hc.usedByEvent fun r => weight_congr hb (hb.path hs) (hc.live_iff r)

theorem Hand.usedByEvent {size p : Nat} {k : AllocatorKey} (hh : Hand dev size p k A A') :
    A'.env.memStat.usedByEventSize = A.env.memStat.usedByEventSize := by
  have henter : ∀ (B : Arena δ) a v, (B.enter a v).env = B.env := by
    intro B a v
    unfold enter
    split <;> rfl
  cases hh with
  | mk ht hd =>
      rw [henter]
      cases ht with
      | idle _ _ _ _ => rfl
      | eager _ _ _ _ hcb =>
          obtain ⟨d', _, rfl⟩ := Pool.memMapper_eq dev hcb
          rfl

theorem EventExact.hand {size p : Nat} {k : AllocatorKey} (h : EventExact A)
    (hh : Hand dev size p k A A') : EventExact A' := by
  obtain ⟨d₀, hf⟩ := hh.frame
  refine h.congr hh.usedByEvent fun r => ?_
  rw [hf.bufs, Heap.get_modify]
  split
  · rename_i hr
    rw [hr, hf.free.1]
    rfl
  · rfl

theorem EventExact.free {addr : Nat} {ok : Bool} (hb : Base law vmm 0 A) (h : EventExact A)
    (hf : FreeStep addr A ok A') : EventExact A' := by
  cases hf with
  | absent _ => exact h
  | release hr =>
      have hb' := hb.release hr
      cases hr with
      | @mk q k x D hl hq hquiet hD =>
          have hfr := (Release.mk hl hq hquiet hD).frame hl
          refine h.congr hfr.usedByEvent fun r => ?_
          by_cases hr : r = q
          · subst hr
            rw [weight_of_free hb' hfr.self, hq]
            exact (eventSize_of_quiet hquiet).symm
          · exact weight_congr hb hb' fun x hst => hfr.other r x hr hst
  | retain hr =>
      cases hr with
      | @mk q k x hl hq _ =>
          refine h.congr rfl fun r => ?_
          show Heap.weight _ ((A.bufs.modify q _).get r) = _
          rw [Heap.get_modify]
          split
          · rename_i hr
            rw [hr, hq]
            rfl
          · rfl

theorem EventExact.record {user mem addr : Nat} {event : DeviceEvent} (hi : EventInv law vmm A)
    (h : EventExact A) (hs : RecordStep dev taskId user event mem addr A A') : EventExact A' := by
  cases (hs.frame hi).2.2 with
  | absent _ hA =>
      subst hA
      exact h
  | @record q k x hl hq hst haddr hbufs hlive hset hstat =>
      have hself : A'.bufs.get q = some { x with
          toEventBase := x.toEventBase.recordEvent taskId user event } := by
        rw [hbufs]
        exact get_setEvents hq _
      have hsum := Heap.sum_update BufData.eventSize A.bufs A'.bufs q
        fun r hr => by rw [hbufs, get_setEvents_ne hr]
      have hnew : ({ x with toEventBase := x.toEventBase.recordEvent taskId user event } :
          BufData).eventSize = x.size :=
        eventSize_of_used (EventBase.isEventNotUsed_recordEvent x.toEventBase taskId user event)
      rw [hself, hq, Heap.weight_some, Heap.weight_some, hnew] at hsum
      unfold EventExact at h ⊢
      rw [hstat]
      cases hev : x.isEventNotUsed with
      | true =>
          rw [eventSize_of_quiet hev] at hsum
          rw [if_pos rfl, h, addSize_mod]
          exact congrArg (· % sizeBound) hsum.symm
      | false =>
          rw [eventSize_of_used hev] at hsum
          rw [if_neg (by decide), h]
          congr 1
          omega

/-! ## Waiting -/

/-- A turn on a buffer with a pending event. -/
theorem EventExact.waitStep {d : BufData} (hi : EventInv law vmm A) (h : EventExact A)
    (hs : WaitStep taskId key q A A') (hq : A.bufs.get q = some d)
    (hused : d.isEventNotUsed = false) : EventExact A' := by
  obtain ⟨hf, hself⟩ := hs.frame hi
  have hsum := Heap.sum_update BufData.eventSize A.bufs A'.bufs q
    fun r hr => weight_congr hi.toBase hf.base fun x hst => hf.other r x hr hst
  rw [hq, Heap.weight_some, eventSize_of_used hused] at hsum
  have hle : d.size ≤ A.bufs.sum BufData.eventSize := by
    have := Heap.le_sum (f := BufData.eventSize) hq
    rwa [eventSize_of_used hused] at this
  -- the buffer counts no longer
  have hlower : Heap.weight BufData.eventSize (A'.bufs.get q) = 0 →
      A'.env.memStat.usedByEventSize = subSize A.env.memStat.usedByEventSize d.size →
      EventExact A' := by
    intro hw hstat
    unfold EventExact at h ⊢
    rw [hstat, h, subSize_mod hle]
    congr 1
    omega
  cases hself d hq with
  | keep hused' hget _ _ hstat =>
      rw [hget, Heap.weight_some, eventSize_of_used hused'] at hsum
      unfold EventExact at h ⊢
      rw [hstat, h]
      congr 1
      have hsum : A'.bufs.sum BufData.eventSize + d.size =
        A.bufs.sum BufData.eventSize + d.size := hsum
      omega
  | drop hquiet _ hget _ _ hstat =>
      refine hlower ?_ hstat
      rw [hget]
      exact eventSize_of_quiet hquiet
  | free _ _ hfree _ hstat => exact hlower (weight_of_free hf.base hfree) hstat

/-- A loop over buffers with pending events. -/
theorem EventExact.waits {ps : List Nat} (hi : EventInv law vmm A) (h : EventExact A)
    (hc : Chained (WaitStep taskId key) ps A A') (hnd : ps.Nodup)
    (hps : ∀ p ∈ ps, ∃ d, A.bufs.get p = some d ∧ d.isEventNotUsed = false) :
    EventExact A' := by
  induction hc with
  | nil A => exact h
  | @cons q ps A A₁ A₂ hs _ ih =>
      obtain ⟨hq, hnd⟩ := List.nodup_cons.mp hnd
      obtain ⟨d, hd, hused⟩ := hps q (List.mem_cons_self ..)
      refine ih (hi.waitStep hs) (h.waitStep hi hs hd hused) hnd fun p hp => ?_
      obtain ⟨x, hx, hx'⟩ := hps p (List.mem_cons_of_mem _ hp)
      have hpq : p ≠ q := fun heq => hq (heq ▸ hp)
      exact ⟨x, ((hs.frame hi).1.other p x hpq (hi.inUse hx hx')).mpr hx, hx'⟩

/-- A wait for task `n` on the sets of `keys` finds each member with a pending
event, whenever it comes across it. A buffer that has been freed leaves all sets
with its last event, any other one must not lose it before the last set. -/
def CountsOnce (n : Nat) (keys : List (Nat × Nat)) (A : Arena δ) : Prop :=
  ∀ key ∈ keys, ∀ p ∈ A.set key, ∃ d, A.bufs.get p = some d ∧ d.isEventNotUsed = false ∧
    (d.status = .usedByEvent ∨
      (d.toEventBase.popped n (A.held keys p).dropLast).isEventNotUsed = false)

instance (n : Nat) (keys : List (Nat × Nat)) (A : Arena δ) : Decidable (CountsOnce n keys A) :=
  decidable_of_iff (∀ key ∈ keys, ∀ p ∈ A.set key, (A.bufs.get p).any (fun d =>
      decide (d.isEventNotUsed = false ∧ (d.status = .usedByEvent ∨
        (d.toEventBase.popped n (A.held keys p).dropLast).isEventNotUsed = false))) = true) (by
    simp only [CountsOnce, Option.any_eq_true, decide_eq_true_eq])

theorem CountsOnce.waitPair {keys : List (Nat × Nat)} (hi : EventInv law vmm A)
    (hs : WaitPair taskId key A A')
    (hC : CountsOnce (Pool.toUInt32 taskId) (key :: keys) A) :
    CountsOnce (Pool.toUInt32 taskId) keys A' := by
  intro key' hkey' p hp
  have hpA := hs.mem_set hi hp
  obtain ⟨d, hd, hused, hlast⟩ := hC key' (List.mem_cons_of_mem _ hkey') p hpA
  cases hs.self hi hd (hi.inUse hd hused) with
  | untouched hmem hget hset =>
      refine ⟨d, hget, hused, hlast.imp_right fun hl => ?_⟩
      rw [held_congr fun key' _ => hset key']
      rwa [held_cons_of_not_mem hmem] at hl
  | keep hmem hused' hget hset =>
      refine ⟨_, hget, hused', hlast.imp_right fun hl => ?_⟩
      rw [held_congr fun key' _ => hset key']
      have hne : A.held keys p ≠ [] :=
        List.ne_nil_of_mem (List.mem_filter.mpr ⟨hkey', by simpa using hpA⟩)
      rw [held_cons_of_mem hmem, List.dropLast_cons_of_ne_nil hne, EventBase.popped_cons] at hl
      exact hl
  | drop hmem hquiet hne hget hset =>
      have hl := hlast.resolve_left hne
      have hne' : A.held keys p ≠ [] :=
        List.ne_nil_of_mem (List.mem_filter.mpr ⟨hkey', by simpa using hpA⟩)
      rw [held_cons_of_mem hmem, List.dropLast_cons_of_ne_nil hne', EventBase.popped_cons,
        EventBase.popped_of_isEventNotUsed hquiet, hquiet] at hl
      cases hl
  | free _ _ _ _ hset => exact absurd hp (hset key')

theorem EventExact.waitPairs {keys : List (Nat × Nat)} (hi : EventInv law vmm A)
    (h : EventExact A) (hc : Chained (WaitPair taskId) keys A A')
    (hC : CountsOnce (Pool.toUInt32 taskId) keys A) : EventExact A' := by
  induction hc with
  | nil A => exact h
  | @cons key keys A A₁ A₂ hs _ ih =>
      refine ih (hi.waitPair hs) (h.waits hi hs (hi.nodup key) fun p hp => ?_)
        (CountsOnce.waitPair hi hs hC)
      obtain ⟨d, hd, hused, _⟩ := hC key (List.mem_cons_self ..) p hp
      exact ⟨d, hd, hused⟩

/-! ## Calls -/

theorem EventExact.syncAll (hi : EventInv law vmm A) (h : EventExact A)
    (hquiet : ∀ p, A.QuietAt p) (hs : SyncAll dev A A') : EventExact A' := by
  obtain ⟨_, hquiet', _, hstat⟩ := hs.frame hi
  have hzero : ∀ {B : Arena δ}, (∀ p, B.QuietAt p) → ∀ r,
      Heap.weight BufData.eventSize (B.bufs.get r) = 0 := by
    intro B hB r
    cases hr : B.bufs.get r with
    | none => rfl
    | some d => exact eventSize_of_quiet (hB r d hr)
  exact h.congr hstat fun r => by rw [hzero hquiet', hzero hquiet]

theorem QuietAt.path (hb : Base law vmm 0 A) (h : ∀ p, A.QuietAt p)
    (hs : ReflTransGen (Background dev vmm) A A') (p : Nat) : A'.QuietAt p := by
  intro d hd
  by_cases hst : d.status.isFree
  · exact (hb.path hs).quiet p d hd (Nat.zero_le _) hst
  · exact h p d (((Calm.of_path hs).live_iff p d hst).mp hd)

/-- A call after which the counter is still exact: waits count every buffer once,
and events are synced only when none is pending. -/
def CountsCall (ex : Prop) (A : Arena δ) : Call → Prop
  | .wait taskId user mem => CountsOnce (Pool.toUInt32 taskId) [(user, mem)] A
  | .waitMem taskId mem order =>
      CountsOnce (Pool.toUInt32 taskId) (order.filter fun key => decide (key.2 = mem)) A
  | .syncAllEvents => ∀ p, A.QuietAt p
  | .alloc _ _ _ _ => ex → ∀ p, A.QuietAt p
  | _ => True

instance (A : Arena δ) : Decidable (∀ p, A.QuietAt p) :=
  decidable_of_iff (∀ p ∈ List.range A.bufs.next, ∀ d ∈ A.bufs.get p, d.isEventNotUsed = true)
    Heap.forall_get_iff

instance (ex : Prop) [Decidable ex] (A : Arena δ) : DecidablePred (CountsCall ex A)
  | .wait taskId user mem =>
      inferInstanceAs (Decidable (CountsOnce (Pool.toUInt32 taskId) [(user, mem)] A))
  | .waitMem taskId mem order =>
      inferInstanceAs (Decidable (CountsOnce (Pool.toUInt32 taskId)
        (order.filter fun key => decide (key.2 = mem)) A))
  | .syncAllEvents => inferInstanceAs (Decidable (∀ p, A.QuietAt p))
  | .alloc _ _ _ _ => inferInstanceAs (Decidable (ex → ∀ p, A.QuietAt p))
  | .free _ => isTrue trivial
  | .freePart _ _ _ => isTrue trivial
  | .defrag => isTrue trivial
  | .record _ _ _ _ => isTrue trivial

theorem EventExact.moves {ex : Prop} {c : Call} (hi : EventInv law vmm A) (h : EventExact A)
    (hc : CountsCall ex A c) (hs : Moves dev vmm ex A A' c) : EventExact A' := by
  cases c with
  | alloc size _ _ addr =>
      cases hs with
      | fail hpath => exact h.path hi.toBase hpath
      | hand hpath hh _ => exact (h.path hi.toBase hpath).hand hh
      | syncFail hex hpath hsync hpath' =>
          have hi₁ := hi.path hpath
          exact ((h.path hi.toBase hpath).syncAll hi₁ (QuietAt.path hi.toBase (hc hex) hpath)
            hsync).path (hsync.frame hi₁).1.toBase hpath'
      | syncHand hex hpath hsync hpath' hh _ =>
          have hi₁ := hi.path hpath
          have hi₂ := (hsync.frame hi₁).1
          exact (((h.path hi.toBase hpath).syncAll hi₁ (QuietAt.path hi.toBase (hc hex) hpath)
            hsync).path hi₂.toBase hpath').hand hh
  | free addr =>
      obtain ⟨ok, hf⟩ := hs
      exact h.free hi.toBase hf
  | freePart _ _ _ => exact hs.elim
  | defrag => exact h.path hi.toBase hs
  | record taskId user mas event =>
      exact (Chained.inv (I := fun B => EventInv law vmm B ∧ EventExact B) hs ⟨hi, h⟩
        fun _ _ _ _ hB hs => ⟨hB.1.recordStep hs, hB.2.record hB.1 hs⟩).2
  | wait taskId user mem => exact h.waitPairs hi (.cons hs (.nil _)) hc
  | waitMem taskId mem order => exact h.waitPairs hi hs.2 hc
  | syncAllEvents => exact h.syncAll hi hc hs

end Arena

namespace Pool

variable {law : DeviceLaw dev} {s s' : Pool δ}

instance (size : Nat) (fromPersistentMem : Bool) (streamId : Nat) (s : Pool δ) :
    Decidable (Exhausts dev size fromPersistentMem streamId s) :=
  match h : findMemBuf dev size fromPersistentMem streamId s with
  | some (.exhausted k, s₁) => isTrue ⟨k, s₁, h⟩
  | some (.found _ _, _) => isFalse fun ⟨_, _, h'⟩ => by rw [h] at h'; cases h'
  | some (.syncFailed, _) => isFalse fun ⟨_, _, h'⟩ => by rw [h] at h'; cases h'
  | none => isFalse fun ⟨_, _, h'⟩ => by rw [h] at h'; cases h'

instance (s : Pool δ) : DecidablePred (exhausts dev s)
  | .alloc size fromPersistentMem streamId _ =>
      inferInstanceAs (Decidable (Exhausts dev (alignMemorySize size) fromPersistentMem streamId s))
  | .free _ => isFalse id
  | .freePart _ _ _ => isFalse id
  | .defrag => isFalse id
  | .record _ _ _ _ => isFalse id
  | .wait _ _ _ => isFalse id
  | .waitMem _ _ _ => isFalse id
  | .syncAllEvents => isFalse id

theorem Placed.step (hdis : law.Disjoint) (hbd : dev.Bounded) {c : Call} (h : Placed law s)
    (hi : EventsOk law s) (hc : wholeCall c) (hs : Step dev s c s') : Placed law s' := by
  have hd := moves_of_step h.inv hc hs
  refine ⟨hd.inv, ?_, ?_⟩
  · exact hd.step.blocks (P := Arena.Spread) hi.events (fun _ _ hP hb => hP.congr hb.1 hb.2)
      (fun _ _ hA hP hpath => hP.path hdis hA.toBase hpath) h.spread
  · exact hd.step.blocks (P := Arena.InSpace) hi.events (fun _ _ hP hb => hP.congr hb.1 hb.2)
      (fun _ _ _ hP hpath => hP.path hbd hpath) h.inSpace

/-- In every run in which waits count every buffer once and events are synced
only when none is pending, `used_by_event_size_` is the total size of the buffers
with a pending event. -/
theorem used_by_event_size_exact (law : DeviceLaw dev) (hdis : law.Disjoint)
    (hbd : dev.Bounded) (enableVmm enableTiny : Bool) (d : δ) (calls : List Call)
    (hrun : Run (fun s c s' => Step dev s c s' ∧ wholeCall c ∧
      s.arena.CountsCall (exhausts dev s c) c) (Pool.init enableVmm enableTiny d) calls s) :
    s.memStat.usedByEventSize =
      s.bufs.sum fun b => if b.status.isFree ∨ b.isEventNotUsed = true then 0 else b.size := by
  have hinv : EventsOk law s ∧ Placed law s ∧ s.arena.EventExact := by
    refine hrun.state_inv (I := fun s => EventsOk law s ∧ Placed law s ∧ s.arena.EventExact)
      ⟨EventsOk.init law enableVmm enableTiny d, Placed.init law enableVmm enableTiny d, rfl⟩ ?_
    rintro s c s' ⟨h, hp, hex⟩ ⟨hs, hc, hcount⟩
    exact ⟨h.step hc hs, hp.step hdis hbd h hc hs,
      hex.moves h.events hcount (moves_of_step h.inv hc hs).step⟩
  obtain ⟨h, hp, hex⟩ := hinv
  have hle : s.arena.bufs.sum BufData.eventSize ≤ s.arena.bufs.sum BufData.size :=
    Heap.sum_le_sum fun _ x _ => eventSize_le x
  have hlt := hp.sum_size_lt
  have hex : s.memStat.usedByEventSize = s.arena.bufs.sum BufData.eventSize % sizeBound := hex
  rw [hex, Nat.mod_eq_of_lt (by omega)]
  show (s.bufs.map MemBuf.data).sum _ = _
  rw [Heap.sum_map]
  refine Heap.sum_congr fun p b hb => ?_
  by_cases hst : b.status.isFree
  · rw [if_pos (.inl hst)]
    exact Arena.eventSize_of_free h.inv.base (dataOf_get hb) hst
  · unfold BufData.eventSize
    simp only [hst, false_or]
    rfl

/-- Two buffers with events, one of them freed and waited for. -/
theorem used_by_event_size_exact_two :
    ∃ calls s, Run (fun s c s' => Step (linearDevice false true) s c s' ∧ wholeCall c ∧
        s.arena.CountsCall (exhausts (linearDevice false true) s c) c)
        (Pool.init false false (LinearState.init 0)) calls s ∧
      s.memStat.usedByEventSize = 512 ∧
      s.memStat.usedByEventSize = s.bufs.sum fun b =>
        if b.status.isFree ∨ b.isEventNotUsed = true then 0 else b.size := by
  let calls : List Call := [.alloc 1000 false 0 512, .alloc 512 false 0 1536,
    .record 3 1 [(0, 512), (0, 1536)] 7, .record 9 1 [(0, 1536)] 8, .free 512, .wait 3 1 0]
  have hexec : ((exec (linearDevice false true) (fun s c => wholeCall c ∧
      s.arena.CountsCall (exhausts (linearDevice false true) s c) c)
      (Pool.init false false (LinearState.init 0)) calls).map
        fun s => s.memStat.usedByEventSize) = some 512 := by
    decide +kernel
  obtain ⟨s, hs, heq⟩ := Option.map_eq_some_iff.mp hexec
  exact ⟨calls, s, run_of_exec hs, heq, used_by_event_size_exact (linearLaw false true)
    (linearLaw_disjoint false true) (linearDevice_bounded false true) false false _ calls
    (run_of_exec hs)⟩

/-- A sync clears the event of a buffer and the counter keeps its size. -/
theorem sync_keeps_used_by_event_size :
    ∃ s, Run (fun s c s' => Step (linearDevice false true) s c s' ∧ wholeCall c)
        (Pool.init false false (LinearState.init 0))
        [.alloc 1000 false 0 512, .record 3 1 [(0, 512)] 7, .syncAllEvents] s ∧
      s.memStat.usedByEventSize = 1024 ∧
      (s.bufs.sum fun b =>
        if b.status.isFree ∨ b.isEventNotUsed = true then 0 else b.size) = 0 := by
  have hexec : ((exec (linearDevice false true) (fun _ => wholeCall)
      (Pool.init false false (LinearState.init 0))
      [.alloc 1000 false 0 512, .record 3 1 [(0, 512)] 7, .syncAllEvents]).map fun s =>
        (s.memStat.usedByEventSize, s.bufs.sum fun b =>
          if b.status.isFree ∨ b.isEventNotUsed = true then 0 else b.size)) =
      some (1024, 0) := by
    decide +kernel
  obtain ⟨s, hs, heq⟩ := Option.map_eq_some_iff.mp hexec
  exact ⟨s, run_of_exec hs, congrArg Prod.fst heq, congrArg Prod.snd heq⟩

end Pool

end Ccbase.Memory

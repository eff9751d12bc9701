import Ccbase.Lib.Heap
import Ccbase.Lib.OrdMap

/-!
# The events of `EventLoop`

`events_` holds one `Event` object for each registered fd, and a batch from
epoll holds pointers to such objects. `DeleteEpollEvent` keeps the object it
takes out in `deleted_events_`, where `HandleEvent` looks before it calls a
handler; `SetEventHandler` on an fd that is registered destroys the old object
at once. `epoll_ctl` answers `0` or `-1`, so the branch for `ret > 0` is never
taken.

An access to an object that has been destroyed has no result. `HandleEvent`
never makes one, and never calls the handler of an event that was removed or
replaced earlier in the batch, exactly if no handler replaces an event whose
turn in the batch is still to come.
-/

namespace Ccbase.Net

open Ccbase.Lib

/-- The `handler` and `data` of an event are not looked at. -/
structure Event where
  fd : Int
  handler : Nat
  deriving DecidableEq, Repr

structure EventLoop where
  objects : Heap Event := Heap.empty
  events : OrdMap Int Nat := OrdMap.empty
  deletedEvents : OrdMap Int (List Nat) := OrdMap.empty

/-- What a handler does with the loop. -/
inductive HandlerCall where
  | setEventHandler (fd : Int) (handler : Nat)
  | deleteEpollEvent (fd : Int)

/-- What happens to the events during a batch. -/
inductive Happening where
  | invoked (p : Nat)
  | removed (p : Nat)
  | replaced (p : Nat)
  deriving DecidableEq, Repr

namespace EventLoop

/-- `DeleteEvent`: the object is destroyed. -/
def deleteEvent (fd : Int) (s : EventLoop) : EventLoop × List Happening :=
  match s.events.find? fd with
  | none => (s, [])
  | some p =>
      ({ s with objects := s.objects.delete p, events := s.events.erase fd }, [.replaced p])

def addEvent (p : Nat) (event : Event) (s : EventLoop) : EventLoop × List Happening :=
  let (s, hs) := s.deleteEvent event.fd
  ({ s with events := s.events.emplace event.fd p }, hs)

def setEventHandler (fd : Int) (handler : Nat) (s : EventLoop) : EventLoop × List Happening :=
  let evdata : Event := { fd, handler }
  addEvent s.objects.next evdata { s with objects := s.objects.new evdata }

/-- `AddDeletedEvent`, for the event of `fd`. -/
def addDeletedEvent (fd : Int) (p : Nat) (s : EventLoop) : EventLoop :=
  match s.deletedEvents.find? fd with
  | none => { s with deletedEvents := s.deletedEvents.insert fd [p] }
  | some deleted =>
      if p ∈ deleted then s
      else { s with deletedEvents := s.deletedEvents.insert fd (deleted ++ [p]) }

/-- The event that is found is read for its fd. -/
def deleteEpollEvent (fd : Int) (s : EventLoop) : Option (EventLoop × List Happening) :=
  match s.events.find? fd with
  | none => some (s, [])
  | some tev => do
      let event ← s.objects.get tev
      some (addDeletedEvent event.fd tev { s with events := s.events.erase event.fd },
        [.removed tev])

def call (s : EventLoop) : HandlerCall → Option (EventLoop × List Happening)
  | .setEventHandler fd handler => some (s.setEventHandler fd handler)
  | .deleteEpollEvent fd => s.deleteEpollEvent fd

/-- The calls of one handler, in order. -/
def callAll : List HandlerCall → EventLoop → Option (EventLoop × List Happening)
  | [], s => some (s, [])
  | c :: cs, s => do
      let (s, hs) ← s.call c
      let (s, hs') ← callAll cs s
      some (s, hs ++ hs')

def findDeletedEvent (tev : Nat) (event : Event) (s : EventLoop) : Bool :=
  match s.deletedEvents.find? event.fd with
  | none => false
  | some deleted => decide (tev ∈ deleted)

/-- An entry of a batch: the pointer epoll gives back, and the calls its handler
makes if it is invoked. -/
structure BatchEntry where
  ptr : Option Nat
  calls : List HandlerCall

def handleEvent : List BatchEntry → EventLoop → Option (EventLoop × List Happening)
  | [], s => some (s, [])
  | entry :: batch, s =>
      match entry.ptr with
      | none => handleEvent batch s
      | some tev => do
          let event ← s.objects.get tev
          if s.findDeletedEvent tev event then handleEvent batch s
          else do
            let (s, hs) ← callAll entry.calls s
            let (s, hs') ← handleEvent batch s
            some (s, .invoked tev :: hs ++ hs')

/-! ## What the batch has to respect -/

/-- The events whose turn is still to come. -/
def pointers (batch : List BatchEntry) : List Nat := batch.filterMap BatchEntry.ptr

/-- A handler call replaces no event of the rest of the batch. -/
def KeepsEvents (rest : List Nat) (s : EventLoop) : HandlerCall → Prop
  | .setEventHandler fd _ => ∀ p, s.events.find? fd = some p → p ∉ rest
  | .deleteEpollEvent _ => True

/-- None of the calls of one handler does. -/
def CallsKeep (rest : List Nat) : List HandlerCall → EventLoop → Prop
  | [], _ => True
  | c :: cs, s => KeepsEvents rest s c ∧ ∀ s' hs, s.call c = some (s', hs) → CallsKeep rest cs s'

/-- No handler of the batch does. -/
def BatchKeeps : List BatchEntry → EventLoop → Prop
  | [], _ => True
  | entry :: batch, s =>
      match entry.ptr with
      | none => BatchKeeps batch s
      | some tev => ∀ event, s.objects.get tev = some event →
          if s.findDeletedEvent tev event then BatchKeeps batch s
          else CallsKeep (pointers batch) entry.calls s ∧
            ∀ s' hs, callAll entry.calls s = some (s', hs) → BatchKeeps batch s'

/-- The batch is processed without an access to a destroyed event, and no
handler is called for an event after it has been removed or replaced. -/
def Handled (batch : List BatchEntry) (s : EventLoop) : Prop :=
  ∃ s' hs, handleEvent batch s = some (s', hs) ∧
    ∀ pre p post, hs = pre ++ .invoked p :: post → .removed p ∉ pre ∧ .replaced p ∉ pre

/-- Events are registered under their fd, and objects in `deleted_events_` are
alive. -/
structure WellFormed (s : EventLoop) : Prop where
  registered : ∀ fd p, s.events.find? fd = some p →
    ∃ event, s.objects.get p = some event ∧ event.fd = fd
  deleted : ∀ fd ps, s.deletedEvents.find? fd = some ps → ∀ p ∈ ps,
    (∃ event, s.objects.get p = some event) ∧ ∀ fd', s.events.find? fd' ≠ some p

/-! ## One call of a handler -/

/-- The event at `p` is among the deleted ones. -/
def IsDeleted (s : EventLoop) (p : Nat) : Prop :=
  ∃ event, s.objects.get p = some event ∧ s.findDeletedEvent p event = true

variable {s s' : EventLoop} {hs : List Happening} {p : Nat} {fd : Int}

theorem findDeletedEvent_iff {event : Event} :
    s.findDeletedEvent p event = true ↔
      ∃ ps, s.deletedEvents.find? event.fd = some ps ∧ p ∈ ps := by
  unfold findDeletedEvent
  cases hf : s.deletedEvents.find? event.fd with
  | none => simp
  | some ps => simp

/-- What a call of a handler can do. -/
inductive CallEffect (s : EventLoop) : HandlerCall → EventLoop → List Happening → Prop where
  | register {fd : Int} {handler : Nat} (hnone : s.events.find? fd = none) :
      CallEffect s (.setEventHandler fd handler)
        { s with objects := s.objects.new { fd, handler }
                 events := s.events.insert fd s.objects.next } []
  | replace {fd : Int} {handler p : Nat} (hp : s.events.find? fd = some p) :
      CallEffect s (.setEventHandler fd handler)
        { s with objects := (s.objects.new { fd, handler }).delete p
                 events := (s.events.erase fd).insert fd s.objects.next } [.replaced p]
  | nothing {fd : Int} (hnone : s.events.find? fd = none) :
      CallEffect s (.deleteEpollEvent fd) s []
  | remove {fd : Int} {p : Nat} (hp : s.events.find? fd = some p) :
      CallEffect s (.deleteEpollEvent fd)
        (addDeletedEvent fd p { s with events := s.events.erase fd }) [.removed p]

theorem WellFormed.call (hw : s.WellFormed) (c : HandlerCall) :
    ∃ s' hs, s.call c = some (s', hs) ∧ CallEffect s c s' hs := by
  cases c with
  | setEventHandler fd handler =>
      cases hf : s.events.find? fd with
      | none =>
          refine ⟨_, _, ?_, .register hf⟩
          simp [EventLoop.call, setEventHandler, addEvent, deleteEvent, hf, OrdMap.emplace]
      | some p =>
          refine ⟨_, _, ?_, .replace hf⟩
          have hnone : (s.events.erase fd).find? fd = none := by
            rw [OrdMap.find?_erase, if_pos rfl]
          simp [EventLoop.call, setEventHandler, addEvent, deleteEvent, hf, OrdMap.emplace, hnone]
  | deleteEpollEvent fd =>
      cases hf : s.events.find? fd with
      | none => exact ⟨_, _, by simp [EventLoop.call, deleteEpollEvent, hf], .nothing hf⟩
      | some p =>
          obtain ⟨event, hget, hfd⟩ := hw.registered fd p hf
          refine ⟨_, _, ?_, .remove hf⟩
          simp [EventLoop.call, deleteEpollEvent, hf, hget, hfd]

theorem addDeletedEvent_find? (fd : Int) (p : Nat) (s : EventLoop) :
    ∃ ps, (addDeletedEvent fd p s).deletedEvents.find? fd = some ps ∧ p ∈ ps ∧
      (∀ q ∈ ps, q = p ∨ ∃ qs, s.deletedEvents.find? fd = some qs ∧ q ∈ qs) ∧
      (∀ qs, s.deletedEvents.find? fd = some qs → ∀ q ∈ qs, q ∈ ps) ∧
      ∀ fd', fd' ≠ fd →
        (addDeletedEvent fd p s).deletedEvents.find? fd' = s.deletedEvents.find? fd' := by
  unfold addDeletedEvent
  cases hf : s.deletedEvents.find? fd with
  | none =>
      refine ⟨[p], ?_, by simp, fun q hq => .inl (List.mem_singleton.mp hq),
        fun qs hqs => (by cases hqs), fun fd' hne => ?_⟩
      · rw [OrdMap.find?_insert, if_pos rfl]
      · rw [OrdMap.find?_insert, if_neg hne]
  | some qs =>
      dsimp only
      split
      · rename_i hmem
        exact ⟨qs, hf, hmem, fun q hq => .inr ⟨qs, rfl, hq⟩,
          fun _ h => (by cases h; exact fun q hq => hq), fun _ _ => rfl⟩
      · refine ⟨qs ++ [p], ?_, by simp, fun q hq => ?_, fun _ h => ?_, fun fd' hne => ?_⟩
        · rw [OrdMap.find?_insert, if_pos rfl]
        · rcases List.mem_append.mp hq with hq | hq
          · exact .inr ⟨qs, rfl, hq⟩
          · exact .inl (List.mem_singleton.mp hq)
        · cases h
          exact fun q hq => List.mem_append_left _ hq
        · rw [OrdMap.find?_insert, if_neg hne]

theorem addDeletedEvent_frame (fd : Int) (p : Nat) (s : EventLoop) :
    (addDeletedEvent fd p s).objects = s.objects ∧
      (addDeletedEvent fd p s).events = s.events := by
  unfold addDeletedEvent
  split
  · exact ⟨rfl, rfl⟩
  · split <;> exact ⟨rfl, rfl⟩

theorem CallEffect.wellFormed {c : HandlerCall} (hw : s.WellFormed)
    (h : CallEffect s c s' hs) : s'.WellFormed := by
  cases h with
  | nothing => exact hw
  | @register fd handler hnone =>
      refine ⟨fun fd' q hq => ?_, fun fd' ps hps q hq => ?_⟩
      · rw [OrdMap.find?_insert] at hq
        split at hq
        · rename_i heq
          cases hq
          exact ⟨_, Heap.get_new_self _ _, heq.symm⟩
        · obtain ⟨event, hget, hfd⟩ := hw.registered fd' q hq
          exact ⟨event, (Heap.get_new _ _ _).trans ((if_neg (Heap.ne_next hget)).trans hget), hfd⟩
      · obtain ⟨⟨event, hget⟩, hnot⟩ := hw.deleted fd' ps hps q hq
        refine ⟨⟨event, (Heap.get_new _ _ _).trans ((if_neg (Heap.ne_next hget)).trans hget)⟩,
          fun fd'' heq => ?_⟩
        rw [OrdMap.find?_insert] at heq
        split at heq
        · exact Heap.ne_next hget (Option.some.inj heq).symm
        · exact hnot fd'' heq
  | @replace fd handler p hp =>
      obtain ⟨old, hold, hfd⟩ := hw.registered fd p hp
      -- an object that is not the old one is as before
      have hget : ∀ q event, s.objects.get q = some event → q ≠ p →
          ((s.objects.new { fd, handler }).delete p).get q = some event := by
        intro q event hq hne
        rw [Heap.get_delete_ne _ hne, Heap.get_new, if_neg (Heap.ne_next hq), hq]
      refine ⟨fun fd' q hq => ?_, fun fd' ps hps q hq => ?_⟩
      · rw [OrdMap.find?_insert, OrdMap.find?_erase] at hq
        split at hq
        · rename_i heq
          cases hq
          refine ⟨{ fd, handler }, ?_, heq.symm⟩
          rw [Heap.get_delete_ne _ (Heap.ne_next hold).symm]
          exact Heap.get_new_self _ _
        · rename_i hne
          obtain ⟨event, hq', hfd'⟩ := hw.registered fd' q hq
          refine ⟨event, hget q event hq' ?_, hfd'⟩
          rintro rfl
          rw [hold] at hq'
          cases hq'
          exact hne (hfd'.symm.trans hfd)
      · obtain ⟨⟨event, hq'⟩, hnot⟩ := hw.deleted fd' ps hps q hq
        refine ⟨⟨event, hget q event hq' fun heq => hnot fd (heq ▸ hp)⟩, fun fd'' heq => ?_⟩
        rw [OrdMap.find?_insert, OrdMap.find?_erase] at heq
        split at heq
        · exact Heap.ne_next hq' (Option.some.inj heq).symm
        · exact hnot fd'' heq
  | @remove fd p hp =>
      obtain ⟨old, hold, hfd⟩ := hw.registered fd p hp
      obtain ⟨hobj, hev⟩ := addDeletedEvent_frame fd p { s with events := s.events.erase fd }
      have hreg : ∀ fd' q, (s.events.erase fd).find? fd' = some q →
          s.events.find? fd' = some q ∧ fd' ≠ fd := by
        intro fd' q hq
        rw [OrdMap.find?_erase] at hq
        split at hq
        · cases hq
        · rename_i hne
          exact ⟨hq, hne⟩
      refine ⟨fun fd' q hq => ?_, fun fd' ps hps q hq => ?_⟩
      · rw [hev] at hq
        rw [hobj]
        exact hw.registered fd' q (hreg fd' q hq).1
      · rw [hobj, hev]
        have hkeep : (∃ qs, s.deletedEvents.find? fd' = some qs ∧ q ∈ qs) →
            (∃ event, s.objects.get q = some event) ∧
              ∀ fd'', (s.events.erase fd).find? fd'' ≠ some q := by
          rintro ⟨qs, hqs, hmem⟩
          obtain ⟨hlive, hnot⟩ := hw.deleted fd' qs hqs q hmem
          exact ⟨hlive, fun fd'' heq => hnot fd'' (hreg fd'' q heq).1⟩
        obtain ⟨ps', hps', hmem, hold', -, hother⟩ :=
          addDeletedEvent_find? fd p { s with events := s.events.erase fd }
        by_cases hfd' : fd' = fd
        · subst hfd'
          rw [hps] at hps'
          cases hps'
          rcases hold' q hq with rfl | hqs
          · refine ⟨⟨old, hold⟩, fun fd'' heq => ?_⟩
            obtain ⟨heq, hne⟩ := hreg fd'' q heq
            obtain ⟨event, hget, hfd''⟩ := hw.registered fd'' q heq
            rw [hold] at hget
            cases hget
            exact hne (hfd''.symm.trans hfd)
          · exact hkeep hqs
        · rw [hother fd' hfd'] at hps
          exact hkeep ⟨ps, hps, hq⟩

/-- The events that are gone after some happenings. -/
def goneAfter (gone : List Nat) (hs : List Happening) : List Nat :=
  hs.foldl (fun gone h => match h with
    | .removed p => p :: gone
    | .replaced p => p :: gone
    | .invoked _ => gone) gone

/-- The events to come: each is registered and not gone, or among the deleted
ones. -/
def Ready (gone rest : List Nat) (s : EventLoop) : Prop :=
  ∀ p ∈ rest, ((∃ fd, s.events.find? fd = some p) ∧ p ∉ gone) ∨ s.IsDeleted p

theorem CallEffect.ready {c : HandlerCall} {gone rest : List Nat} (hw : s.WellFormed)
    (h : CallEffect s c s' hs) (hkeep : KeepsEvents rest s c) (hr : Ready gone rest s) :
    Ready (goneAfter gone hs) rest s' := by
  intro q hq
  cases h with
  | nothing => exact hr q hq
  | @register fd handler hnone =>
      rcases hr q hq with ⟨⟨fd', hreg⟩, hgone⟩ | ⟨event, hget, hdel⟩
      · refine .inl ⟨⟨fd', ?_⟩, hgone⟩
        have hne : fd' ≠ fd := by
          rintro rfl
          rw [hnone] at hreg
          cases hreg
        rw [OrdMap.find?_insert, if_neg hne, hreg]
      · exact .inr ⟨event, (Heap.get_new _ _ _).trans ((if_neg (Heap.ne_next hget)).trans hget),
          hdel⟩
  | @replace fd handler p hp =>
      have hqp : q ≠ p := fun heq => hkeep p hp (heq ▸ hq)
      rcases hr q hq with ⟨⟨fd', hreg⟩, hgone⟩ | ⟨event, hget, hdel⟩
      · refine .inl ⟨⟨fd', ?_⟩, ?_⟩
        · have hne : fd' ≠ fd := by
            rintro rfl
            rw [hp] at hreg
            exact hqp (Option.some.inj hreg).symm
          rw [OrdMap.find?_insert, if_neg hne, OrdMap.find?_erase, if_neg hne, hreg]
        · exact fun hmem => (List.mem_cons.mp hmem).elim hqp hgone
      · refine .inr ⟨event, ?_, hdel⟩
        rw [Heap.get_delete_ne _ hqp, Heap.get_new, if_neg (Heap.ne_next hget), hget]
  | @remove fd p hp =>
      obtain ⟨old, hold, hfd⟩ := hw.registered fd p hp
      obtain ⟨hobj, hev⟩ := addDeletedEvent_frame fd p { s with events := s.events.erase fd }
      obtain ⟨ps, hps, hmem, -, hkept, hother⟩ :=
        addDeletedEvent_find? fd p { s with events := s.events.erase fd }
      by_cases hqp : q = p
      · subst hqp
        refine .inr ⟨old, (congrArg (Heap.get · q) hobj).trans hold, findDeletedEvent_iff.mpr ?_⟩
        rw [hfd]
        exact ⟨ps, hps, hmem⟩
      rcases hr q hq with ⟨⟨fd', hreg⟩, hgone⟩ | ⟨event, hget, hdel⟩
      · refine .inl ⟨⟨fd', ?_⟩, ?_⟩
        · have hne : fd' ≠ fd := by
            rintro rfl
            rw [hp] at hreg
            exact hqp (Option.some.inj hreg).symm
          rw [hev, OrdMap.find?_erase, if_neg hne, hreg]
        · exact fun hmem => (List.mem_cons.mp hmem).elim hqp hgone
      · refine .inr ⟨event, (congrArg (Heap.get · q) hobj).trans hget,
          findDeletedEvent_iff.mpr ?_⟩
        obtain ⟨qs, hqs, hqmem⟩ := findDeletedEvent_iff.mp hdel
        by_cases hfd' : event.fd = fd
        · rw [hfd'] at hqs ⊢
          exact ⟨ps, hps, hkept qs hqs q hqmem⟩
        · rw [hother event.fd hfd']
          exact ⟨qs, hqs, hqmem⟩

/-- Destroyed objects stay destroyed, and no object is made in their place. -/
theorem CallEffect.destroyed {c : HandlerCall} (h : CallEffect s c s' hs)
    (hp : s.objects.get p = none) (hlt : p < s.objects.next) :
    s'.objects.get p = none ∧ p < s'.objects.next := by
  cases h with
  | nothing => exact ⟨hp, hlt⟩
  | register =>
      exact ⟨(Heap.get_new _ _ _).trans ((if_neg (Nat.ne_of_lt hlt)).trans hp),
        Nat.lt_succ_of_lt hlt⟩
  | @replace fd handler q hq =>
      refine ⟨?_, Nat.lt_succ_of_lt hlt⟩
      rw [Heap.get_delete]
      split
      · rfl
      · rw [Heap.get_new, if_neg (Nat.ne_of_lt hlt), hp]
  | @remove fd q hq =>
      obtain ⟨hobj, -⟩ := addDeletedEvent_frame fd q { s with events := s.events.erase fd }
      rw [hobj]
      exact ⟨hp, hlt⟩

/-! ## The calls of one handler -/

theorem goneAfter_append (gone : List Nat) (hs hs' : List Happening) :
    goneAfter gone (hs ++ hs') = goneAfter (goneAfter gone hs) hs' := List.foldl_append

/-- No handler is called in between. -/
def NoneInvoked (hs : List Happening) : Prop := ∀ p, .invoked p ∉ hs

theorem CallEffect.noneInvoked {c : HandlerCall} (h : CallEffect s c s' hs) :
    NoneInvoked hs := by
  intro p
  cases h <;> simp

theorem WellFormed.callAll (cs : List HandlerCall) : ∀ {s : EventLoop}, s.WellFormed →
    ∃ s' hs, EventLoop.callAll cs s = some (s', hs) ∧ s'.WellFormed ∧ NoneInvoked hs ∧
      (∀ gone rest, CallsKeep rest cs s → Ready gone rest s →
        Ready (goneAfter gone hs) rest s') ∧
      (∀ p, s.objects.get p = none → p < s.objects.next →
        s'.objects.get p = none ∧ p < s'.objects.next) ∧
      (∀ rest, ¬ CallsKeep rest cs s →
        ∃ p ∈ rest, s'.objects.get p = none ∧ p < s'.objects.next) := by
  induction cs with
  | nil =>
      intro s hw
      exact ⟨s, [], rfl, hw, fun p h => (by cases h), fun _ _ _ hr => hr, fun p h h' => ⟨h, h'⟩,
        fun rest h => absurd trivial h⟩
  | cons c cs ih =>
      intro s hw
      obtain ⟨s₁, hs₁, hcall, heff⟩ := hw.call c
      obtain ⟨s', hs', hall, hw', hinv, hready, hdead, hlost⟩ := ih (heff.wellFormed hw)
      refine ⟨s', hs₁ ++ hs', ?_, hw', fun p hp => ?_, fun gone rest hk hr => ?_,
        fun p hp hlt => ?_, fun rest hk => ?_⟩
      · simp [EventLoop.callAll, hcall, hall]
      · rcases List.mem_append.mp hp with hp | hp
        · exact heff.noneInvoked p hp
        · exact hinv p hp
      · rw [goneAfter_append]
        exact hready _ rest (hk.2 s₁ hs₁ hcall) (heff.ready hw hk.1 hr)
      · obtain ⟨hp, hlt⟩ := heff.destroyed hp hlt
        exact hdead p hp hlt
      · by_cases hone : KeepsEvents rest s c
        · refine hlost rest fun hk' => hk ⟨hone, fun s₂ hs₂ h₂ => ?_⟩
          rw [hcall] at h₂
          cases h₂
          exact hk'
        · -- the event that is replaced is destroyed
          cases c with
          | deleteEpollEvent fd => exact absurd trivial hone
          | setEventHandler fd handler =>
              simp only [KeepsEvents, not_forall, not_not] at hone
              obtain ⟨p, hp, hmem⟩ := hone
              obtain ⟨event, hget, -⟩ := hw.registered fd p hp
              cases heff with
              | register hnone =>
                  rw [hp] at hnone
                  cases hnone
              | @replace _ _ q hq =>
                  rw [hp] at hq
                  cases hq
                  have hgone : ((s.objects.new { fd, handler }).delete p).get p = none ∧
                      p < ((s.objects.new { fd, handler }).delete p).next :=
                    ⟨Heap.get_delete_self _ _, Nat.lt_succ_of_lt (Heap.lt_next hget)⟩
                  exact ⟨p, hmem, hdead p hgone.1 hgone.2⟩

/-! ## The batch -/

/-- A destroyed event in the rest of the batch: its turn has no result. -/
theorem handleEvent_destroyed (batch : List BatchEntry) : ∀ {s : EventLoop}, s.WellFormed →
    (∃ p ∈ pointers batch, s.objects.get p = none ∧ p < s.objects.next) →
    handleEvent batch s = none := by
  induction batch with
  | nil =>
      rintro s hw ⟨p, hp, -⟩
      cases hp
  | cons entry batch ih =>
      rintro s hw ⟨p, hp, hget, hlt⟩
      simp only [handleEvent]
      cases hptr : entry.ptr with
      | none =>
          refine ih hw ⟨p, ?_, hget, hlt⟩
          simpa [pointers, List.filterMap_cons, hptr] using hp
      | some tev =>
          simp only [pointers, List.filterMap_cons, hptr, List.mem_cons] at hp
          cases htev : s.objects.get tev with
          | none => simp [htev]
          | some event =>
              have hp : p ∈ pointers batch := by
                rcases hp with rfl | hp
                · rw [hget] at htev
                  cases htev
                · exact hp
              obtain ⟨s', hs, hall, hw', -, -, hdead, -⟩ := hw.callAll entry.calls
              obtain ⟨hget', hlt'⟩ := hdead p hget hlt
              simp only [htev, Option.bind_eq_bind, Option.bind_some]
              split
              · exact ih hw ⟨p, hp, hget, hlt⟩
              · simp [hall, ih hw' ⟨p, hp, hget', hlt'⟩]

/-- No handler is called for an event that is gone. -/
def Clean (gone : List Nat) (hs : List Happening) : Prop :=
  ∀ pre p post, hs = pre ++ .invoked p :: post → p ∉ goneAfter gone pre

theorem clean_nil (gone : List Nat) : Clean gone [] := by
  intro pre p post h
  simp at h

theorem clean_append {gone : List Nat} {hs hs' : List Happening} (hnone : NoneInvoked hs)
    (hc : Clean (goneAfter gone hs) hs') : Clean gone (hs ++ hs') := by
  intro pre p post h
  rcases List.append_eq_append_iff.mp h with ⟨mid, rfl, hmid⟩ | ⟨mid, hmid, hrest⟩
  · rw [goneAfter_append]
    exact hc mid p post hmid
  · cases mid with
    | nil =>
        rw [List.append_nil] at hmid
        subst hmid
        exact hc [] p post hrest.symm
    | cons x mid =>
        have hx : x = .invoked p := (List.cons.inj hrest).1.symm
        exact absurd (by simp [hmid, hx]) (hnone p)

theorem clean_invoked {gone : List Nat} {hs : List Happening} (hp : p ∉ gone)
    (hc : Clean gone hs) : Clean gone (.invoked p :: hs) := by
  intro pre q post h
  cases pre with
  | nil =>
      have hq := (List.cons.inj h).1
      cases hq
      exact hp
  | cons x pre =>
      obtain ⟨rfl, hrest⟩ := List.cons.inj h
      exact hc pre q post hrest

theorem mem_goneAfter (hs : List Happening) : ∀ (gone : List Nat),
    (∀ q ∈ gone, q ∈ goneAfter gone hs) ∧
      (.removed p ∈ hs ∨ .replaced p ∈ hs → p ∈ goneAfter gone hs) := by
  induction hs with
  | nil => exact fun gone => ⟨fun q hq => hq, fun h => (by simp at h)⟩
  | cons h hs ih =>
      intro gone
      cases h with
      | invoked q =>
          refine ⟨(ih gone).1, fun h => (ih gone).2 ?_⟩
          simpa using h
      | removed q =>
          refine ⟨fun x hx => (ih (q :: gone)).1 x (by simp [hx]), fun h => ?_⟩
          by_cases hq : p = q
          · exact (ih (q :: gone)).1 p (by simp [hq])
          · exact (ih (q :: gone)).2 (by simpa [hq] using h)
      | replaced q =>
          refine ⟨fun x hx => (ih (q :: gone)).1 x (by simp [hx]), fun h => ?_⟩
          by_cases hq : p = q
          · exact (ih (q :: gone)).1 p (by simp [hq])
          · exact (ih (q :: gone)).2 (by simpa [hq] using h)

theorem pointers_cons (entry : BatchEntry) (batch : List BatchEntry) :
    pointers (entry :: batch) = entry.ptr.toList ++ pointers batch := by
  cases hptr : entry.ptr <;> simp [pointers, hptr]

/-- The events to come are alive. -/
theorem Ready.live {gone rest : List Nat} (hr : Ready gone rest s) (hw : s.WellFormed)
    (hp : p ∈ rest) : ∃ event, s.objects.get p = some event := by
  rcases hr p hp with ⟨⟨fd, hreg⟩, -⟩ | ⟨event, hget, -⟩
  · obtain ⟨event, hget, -⟩ := hw.registered fd p hreg
    exact ⟨event, hget⟩
  · exact ⟨event, hget⟩

theorem handleEvent_clean (batch : List BatchEntry) :
    ∀ {s : EventLoop} {gone : List Nat}, s.WellFormed → Ready gone (pointers batch) s →
      BatchKeeps batch s →
      ∃ s' hs, handleEvent batch s = some (s', hs) ∧ Clean gone hs := by
  induction batch with
  | nil => exact fun {s gone} _ _ _ => ⟨s, [], rfl, clean_nil gone⟩
  | cons entry batch ih =>
      intro s gone hw hr hk
      rw [pointers_cons] at hr
      have hrest : Ready gone (pointers batch) s := fun p hp => hr p (List.mem_append_right _ hp)
      simp only [BatchKeeps] at hk
      simp only [handleEvent]
      cases hptr : entry.ptr with
      | none =>
          rw [hptr] at hk
          exact ih hw hrest hk
      | some tev =>
          rw [hptr] at hk hr
          have hmem : tev ∈ (some tev).toList ++ pointers batch := by simp
          obtain ⟨event, hget⟩ := hr.live hw hmem
          have hk := hk event hget
          simp only [hget, Option.bind_eq_bind, Option.bind_some]
          by_cases hdel : s.findDeletedEvent tev event = true
          · rw [if_pos hdel] at hk ⊢
            exact ih hw hrest hk
          · rw [if_neg hdel] at hk ⊢
            obtain ⟨hcalls, hbatch⟩ := hk
            obtain ⟨s₁, hs₁, hall, hw₁, hnone, hready, -, -⟩ := hw.callAll entry.calls
            obtain ⟨s', hs', hrec, hclean⟩ := ih hw₁ (hready gone _ hcalls hrest)
              (hbatch s₁ hs₁ hall)
            refine ⟨s', .invoked tev :: hs₁ ++ hs', by simp [hall, hrec], ?_⟩
            have hnot : tev ∉ gone := by
              rcases hr tev hmem with ⟨-, hnot⟩ | ⟨event', hget', hdel'⟩
              · exact hnot
              · rw [hget] at hget'
                cases hget'
                exact absurd hdel' hdel
            exact clean_invoked hnot (clean_append hnone hclean)

theorem handleEvent_lost (batch : List BatchEntry) :
    ∀ {s : EventLoop} {gone : List Nat}, s.WellFormed → Ready gone (pointers batch) s →
      ¬ BatchKeeps batch s → handleEvent batch s = none := by
  induction batch with
  | nil => exact fun _ _ hk => absurd trivial hk
  | cons entry batch ih =>
      intro s gone hw hr hk
      rw [pointers_cons] at hr
      have hrest : Ready gone (pointers batch) s := fun p hp => hr p (List.mem_append_right _ hp)
      simp only [BatchKeeps] at hk
      simp only [handleEvent]
      cases hptr : entry.ptr with
      | none =>
          rw [hptr] at hk
          exact ih hw hrest hk
      | some tev =>
          rw [hptr] at hk hr
          obtain ⟨event, hget⟩ := hr.live hw (show tev ∈ (some tev).toList ++ _ by simp)
          simp only [hget, Option.some.injEq, forall_eq'] at hk
          simp only [hget, Option.bind_eq_bind, Option.bind_some]
          by_cases hdel : s.findDeletedEvent tev event = true
          · rw [if_pos hdel] at hk ⊢
            exact ih hw hrest hk
          · rw [if_neg hdel] at hk ⊢
            obtain ⟨s₁, hs₁, hall, hw₁, -, hready, -, hlost⟩ := hw.callAll entry.calls
            have hnone : handleEvent batch s₁ = none := by
              by_cases hcalls : CallsKeep (pointers batch) entry.calls s
              · refine ih hw₁ (hready gone _ hcalls hrest) fun hkeeps => ?_
                refine hk ⟨hcalls, fun s₂ hs₂ h₂ => ?_⟩
                rw [hall] at h₂
                cases h₂
                exact hkeeps
              · exact handleEvent_destroyed batch hw₁ (hlost _ hcalls)
            simp [hall, hnone]

/-- A batch of registered events is handled without an access to a destroyed
event and without a call for an event that is gone, if and only if no handler
replaces an event whose turn is still to come. -/
theorem handled_iff_batchKeeps {batch : List BatchEntry} (hw : s.WellFormed)
    (hreg : ∀ p ∈ pointers batch, ∃ fd, s.events.find? fd = some p) :
    Handled batch s ↔ BatchKeeps batch s := by
  have hr : Ready [] (pointers batch) s := fun p hp => .inl ⟨hreg p hp, by simp⟩
  constructor
  · rintro ⟨s', hs, h, -⟩
    by_contra hk
    rw [handleEvent_lost batch hw hr hk] at h
    cases h
  · intro hk
    obtain ⟨s', hs, h, hclean⟩ := handleEvent_clean batch hw hr hk
    refine ⟨s', hs, h, fun pre p post heq => ?_⟩
    have hnot := hclean pre p post heq
    exact ⟨fun hmem => hnot ((mem_goneAfter pre []).2 (.inl hmem)),
      fun hmem => hnot ((mem_goneAfter pre []).2 (.inr hmem))⟩

theorem wellFormed_empty : ({} : EventLoop).WellFormed :=
  ⟨fun _ _ h => (by cases h), fun _ _ h => (by cases h)⟩

theorem WellFormed.setEventHandler (hw : s.WellFormed) (fd : Int) (handler : Nat) :
    (s.setEventHandler fd handler).1.WellFormed := by
  obtain ⟨s', hs, hcall, heff⟩ := hw.call (.setEventHandler fd handler)
  cases hcall
  exact heff.wellFormed hw

/-- Two registered events, `0` on the fd 1 and `1` on the fd 2. -/
def twoEvents : EventLoop := ((({} : EventLoop).setEventHandler 1 5).1.setEventHandler 2 6).1

theorem wellFormed_twoEvents : twoEvents.WellFormed :=
  (wellFormed_empty.setEventHandler 1 5).setEventHandler 2 6

theorem twoEvents_registered : ∀ p ∈ [0, 1], ∃ fd, twoEvents.events.find? fd = some p := by
  intro p hp
  rcases List.mem_cons.mp hp with rfl | hp
  · exact ⟨1, rfl⟩
  · rw [List.mem_singleton.mp hp]
    exact ⟨2, rfl⟩

/-- The handler of the first event removes the second one and registers its fd
again. -/
def reconnectBatch : List BatchEntry :=
  [⟨some 0, [.deleteEpollEvent 2, .setEventHandler 2 7]⟩, ⟨some 1, []⟩]

theorem handled_iff_batchKeeps_two : twoEvents.WellFormed ∧
    (Handled reconnectBatch twoEvents ↔ BatchKeeps reconnectBatch twoEvents) ∧
    BatchKeeps reconnectBatch twoEvents := by
  have hiff : Handled reconnectBatch twoEvents ↔ BatchKeeps reconnectBatch twoEvents :=
    handled_iff_batchKeeps wellFormed_twoEvents twoEvents_registered
  refine ⟨wellFormed_twoEvents, hiff, hiff.mp ?_⟩
  have hrun : (handleEvent reconnectBatch twoEvents).map Prod.snd =
      some [.invoked 0, .removed 1] := by decide
  obtain ⟨⟨s', hs⟩, h, rfl⟩ := Option.map_eq_some_iff.mp hrun
  refine ⟨s', _, h, fun pre p post heq => ?_⟩
  cases pre with
  | nil => simp
  | cons x pre =>
      have hrest := (List.cons.inj heq).2
      have hlen := congrArg List.length hrest
      cases pre with
      | nil => cases (List.cons.inj hrest).1
      | cons y pre =>
          simp at hlen

/-- The handler of the first event registers the fd of the second one without
removing it: the second event is destroyed before its turn. -/
def replaceBatch : List BatchEntry := [⟨some 0, [.setEventHandler 2 7]⟩, ⟨some 1, []⟩]

theorem replaced_event_is_accessed :
    ¬ ∀ (s : EventLoop) (batch : List BatchEntry), s.WellFormed →
      (∀ p ∈ pointers batch, ∃ fd, s.events.find? fd = some p) → Handled batch s := by
  intro hall
  obtain ⟨s', hs, h, -⟩ := hall twoEvents replaceBatch wellFormed_twoEvents twoEvents_registered
  have hnone : (handleEvent replaceBatch twoEvents).isNone := by decide
  rw [h] at hnone
  cases hnone

end EventLoop

end Ccbase.Net

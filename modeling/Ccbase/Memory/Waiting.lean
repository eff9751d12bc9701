import Ccbase.Memory.EventInv
import Ccbase.Memory.LinearDevice

/-!
# Freed buffers that wait for events

No step brings a buffer back into use without handing it out (`NoRevival`), so
that a freed buffer waits for its events, is free, or has been merged away. With
`EventInv` it follows that the call that consumes its last event frees it.
-/

namespace Ccbase.Memory

open Ccbase.Lib Relation

variable {δ : Type} {dev : Device δ}

namespace Arena

variable {vmm : Bool} {law : DeviceLaw dev} {A A' A'' : Arena δ} {p q : Nat}

/-- What is in use afterwards was in use before, and still waits if it did. -/
def NoRevival (A A' : Arena δ) : Prop :=
  ∀ p x, A'.bufs.get p = some x → ¬ x.status.isFree → ∃ x₀, A.bufs.get p = some x₀ ∧
    ¬ x₀.status.isFree ∧ (x₀.status = .usedByEvent → x.status = .usedByEvent)

theorem NoRevival.refl (A : Arena δ) : NoRevival A A := fun _ x hx hst => ⟨x, hx, hst, id⟩

theorem NoRevival.trans (h : NoRevival A A') (h' : NoRevival A' A'') : NoRevival A A'' := by
  intro p x hx hst
  obtain ⟨x₁, hx₁, hst₁, h₁⟩ := h' p x hx hst
  obtain ⟨x₀, hx₀, hst₀, h₀⟩ := h p x₁ hx₁ hst₁
  exact ⟨x₀, hx₀, hst₀, fun heq => h₁ (h₀ heq)⟩

/-- One buffer apart, the buffers in use are the same. -/
theorem NoRevival.of_other (q : Nat)
    (hother : ∀ r x, r ≠ q → ¬ x.status.isFree → A'.bufs.get r = some x → A.bufs.get r = some x)
    (hself : ∀ x, A'.bufs.get q = some x → ¬ x.status.isFree → ∃ x₀, A.bufs.get q = some x₀ ∧
      ¬ x₀.status.isFree ∧ (x₀.status = .usedByEvent → x.status = .usedByEvent)) :
    NoRevival A A' := by
  intro r x hx hst
  by_cases hr : r = q
  · subst hr
    exact hself x hx hst
  · exact ⟨x, hother r x hr hst hx, hst, id⟩

theorem NoRevival.path (hs : ReflTransGen (Background dev vmm) A A') : NoRevival A A' :=
  fun p x hx hst => ⟨x, ((Calm.of_path hs).live_iff p x hst).mp hx, hst, id⟩

theorem NoRevival.free {addr : Nat} {ok : Bool} (hb : Base law vmm 0 A)
    (hf : FreeStep addr A ok A') : NoRevival A A' := by
  cases hf with
  | absent _ => exact .refl A
  | release hr =>
      have hreg : ∃ v, A.live.lookup addr = some v := by
        cases hr with
        | mk hl _ _ _ => exact ⟨_, hl⟩
      obtain ⟨⟨q, k⟩, hl⟩ := hreg
      have hfr := hr.frame hl
      exact .of_other q (fun r x hr hst => (hfr.other r x hr hst).mp)
        fun x hx hst => absurd (hfr.self x hx) hst
  | retain hr =>
      cases hr with
      | @mk q k d hl hq hused =>
          obtain ⟨d', hd', _, hst', _⟩ := hb.live _ _ _ hl
          rw [hq] at hd'
          cases hd'
          refine .of_other q (fun r x hr _ hx => ?_) fun x hx _ => ⟨d, hq, hst', fun _ => ?_⟩
          · rwa [show (A.bufs.modify q _).get r = _ from Heap.get_modify_ne _ _ hr] at hx
          · have hx : (A.bufs.modify q _).get q = some x := hx
            rw [Heap.get_modify_self, hq] at hx
            cases hx
            rfl

theorem NoRevival.record {taskId : Int} {user mem addr : Nat} {event : DeviceEvent}
    (h : EventInv law vmm A) (hs : RecordStep dev taskId user event mem addr A A') :
    NoRevival A A' := by
  cases (hs.frame h).2.2 with
  | absent _ hA =>
      subst hA
      exact .refl _
  | @record q k d hl hq hst haddr hbufs _ _ _ =>
      refine .of_other q (fun r x hr _ hx => ?_) fun x hx _ => ⟨d, hq, hst, fun heq => ?_⟩
      · rwa [hbufs, get_setEvents_ne hr] at hx
      · rw [hbufs, get_setEvents hq] at hx
        cases hx
        exact heq

theorem NoRevival.waitStep {taskId : Int} {key : Nat × Nat} (h : EventInv law vmm A)
    (hs : WaitStep taskId key q A A') : NoRevival A A' := by
  obtain ⟨hf, hself⟩ := hs.frame h
  cases hq : A.bufs.get q with
  | none =>
      cases hs with
      | gone _ => exact .refl A
      | keep hp _ _ => rw [hq] at hp; cases hp
      | drop hp _ _ _ => rw [hq] at hp; cases hp
      | free hp _ _ _ _ => rw [hq] at hp; cases hp
  | some d =>
      refine .of_other q (fun r x hr hst => (hf.other r x hr hst).mp) fun x hx hst => ?_
      rw [hq]
      cases hself d hq with
      | keep _ hget _ _ _ =>
          rw [hget] at hx
          cases hx
          exact ⟨d, rfl, hst, id⟩
      | drop _ _ hget _ _ _ =>
          rw [hget] at hx
          cases hx
          exact ⟨d, rfl, hst, id⟩
      | free _ _ hfree _ _ => exact absurd (hfree x hx) hst

theorem NoRevival.syncStep (h : EventInv law vmm A) (hs : SyncStep q A A') :
    NoRevival A A' := by
  obtain ⟨hf, _, _, hself⟩ := hs.frame h
  cases hq : A.bufs.get q with
  | none =>
      cases hs with
      | gone _ => exact .refl A
      | clear hp _ => rw [hq] at hp; cases hp
      | free hp _ _ _ => rw [hq] at hp; cases hp
  | some d =>
      refine .of_other q (fun r x hr hst => (hf.other r x hr hst).mp) fun x hx hst => ?_
      rw [hq]
      cases hself d hq with
      | clear _ hget =>
          rw [hget] at hx
          cases hx
          exact ⟨d, rfl, hst, id⟩
      | free _ hfree => exact absurd (hfree x hx) hst

/-- A loop of steps that keep the invariant and revive nothing. -/
theorem NoRevival.chained {α : Type} {step : α → Arena δ → Arena δ → Prop} {xs : List α}
    (h : EventInv law vmm A) (hc : Chained step xs A A')
    (hinv : ∀ x A A', EventInv law vmm A → step x A A' → EventInv law vmm A')
    (hstep : ∀ x A A', EventInv law vmm A → step x A A' → NoRevival A A') : NoRevival A A' :=
  (hc.inv (I := fun B => EventInv law vmm B ∧ NoRevival A B) ⟨h, .refl A⟩
    fun x _ B B' hB hs => ⟨hinv x B B' hB.1 hs, hB.2.trans (hstep x B B' hB.1 hs)⟩).2

theorem NoRevival.waitPair {taskId : Int} {key : Nat × Nat} (h : EventInv law vmm A)
    (hs : WaitPair taskId key A A') : NoRevival A A' :=
  .chained h hs (fun _ _ _ h hs => h.waitStep hs) fun _ _ _ h hs => .waitStep h hs

theorem NoRevival.syncAll (h : EventInv law vmm A) (hs : SyncAll dev A A') : NoRevival A A' := by
  cases hs with
  | none _ => exact .refl A
  | @all A₁ _ hc =>
      have hsteps : NoRevival A A₁ := .chained h hc (fun _ _ _ h hs => h.syncStep hs)
        fun _ _ _ h hs => .syncStep h hs
      exact hsteps

/-- A call revives no buffer except the one it returns. -/
theorem Moves.noRevival {ex : Prop} {c : Call} (h : EventInv law vmm A)
    (hs : Moves dev vmm ex A A' c) : ∀ p x, A'.bufs.get p = some x → ¬ x.status.isFree →
      (∃ x₀, A.bufs.get p = some x₀ ∧ ¬ x₀.status.isFree ∧
        (x₀.status = .usedByEvent → x.status = .usedByEvent)) ∨
      ∃ size b n, c = .alloc size b n x.addr := by
  have hhand : ∀ {size q k d} {B : Arena δ}, NoRevival A B → Hand dev size q k B A' →
      A'.bufs.get q = some d → ∀ p x, A'.bufs.get p = some x → ¬ x.status.isFree →
      (∃ x₀, A.bufs.get p = some x₀ ∧ ¬ x₀.status.isFree ∧
        (x₀.status = .usedByEvent → x.status = .usedByEvent)) ∨ x.addr = d.addr := by
    intro size q k d B hB hh hd p x hx hst
    obtain ⟨d₀, hf⟩ := hh.frame
    rcases hf.get_back hx with ⟨rfl, _⟩ | ⟨_, hx⟩
    · rw [hd] at hx
      cases hx
      exact .inr rfl
    · exact .inl (hB p x hx hst)
  intro p x hx hst
  cases c with
  | alloc size b n addr =>
      cases hs with
      | fail hpath => exact .inl (NoRevival.path hpath p x hx hst)
      | hand hpath hh hd =>
          rcases hhand (.path hpath) hh hd p x hx hst with h | heq
          · exact .inl h
          · exact .inr ⟨size, b, n, by rw [heq]⟩
      | syncFail _ hpath hsync hpath' =>
          exact .inl (((NoRevival.path hpath).trans (.syncAll (h.path hpath) hsync)).trans
            (.path hpath') p x hx hst)
      | syncHand _ hpath hsync hpath' hh hd =>
          rcases hhand (((NoRevival.path hpath).trans (.syncAll (h.path hpath) hsync)).trans
            (.path hpath')) hh hd p x hx hst with h | heq
          · exact .inl h
          · exact .inr ⟨size, b, n, by rw [heq]⟩
  | free addr =>
      obtain ⟨ok, hf⟩ := hs
      exact .inl (NoRevival.free h.toBase hf p x hx hst)
  | freePart _ _ _ => exact hs.elim
  | defrag => exact .inl (NoRevival.path hs p x hx hst)
  | record taskId user mas event =>
      exact .inl (NoRevival.chained h hs (fun _ _ _ h hs => h.recordStep hs)
        (fun _ _ _ h hs => .record h hs) p x hx hst)
  | wait taskId user mem => exact .inl (NoRevival.waitPair h hs p x hx hst)
  | waitMem taskId mem order =>
      exact .inl (NoRevival.chained h hs.2 (fun _ _ _ h hs => h.waitPair hs)
        (fun _ _ _ h hs => .waitPair h hs) p x hx hst)
  | syncAllEvents => exact .inl (NoRevival.syncAll h hs p x hx hst)

end Arena

namespace Pool

variable {law : DeviceLaw dev} {s s' : Pool δ}

/-- A buffer that waits for events has a pending event. -/
theorem EventsOk.exists_pending (h : EventsOk law s) {p : Nat} {b : MemBuf}
    (hb : s.bufs.get p = some b) (hst : b.status = .usedByEvent) : ∃ u, b.pending u ≠ [] :=
  EventBase.exists_pending (h.events.wf p b.data (dataOf_get hb))
    (h.events.waiting p b.data (dataOf_get hb) hst)

/-- In every reachable state a freed buffer that waits for events has a pending
event, and is in a set of each user stream with pending events on it. Whatever
call comes next, afterwards the buffer still waits with a pending event, or it
is free or merged away, or the call has handed it out again. -/
theorem usedByEvent_never_stuck (law : DeviceLaw dev) (enableVmm enableTiny : Bool) (d : δ)
    (calls : List Call)
    (hrun : Run (fun s c s' => Step dev s c s' ∧ wholeCall c)
      (Pool.init enableVmm enableTiny d) calls s) (p : Nat) (b : MemBuf)
    (hb : s.bufs.get p = some b) (hst : b.status = .usedByEvent) :
    (∃ u, b.pending u ≠ []) ∧
    (∀ u, b.pending u ≠ [] → ∃ m ps, s.streamPairMemBufs.lookup (u, m) = some ps ∧ p ∈ ps) ∧
    ∀ c s', wholeCall c → Step dev s c s' → ∀ b', s'.bufs.get p = some b' →
      (b'.status = .usedByEvent ∧ ∃ u, b'.pending u ≠ []) ∨ b'.status.isFree ∨
      ∃ size fromPersistentMem streamId,
        c = .alloc size fromPersistentMem streamId b'.addr := by
  have h : EventsOk law s := hrun.state_inv (EventsOk.init law enableVmm enableTiny d)
    fun _ _ _ h hs => h.step hs.2 hs.1
  refine ⟨h.exists_pending hb hst, fun u hu => ?_, fun c s' hc hs b' hb' => ?_⟩
  · obtain ⟨m, hm⟩ := h.events.member p b.data u (dataOf_get hb) hu
    unfold Arena.set at hm
    cases hl : s.arena.pairs.lookup (u, m) with
    | none =>
        rw [hl] at hm
        cases hm
    | some ps =>
        rw [hl] at hm
        exact ⟨m, ps, hl, hm⟩
  · have hmoves := (moves_of_step h.inv hc hs).step
    by_cases hfree : b'.status.isFree
    · exact .inr (.inl hfree)
    · rcases hmoves.noRevival h.events p b'.data (dataOf_get hb') hfree with
        ⟨x₀, hx₀, _, himp⟩ | hhand
      · rw [show s.arena.bufs.get p = some b.data from dataOf_get hb] at hx₀
        cases hx₀
        have hst' : b'.status = .usedByEvent := himp hst
        exact .inl ⟨hst', (h.step hc hs).exists_pending hb' hst'⟩
      · exact .inr (.inr hhand)

/-- A buffer with an event is freed and waits. -/
theorem usedByEvent_never_stuck_one :
    ∃ calls s b, Run (fun s c s' => Step (linearDevice false true) s c s' ∧ wholeCall c)
        (Pool.init false false (LinearState.init 0)) calls s ∧
      s.bufs.get 0 = some b ∧ b.status = .usedByEvent ∧
      ((∃ u, b.pending u ≠ []) ∧
      (∀ u, b.pending u ≠ [] → ∃ m ps, s.streamPairMemBufs.lookup (u, m) = some ps ∧ 0 ∈ ps) ∧
      ∀ c s', wholeCall c → Step (linearDevice false true) s c s' → ∀ b', s'.bufs.get 0 = some b' →
        (b'.status = .usedByEvent ∧ ∃ u, b'.pending u ≠ []) ∨ b'.status.isFree ∨
        ∃ size fromPersistentMem streamId,
          c = .alloc size fromPersistentMem streamId b'.addr) := by
  let calls : List Call := [.alloc 1000 false 0 512, .record 3 1 [(0, 512)] 7, .free 512]
  have hexec : ((exec (linearDevice false true) (fun _ => wholeCall)
      (Pool.init false false (LinearState.init 0)) calls).map fun s =>
        (s.bufs.get 0).map MemBuf.status) = some (some .usedByEvent) := by
    decide +kernel
  obtain ⟨s, hs, heq⟩ := Option.map_eq_some_iff.mp hexec
  obtain ⟨b, hb, hst⟩ := Option.map_eq_some_iff.mp heq
  have hrun := run_of_exec hs
  exact ⟨calls, s, b, hrun, hb, hst,
    usedByEvent_never_stuck (linearLaw false true) false false _ calls hrun 0 b hb hst⟩

end Pool

end Ccbase.Memory

import Ccbase.Memory.PoolOps
import Ccbase.Lib.Run

/-!
# Runs of the pool

The calls a client makes on the pool, with the address an allocation returns.
`Pool.Step` executes one call; a call that does not come back has no step. A
run keeps `Inv` as long as `FreePartTensorMems` is not among its calls, which
`PartFree.lean` adds. `Pool.exec` runs a list of calls.
-/

namespace Ccbase.Memory

open Ccbase.Lib Relation

variable {δ : Type} {dev : Device δ}

inductive Call where
  | alloc (size : Nat) (fromPersistentMem : Bool) (streamId addr : Nat)
  | free (addr : Nat)
  | freePart (freeAddrs keepAddrs keepAddrSizes : List Nat)
  | defrag
  | record (taskId : Int) (user : Nat) (memoryStreamAddresses : List (Nat × Nat))
      (event : DeviceEvent)
  | wait (taskId : Int) (user mem : Nat)
  | waitMem (taskId : Int) (mem : Nat) (order : List (Nat × Nat))
  | syncAllEvents

/-- One call. The iteration order of `WaitEvent` on a memory stream runs over
the keys of the map. -/
def Pool.Step (dev : Device δ) (s : Pool δ) : Call → Pool δ → Prop
  | .alloc size fromPersistentMem streamId addr, s' =>
      allocTensorMem dev size fromPersistentMem streamId s = some (addr, s')
  | .free addr, s' => freeTensorMem addr s = s'
  | .freePart freeAddrs keepAddrs keepAddrSizes, s' =>
      freePartTensorMems freeAddrs keepAddrs keepAddrSizes s = s'
  | .defrag, s' => defragMemory dev s = some s'
  | .record taskId user mas event, s' => recordEvent dev taskId user mas event s = s'
  | .wait taskId user mem, s' => (waitEvent taskId user mem s).2 = s'
  | .waitMem taskId mem order, s' =>
      order.Perm (s.streamPairMemBufs.entries.map Sigma.fst) ∧
        waitEventOnMemoryStream taskId mem order s = s'
  | .syncAllEvents, s' => (doSyncAllEvents dev s).2 = s'

namespace Pool

/-- One call as a function, `none` if it does not come back as stated. -/
def execOne (dev : Device δ) (s : Pool δ) : Call → Option (Pool δ)
  | .alloc size fromPersistentMem streamId addr =>
      (allocTensorMem dev size fromPersistentMem streamId s).bind fun r =>
        if r.1 = addr then some r.2 else none
  | .free addr => some (freeTensorMem addr s)
  | .freePart freeAddrs keepAddrs keepAddrSizes =>
      some (freePartTensorMems freeAddrs keepAddrs keepAddrSizes s)
  | .defrag => defragMemory dev s
  | .record taskId user mas event => some (recordEvent dev taskId user mas event s)
  | .wait taskId user mem => some (waitEvent taskId user mem s).2
  | .waitMem taskId mem order =>
      if order.Perm (s.streamPairMemBufs.entries.map Sigma.fst)
      then some (waitEventOnMemoryStream taskId mem order s) else none
  | .syncAllEvents => some (doSyncAllEvents dev s).2

theorem step_of_execOne {s s' : Pool δ} {c : Call} (h : execOne dev s c = some s') :
    Step dev s c s' := by
  cases c with
  | alloc size fromPersistentMem streamId addr =>
      obtain ⟨⟨addr', s₁⟩, hres, h⟩ := Option.bind_eq_some_iff.mp h
      dsimp only at h
      split at h
      · rename_i heq
        cases h
        rw [← heq]
        exact hres
      · cases h
  | waitMem taskId mem order =>
      simp only [execOne] at h
      split at h
      · cases h
        exact ⟨by assumption, rfl⟩
      · cases h
  | defrag => exact h
  | _ =>
      cases h
      rfl

/-- All calls in turn, as long as each is allowed where it is made. -/
def exec (dev : Device δ) (allowed : Pool δ → Call → Prop) [∀ s c, Decidable (allowed s c)]
    (s : Pool δ) : List Call → Option (Pool δ)
  | [] => some s
  | c :: cs =>
      if allowed s c then (execOne dev s c).bind fun s => exec dev allowed s cs else none

/-- An execution is a run. -/
theorem run_of_exec {allowed : Pool δ → Call → Prop} [∀ s c, Decidable (allowed s c)]
    {cs : List Call} : ∀ {s s' : Pool δ}, exec dev allowed s cs = some s' →
      Run (fun s c s' => Step dev s c s' ∧ allowed s c) s cs s' := by
  induction cs with
  | nil =>
      intro s s' h
      cases h
      exact .nil
  | cons c cs ih =>
      intro s s' h
      simp only [exec] at h
      split at h
      · rename_i hallowed
        obtain ⟨s₁, h₁, h⟩ := Option.bind_eq_some_iff.mp h
        have hfirst : Run (fun s c s' => Step dev s c s' ∧ allowed s c) s [c] s₁ :=
          Run.single ⟨step_of_execOne h₁, hallowed⟩
        exact hfirst.append (ih h)
      · cases h

end Pool

end Ccbase.Memory

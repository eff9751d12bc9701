import Ccbase.DynamicMem.Opt
import Mathlib.Logic.Relation

/-!
# Writes to the pool

Every operation is a sequence of writes, and none of them changes the length of a
vector, but for the end of an eager free and the release. `Write` lists them. The
statuses that are given to bufs pass a test, which keeps apart what goes on before
an eager free, when no buf has the status of one, and what goes on behind it.
-/

namespace Ccbase.DynamicMem.Opt

open Ccbase.Lib

/-! ## The parts of a state -/

namespace MemStatusManager

theorem container_setContainer (st st' : DynamicMemBufStatus) (v : List SizeMapMemBuf)
    (m : MemStatusManager) :
    (m.setContainer st v).container st' =
      if (st = .idle ↔ st' = .idle) then v else m.container st' := by
  cases st <;> cases st' <;> rfl

@[simp] theorem memBlocks_setContainer (st : DynamicMemBufStatus) (v : List SizeMapMemBuf)
    (m : MemStatusManager) : (m.setContainer st v).memBlocks = m.memBlocks := by
  cases st <;> rfl

@[simp] theorem memBlockList_setContainer (st : DynamicMemBufStatus) (v : List SizeMapMemBuf)
    (m : MemStatusManager) : (m.setContainer st v).memBlockList = m.memBlockList := by
  cases st <;> rfl

/-- Statuses with one vector. -/
theorem container_congr {st st' : DynamicMemBufStatus} (h : st = .idle ↔ st' = .idle)
    (m : MemStatusManager) : m.container st = m.container st' := by
  cases st <;> cases st' <;> simp_all [container]

end MemStatusManager

namespace DynamicMemPoolBestFitOpt

variable {s : DynamicMemPoolBestFitOpt}

theorem mng_setMng (b b' : Bool) (m : MemStatusManager) (s : DynamicMemPoolBestFitOpt) :
    (s.setMng b m).mng b' = if b' = b then m else s.mng b' := by
  cases b <;> cases b' <;> rfl

@[simp] theorem bufs_setMng (b : Bool) (m : MemStatusManager) (s : DynamicMemPoolBestFitOpt) :
    (s.setMng b m).bufs = s.bufs := by
  cases b <;> rfl

@[simp] theorem blocks_setMng (b : Bool) (m : MemStatusManager) (s : DynamicMemPoolBestFitOpt) :
    (s.setMng b m).blocks = s.blocks := by
  cases b <;> rfl

@[simp] theorem mng_writeBuf (b : Bool) (p : Nat) (f : DynamicMemBuf → DynamicMemBuf)
    (s : DynamicMemPoolBestFitOpt) : (s.writeBuf p f).mng b = s.mng b := rfl

@[simp] theorem mng_newMemBuf (b : Bool) (buf : DynamicMemBuf) (s : DynamicMemPoolBestFitOpt) :
    (s.newMemBuf buf).mng b = s.mng b := rfl

@[simp] theorem mng_deleteMemBuf (b : Bool) (q a p : Nat) (s : DynamicMemPoolBestFitOpt) :
    (s.deleteMemBuf q a p).mng b = s.mng b := rfl

@[simp] theorem bufs_setSizeMap (b : Bool) (st : DynamicMemBufStatus) (i : Nat)
    (map : SizeMapMemBuf) (s : DynamicMemPoolBestFitOpt) :
    (s.setSizeMap b st i map).bufs = s.bufs := bufs_setMng ..

@[simp] theorem blocks_setSizeMap (b : Bool) (st : DynamicMemBufStatus) (i : Nat)
    (map : SizeMapMemBuf) (s : DynamicMemPoolBestFitOpt) :
    (s.setSizeMap b st i map).blocks = s.blocks := blocks_setMng ..

@[simp] theorem memBlocks_setSizeMap (b b' : Bool) (st : DynamicMemBufStatus) (i : Nat)
    (map : SizeMapMemBuf) (s : DynamicMemPoolBestFitOpt) :
    ((s.setSizeMap b st i map).mng b').memBlocks = (s.mng b').memBlocks := by
  rw [setSizeMap, mng_setMng]
  split
  · rename_i h
    rw [h, MemStatusManager.memBlocks_setContainer]
  · rfl

@[simp] theorem memBlockList_setSizeMap (b b' : Bool) (st : DynamicMemBufStatus) (i : Nat)
    (map : SizeMapMemBuf) (s : DynamicMemPoolBestFitOpt) :
    ((s.setSizeMap b st i map).mng b').memBlockList = (s.mng b').memBlockList := by
  rw [setSizeMap, mng_setMng]
  split
  · rename_i h
    rw [h, MemStatusManager.memBlockList_setContainer]
  · rfl

theorem container_setSizeMap (b b' : Bool) (st st' : DynamicMemBufStatus) (i : Nat)
    (map : SizeMapMemBuf) (s : DynamicMemPoolBestFitOpt) :
    ((s.setSizeMap b st i map).mng b').container st' =
      if b' = b ∧ (st = .idle ↔ st' = .idle) then ((s.mng b).container st).set i map
      else (s.mng b').container st' := by
  rw [setSizeMap, mng_setMng]
  by_cases hb : b' = b
  · rw [if_pos hb, MemStatusManager.container_setContainer, hb]
    simp only [true_and]
  · rw [if_neg hb, if_neg fun h => hb h.1]

/-! ## What the writes are -/

/-- The status of the buf at `p`, if there is one, passes the test. -/
def OkAt (ok : DynamicMemBufStatus → Prop) (p : Nat) (s : DynamicMemPoolBestFitOpt) : Prop :=
  ∀ x, s.bufs.get p = some x → ok x.status

/-- One write; `ok` is the test for the statuses. -/
inductive Write (ok : DynamicMemBufStatus → Prop) (s : DynamicMemPoolBestFitOpt) :
    DynamicMemPoolBestFitOpt → Prop
  | buf (p : Nat) (f : DynamicMemBuf → DynamicMemBuf)
      (hplace : ∀ x, (f x).deviceAddr = x.deviceAddr ∧ (f x).memBlockPtr = x.memBlockPtr)
      (hstatus : ∀ x, (f x).status = x.status ∨ ok (f x).status) : Write ok s (s.writeBuf p f)
  | new (x : DynamicMemBuf) (hok : ok x.status) : Write ok s (s.newMemBuf x)
  | delete (b : Bool) (q a p : Nat) (blk : DynamicMemBlock) (hq : q ∈ (s.mng b).memBlockList)
      (hblk : s.blocks.get q = some blk) (hp : blk.blockAllMemBufMap.find? a = some p) :
      Write ok s (s.deleteMemBuf q a p)
  /-- An entry that is not from the map before is of a buf that passes the test. -/
  | sizeMap (b : Bool) (st : DynamicMemBufStatus) (i : Nat) (map : SizeMapMemBuf)
      (hmap : ∀ e ∈ map.entries,
        (∃ old ∈ (s.mng b).container st, e ∈ old.entries) ∨
          (st ≠ .used ∧ ok st ∧ OkAt ok e.2 s)) : Write ok s (s.setSizeMap b st i map)
  | block (b : Bool) (blk : DynamicMemBlock) (i : Nat) (s' : DynamicMemPoolBestFitOpt)
      (hstream : blk.streamId < (s.mng b).memBlocks.length)
      (hempty : blk.blockAllMemBufMap.entries = []) (hadd : s.addMemBlock blk b i = .ok s') :
      Write ok s s'
  /-- Statistics, unit sizes and flags. -/
  | rest (s' : DynamicMemPoolBestFitOpt) (hbufs : s'.bufs = s.bufs)
      (hblocks : s'.blocks = s.blocks)
      (hmng : ∀ b, ∃ u mps, s'.mng b = { s.mng b with unitSize := u, mps := mps }) :
      Write ok s s'

def Writes (ok : DynamicMemBufStatus → Prop) :
    DynamicMemPoolBestFitOpt → DynamicMemPoolBestFitOpt → Prop :=
  Relation.ReflTransGen (Write ok)

/-- The blocks that are listed have streams that the vectors have elements for. -/
def Streams (s : DynamicMemPoolBestFitOpt) : Prop :=
  ∀ b, ∀ q ∈ (s.mng b).memBlockList, ∃ blk, s.blocks.get q = some blk ∧
    blk.streamId < (s.mng b).memBlocks.length

/-- A map of a block that is listed has the bufs of the block, each at its address. -/
def Owned (s : DynamicMemPoolBestFitOpt) : Prop :=
  ∀ b, ∀ q ∈ (s.mng b).memBlockList, ∃ blk, s.blocks.get q = some blk ∧
    ∀ a p, blk.blockAllMemBufMap.find? a = some p →
      ∃ x, s.bufs.get p = some x ∧ x.deviceAddr = a ∧ x.memBlockPtr = q

/-- Every entry for a status is of a buf that passes the test. -/
def Entries (ok : DynamicMemBufStatus → Prop) (st : DynamicMemBufStatus)
    (s : DynamicMemPoolBestFitOpt) : Prop :=
  ∀ b, ∀ map ∈ (s.mng b).container st, ∀ e ∈ map.entries, OkAt ok e.2 s

/-- There has been no eager free. -/
structure Quiet (s : DynamicMemPoolBestFitOpt) : Prop where
  bufs : ∀ p, OkAt (· ≠ .eagerFree) p s
  entries : ∀ b, ∀ map ∈ (s.mng b).container .eagerFree, map.entries = []

/-! ## What a write keeps -/

variable {s s' : DynamicMemPoolBestFitOpt} {ok : DynamicMemBufStatus → Prop}
  {st : DynamicMemBufStatus} {b : Bool} {blk : DynamicMemBlock} {i p q : Nat}

/-- From `s` to `s'`, the next block is in the list of a pool. -/
structure Added (blk : DynamicMemBlock) (b : Bool) (s s' : DynamicMemPoolBestFitOpt) : Prop where
  bufs : s'.bufs = s.bufs
  blocks : s'.blocks = s.blocks.new blk
  container : ∀ b' st, (s'.mng b').container st = (s.mng b').container st
  memBlocks : ∀ b', (s'.mng b').memBlocks.length = (s.mng b').memBlocks.length
  memBlockList : ∀ b' q, q ∈ (s'.mng b').memBlockList ↔
    q ∈ (s.mng b').memBlockList ∨ (b' = b ∧ q = s.blocks.next)

theorem subscript_of_lt {α : Type} {v : List α} (h : i < v.length) : subscript v i = .ok v[i] := by
  rw [subscript, List.getElem?_eq_getElem h]

theorem subscript_ends {α : Type} {v : List α} (h : i < v.length) :
    Ends (fun e => e ≠ Fault.index) (fun x => x ∈ v) (subscript v i) := by
  rw [subscript_of_lt h]
  exact List.getElem_mem h

theorem added_of_addMemBlock (h : s.addMemBlock blk b i = .ok s') : Added blk b s s' := by
  rw [addMemBlock] at h
  cases hsub : subscript (s.mng b).memBlocks i with
  | error e =>
      rw [hsub] at h
      cases h
  | ok blocks =>
      rw [hsub] at h
      cases h
      refine ⟨bufs_setMng .., rfl, ?_, ?_, ?_⟩
      · intro b' st
        show ((s.setMng b _).mng b').container st = _
        rw [mng_setMng]
        split
        · rename_i hb
          rw [hb]
          rfl
        · rfl
      · intro b'
        show ((s.setMng b _).mng b').memBlocks.length = _
        rw [mng_setMng]
        split
        · rename_i hb
          rw [hb]
          exact List.length_set
        · rfl
      · intro b' q
        show q ∈ ((s.setMng b _).mng b').memBlockList ↔ _
        rw [mng_setMng]
        split
        · rename_i hb
          rw [hb]
          have hsplit := List.takeWhile_append_dropWhile
            (p := fun q => !decide (blk.deviceAddrBase < s.blockAddr q))
            (l := (s.mng b).memBlockList)
          simp only [List.mem_append, List.mem_cons, true_and]
          conv_rhs => rw [← hsplit, List.mem_append]
          tauto
        · rename_i hb
          simp [hb]

/-- The map of a block after a buf is new. -/
theorem get_blocks_newMemBuf (x : DynamicMemBuf) (h : s.blocks.get q = some blk) :
    ∃ blk', (s.newMemBuf x).blocks.get q = some blk' ∧ blk'.streamId = blk.streamId ∧
      ∀ a, blk'.blockAllMemBufMap.find? a = (blk.blockAllMemBufMap.find? a).or
        (if q = x.memBlockPtr ∧ a = x.deviceAddr then some s.bufs.next else none) := by
  by_cases hq : q = x.memBlockPtr
  · refine ⟨{ blk with
      blockAllMemBufMap := blk.blockAllMemBufMap.emplace x.deviceAddr s.bufs.next }, ?_, rfl, ?_⟩
    · show (s.blocks.modify x.memBlockPtr _).get q = _
      rw [← hq, Heap.get_modify_self, h, Option.map_some]
    · intro a
      simp only [OrdMap.find?_emplace, hq, true_and]
  · refine ⟨blk, ?_, rfl, fun a => ?_⟩
    · show (s.blocks.modify x.memBlockPtr _).get q = _
      rw [Heap.get_modify_ne _ _ hq, h]
    · rw [if_neg fun hqa => hq hqa.1, Option.or_none]

/-- The map of a block after a buf is deleted. -/
theorem get_blocks_deleteMemBuf (q' a' p' : Nat) (h : s.blocks.get q = some blk) :
    ∃ blk', (s.deleteMemBuf q' a' p').blocks.get q = some blk' ∧ blk'.streamId = blk.streamId ∧
      ∀ a, blk'.blockAllMemBufMap.find? a =
        if q = q' ∧ a = a' then none else blk.blockAllMemBufMap.find? a := by
  by_cases hq : q = q'
  · refine ⟨{ blk with blockAllMemBufMap := blk.blockAllMemBufMap.erase a' }, ?_, rfl, ?_⟩
    · show (s.blocks.modify q' _).get q = _
      rw [← hq, Heap.get_modify_self, h, Option.map_some]
    · intro a
      simp only [OrdMap.find?_erase, hq, true_and]
  · refine ⟨blk, ?_, rfl, fun a => ?_⟩
    · show (s.blocks.modify q' _).get q = _
      rw [Heap.get_modify_ne _ _ hq, h]
    · rw [if_neg fun hqa => hq hqa.1]

namespace Write

theorem memBlocks (h : Write ok s s') (b : Bool) :
    (s'.mng b).memBlocks.length = (s.mng b).memBlocks.length := by
  cases h with
  | buf | new | delete => rfl
  | sizeMap => rw [memBlocks_setSizeMap]
  | block _ _ _ _ _ _ hadd => exact (added_of_addMemBlock hadd).memBlocks b
  | rest _ _ _ hmng =>
      obtain ⟨u, mps, hmng⟩ := hmng b
      rw [hmng]

theorem container (h : Write ok s s') (b : Bool) (st : DynamicMemBufStatus) :
    ((s'.mng b).container st).length = ((s.mng b).container st).length := by
  cases h with
  | buf | new | delete => rfl
  | sizeMap b' st' =>
      rw [container_setSizeMap]
      split
      · rename_i hsame
        rw [List.length_set, hsame.1, MemStatusManager.container_congr hsame.2]
      · rfl
  | block _ _ _ _ _ _ hadd => rw [(added_of_addMemBlock hadd).container]
  | rest _ _ _ hmng =>
      obtain ⟨u, mps, hmng⟩ := hmng b
      rw [hmng]
      rfl

theorem okAt (h : Write ok s s') (hp : OkAt ok p s) : OkAt ok p s' := by
  intro x hx
  cases h with
  | buf p' f _ hstatus =>
      change (s.bufs.modify p' f).get p = some x at hx
      rw [Heap.get_modify] at hx
      split at hx
      · rename_i hpp
        obtain ⟨y, hy, rfl⟩ := Option.map_eq_some_iff.mp hx
        rcases hstatus y with hsame | hok
        · rw [hsame]
          exact hp y (hpp ▸ hy)
        · exact hok
      · exact hp x hx
  | new y hok =>
      change (s.bufs.new y).get p = some x at hx
      rw [Heap.get_new] at hx
      split at hx
      · cases hx
        exact hok
      · exact hp x hx
  | delete _ _ _ p' =>
      change (s.bufs.delete p').get p = some x at hx
      rw [Heap.get_delete] at hx
      split at hx
      · cases hx
      · exact hp x hx
  | sizeMap =>
      rw [bufs_setSizeMap] at hx
      exact hp x hx
  | block _ _ _ _ _ _ hadd =>
      rw [(added_of_addMemBlock hadd).bufs] at hx
      exact hp x hx
  | rest _ hbufs =>
      rw [hbufs] at hx
      exact hp x hx

theorem entries (h : Write ok s s') (hst : Entries ok st s) : Entries ok st s' := by
  have hold : ∀ b, ∀ map ∈ (s.mng b).container st, ∀ e ∈ map.entries, OkAt ok e.2 s' :=
    fun b map hmap e he => h.okAt (hst b map hmap e he)
  intro b map hmap e he
  cases h with
  | buf | new | delete => exact hold b map hmap e he
  | sizeMap b' st' i map' hmap' =>
      rw [container_setSizeMap] at hmap
      split at hmap
      · rename_i hsame
        have hcontainer := MemStatusManager.container_congr hsame.2 (s.mng b')
        rcases List.mem_or_eq_of_mem_set hmap with hmap | rfl
        · rw [hcontainer] at hmap
          exact hold b' map hmap e he
        · rcases hmap' e he with ⟨old, hmem, he⟩ | ⟨-, -, hok⟩
          · rw [hcontainer] at hmem
            exact hold b' old hmem e he
          · exact (Write.sizeMap b' st' i map hmap').okAt hok
      · exact hold b map hmap e he
  | block _ _ _ _ _ _ hadd =>
      rw [(added_of_addMemBlock hadd).container] at hmap
      exact hold b map hmap e he
  | rest _ _ _ hmng =>
      obtain ⟨u, mps, hmng⟩ := hmng b
      rw [hmng] at hmap
      exact hold b map hmap e he

theorem streams (h : Write ok s s') (hs : Streams s) : Streams s' := by
  intro b q hq
  rw [h.memBlocks b]
  cases h with
  | buf => exact hs b q hq
  | new x =>
      obtain ⟨blk, hblk, hstream⟩ := hs b q hq
      obtain ⟨blk', hblk', hsame, -⟩ := get_blocks_newMemBuf x hblk
      exact ⟨blk', hblk', by rwa [hsame]⟩
  | delete _ q' a p =>
      obtain ⟨blk, hblk, hstream⟩ := hs b q hq
      obtain ⟨blk', hblk', hsame, -⟩ := get_blocks_deleteMemBuf q' a p hblk
      exact ⟨blk', hblk', by rwa [hsame]⟩
  | sizeMap =>
      rw [memBlockList_setSizeMap] at hq
      rw [blocks_setSizeMap]
      exact hs b q hq
  | block b' blk' _ _ hstream _ hadd =>
      have hadded := added_of_addMemBlock hadd
      rw [hadded.blocks]
      rcases (hadded.memBlockList b q).mp hq with hq | ⟨rfl, rfl⟩
      · obtain ⟨blk, hblk, hstream⟩ := hs b q hq
        exact ⟨blk, by rwa [Heap.get_new, if_neg (Heap.ne_next hblk)], hstream⟩
      · exact ⟨blk', Heap.get_new_self .., hstream⟩
  | rest _ _ hblocks hmng =>
      obtain ⟨u, mps, hmng⟩ := hmng b
      rw [hmng] at hq
      rw [hblocks]
      exact hs b q hq

theorem owned (h : Write ok s s') (hs : Owned s) : Owned s' := by
  intro b q hq
  cases h with
  | buf p f hplace =>
      obtain ⟨blk, hblk, hbufs⟩ := hs b q hq
      refine ⟨blk, hblk, fun a p' hp' => ?_⟩
      obtain ⟨x, hx, haddr, hptr⟩ := hbufs a p' hp'
      show ∃ x, (s.bufs.modify p f).get p' = some x ∧ _
      rw [Heap.get_modify]
      split
      · rename_i hpp
        rw [← hpp, hx]
        exact ⟨f x, rfl, by rw [(hplace x).1, haddr], by rw [(hplace x).2, hptr]⟩
      · exact ⟨x, hx, haddr, hptr⟩
  | new y =>
      obtain ⟨blk, hblk, hbufs⟩ := hs b q hq
      obtain ⟨blk', hblk', -, hmap⟩ := get_blocks_newMemBuf y hblk
      refine ⟨blk', hblk', fun a p hp => ?_⟩
      show ∃ x, (s.bufs.new y).get p = some x ∧ _
      rw [hmap] at hp
      rcases Option.or_eq_some_iff.mp hp with hp | ⟨-, hp⟩
      · obtain ⟨x, hx, hrest⟩ := hbufs a p hp
        exact ⟨x, by rwa [Heap.get_new, if_neg (Heap.ne_next hx)], hrest⟩
      · split at hp
        · rename_i hqa
          cases hp
          exact ⟨y, Heap.get_new_self .., hqa.2.symm, hqa.1.symm⟩
        · cases hp
  | delete b' q' a' p' old hq' hold hp' =>
      obtain ⟨blk, hblk, hbufs⟩ := hs b q hq
      -- the deleted buf says in which block and at which address it was
      obtain ⟨y, hy, haddr', hptr'⟩ : ∃ y, s.bufs.get p' = some y ∧ y.deviceAddr = a' ∧
          y.memBlockPtr = q' := by
        obtain ⟨old', hold', hbufs'⟩ := hs b' q' hq'
        rw [hold] at hold'
        cases hold'
        exact hbufs' a' p' hp'
      obtain ⟨blk', hblk', -, hmap⟩ := get_blocks_deleteMemBuf q' a' p' hblk
      refine ⟨blk', hblk', fun a p hp => ?_⟩
      show ∃ x, (s.bufs.delete p').get p = some x ∧ _
      rw [hmap] at hp
      split at hp
      · cases hp
      · rename_i hne
        obtain ⟨x, hx, haddr, hptr⟩ := hbufs a p hp
        refine ⟨x, ?_, haddr, hptr⟩
        rw [Heap.get_delete, if_neg, hx]
        intro hpp
        rw [hpp, hy] at hx
        cases hx
        exact hne ⟨by rw [← hptr, hptr'], by rw [← haddr, haddr']⟩
  | sizeMap =>
      rw [memBlockList_setSizeMap] at hq
      rw [blocks_setSizeMap, bufs_setSizeMap]
      exact hs b q hq
  | block b' blk' _ _ _ hempty hadd =>
      have hadded := added_of_addMemBlock hadd
      rw [hadded.blocks, hadded.bufs]
      rcases (hadded.memBlockList b q).mp hq with hq | ⟨rfl, rfl⟩
      · obtain ⟨blk, hblk, hbufs⟩ := hs b q hq
        exact ⟨blk, by rwa [Heap.get_new, if_neg (Heap.ne_next hblk)], hbufs⟩
      · refine ⟨blk', Heap.get_new_self .., fun a p hp => ?_⟩
        have hmem := OrdMap.find?_eq_some_iff.mp hp
        rw [hempty] at hmem
        cases hmem
  | rest _ hbufs hblocks hmng =>
      obtain ⟨u, mps, hmng⟩ := hmng b
      rw [hmng] at hq
      rw [hblocks, hbufs]
      exact hs b q hq

/-- Without the status of an eager free nothing is entered for it. -/
theorem quiet (h : Write (· ≠ .eagerFree) s s') (hs : Quiet s) : Quiet s' := by
  refine ⟨fun p => h.okAt (hs.bufs p), fun b map hmap => ?_⟩
  cases h with
  | buf | new | delete => exact hs.entries b map hmap
  | sizeMap b' st i map' hmap' =>
      rw [container_setSizeMap] at hmap
      split at hmap
      · rename_i hsame
        have hcontainer := MemStatusManager.container_congr hsame.2 (s.mng b')
        rcases List.mem_or_eq_of_mem_set hmap with hmap | rfl
        · rw [hcontainer] at hmap
          exact hs.entries b' map hmap
        · rw [List.eq_nil_iff_forall_not_mem]
          intro e he
          rcases hmap' e he with ⟨old, hmem, he⟩ | ⟨hused, hst, -⟩
          · rw [hcontainer] at hmem
            rw [hs.entries b' old hmem] at he
            cases he
          · cases st with
            | idle => exact absurd (hsame.2.mp rfl) (by decide)
            | used => exact hused rfl
            | eagerFree => exact hst rfl
      · exact hs.entries b map hmap
  | block _ _ _ _ _ _ hadd =>
      rw [(added_of_addMemBlock hadd).container] at hmap
      exact hs.entries b map hmap
  | rest _ _ _ hmng =>
      obtain ⟨u, mps, hmng⟩ := hmng b
      rw [hmng] at hmap
      exact hs.entries b map hmap

end Write

/-! ## What many writes keep -/

namespace Writes

theorem refl (s : DynamicMemPoolBestFitOpt) : Writes ok s s := Relation.ReflTransGen.refl

theorem trans {s₁ s₂ s₃ : DynamicMemPoolBestFitOpt} (h : Writes ok s₁ s₂) (h' : Writes ok s₂ s₃) :
    Writes ok s₁ s₃ := Relation.ReflTransGen.trans h h'

theorem of_write (h : Write ok s s') : Writes ok s s' := Relation.ReflTransGen.single h

theorem write {s'' : DynamicMemPoolBestFitOpt} (h : Writes ok s s') (hw : Write ok s' s'') :
    Writes ok s s'' := Relation.ReflTransGen.tail h hw

/-- What every write keeps. -/
theorem keep {P : DynamicMemPoolBestFitOpt → Prop} (h : Writes ok s s') (hs : P s)
    (hstep : ∀ s s', Write ok s s' → P s → P s') : P s' := by
  induction h with
  | refl => exact hs
  | tail _ hw ih => exact hstep _ _ hw ih

theorem memBlocks (h : Writes ok s s') (b : Bool) :
    (s'.mng b).memBlocks.length = (s.mng b).memBlocks.length :=
  h.keep (P := fun s' => (s'.mng b).memBlocks.length = (s.mng b).memBlocks.length) rfl
    fun _ _ hw ih => (hw.memBlocks b).trans ih

theorem container (h : Writes ok s s') (b : Bool) (st : DynamicMemBufStatus) :
    ((s'.mng b).container st).length = ((s.mng b).container st).length :=
  h.keep (P := fun s' => ((s'.mng b).container st).length = ((s.mng b).container st).length) rfl
    fun _ _ hw ih => (hw.container b st).trans ih

theorem okAt (h : Writes ok s s') (hp : OkAt ok p s) : OkAt ok p s' :=
  h.keep hp fun _ _ hw ih => hw.okAt ih

theorem entries (h : Writes ok s s') (hst : Entries ok st s) : Entries ok st s' :=
  h.keep hst fun _ _ hw ih => hw.entries ih

theorem streams (h : Writes ok s s') (hs : Streams s) : Streams s' :=
  h.keep hs fun _ _ hw ih => hw.streams ih

theorem owned (h : Writes ok s s') (hs : Owned s) : Owned s' :=
  h.keep hs fun _ _ hw ih => hw.owned ih

theorem quiet (h : Writes (· ≠ .eagerFree) s s') (hs : Quiet s) : Quiet s' :=
  h.keep hs fun _ _ hw ih => hw.quiet ih

end Writes

end DynamicMemPoolBestFitOpt

end Ccbase.DynamicMem.Opt

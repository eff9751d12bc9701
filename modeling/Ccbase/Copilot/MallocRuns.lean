import Ccbase.Copilot.MallocOps
import Ccbase.Lib.Run

/-!
# Runs of `malloc`, `realloc` and `free`

A client keeps the pointers it was given and not yet gave back, with the size it asked
for, and writes to their payloads as it likes. The blocks that are not free hold the
live payloads, so each call leaves these alone.

Until the first call of `malloc` the pool has no list; what is said of the list then
is about the one that `malloc` is going to make.
-/

namespace Ccbase.Copilot

open Ccbase.Lib

/-- `live` has the pointers in use, with the sizes asked for. -/
structure Client where
  manager : Manager
  live : Nat → Option Nat

inductive Op where
  | malloc (size : Nat)
  | realloc (ptr size : Nat)
  | free (ptr : Nat)
  /-- The client writes a byte of a payload. -/
  | store (ptr i : Nat) (v : UInt8)

namespace Client

variable (memoryPool : Nat)

/-- A call, with the pointer it returns. -/
def exec (c : Client) : Op → Option (Nat × Client)
  | .malloc size =>
      (malloc memoryPool c.manager size).map fun (p, s) =>
        (p, ⟨s, if p = 0 then c.live else Function.update c.live p (some size)⟩)
  | .realloc ptr size =>
      (realloc memoryPool c.manager ptr size).map fun (p, s) =>
        (p, ⟨s, if p = 0 then c.live
          else Function.update (Function.update c.live ptr none) p (some size)⟩)
  | .free ptr =>
      (Copilot.free c.manager ptr).map fun s => (0, ⟨s, Function.update c.live ptr none⟩)
  | .store ptr i v =>
      some (0, { c with
        manager := { c.manager with mem := Function.update c.manager.mem (ptr + i) v } })

/-- The length of the payload at a pointer. -/
def payload (c : Client) (p : Nat) : Nat := sizeOf c.manager.mem (p - metaSize)

/-- Pointers that are passed are null or live. -/
def Allowed (c : Client) : Op → Prop
  | .malloc size => size < 2 ^ 64
  | .realloc ptr size => size < 2 ^ 64 ∧ (ptr = 0 ∨ c.live ptr ≠ none)
  | .free ptr => ptr = 0 ∨ c.live ptr ≠ none
  | .store ptr i _ => c.live ptr ≠ none ∧ i < c.payload ptr

/-- The blocks `bs` fill the pool, and those that are not free hold the live payloads. -/
structure Sound (c : Client) (bs : List Block) : Prop where
  listed : Listed (c.manager.initialized memoryPool).mem memoryPool bs
    (memoryPool + memoryPoolSize)
  first : (c.manager.initialized memoryPool).freeList = headAddr bs 0
  live : ∀ p n, c.live p = some n → ∃ b ∈ bs, b.free = false ∧ p = b.addr + metaSize ∧ n ≤ b.size
  unused : c.manager.freeList = 0 → ∀ p, c.live p = none

/-- Payloads that stay live are as they were. -/
def Undisturbed (c c' : Client) : Prop :=
  ∀ p, c.live p ≠ none → c'.live p ≠ none →
    c'.payload p = c.payload p ∧ ∀ i < c.payload p, c'.manager.mem (p + i) = c.manager.mem (p + i)

/-- What a call promises, in terms of the list before it. -/
def Keeps (c : Client) (bs : List Block) : Op → Nat → Client → Prop
  | .malloc size, r, c' =>
      (r = 0 ↔ ∀ b ∈ bs, b.free = true → b.size < size) ∧ c.Undisturbed c'
  | .realloc ptr _, r, c' =>
      c.Undisturbed c' ∧
        (ptr ≠ 0 → r ≠ 0 → ∀ i < c.payload ptr, c'.manager.mem (r + i) = c.manager.mem (ptr + i))
  | .free _, _, c' => c.Undisturbed c'
  | .store .., _, _ => True

/-- What becomes of the list in a call. `realloc` is left open. -/
def Relisted (bs : List Block) : Op → List Block → Prop
  | .malloc size, bs' => bs' = bs ∨ ∃ L b R, bs = L ++ b :: R ∧ b.free = true ∧
      bs' = L ++ (taken b size ++ R)
  | .realloc .., _ => True
  | .free ptr, bs' => (ptr = 0 ∧ bs' = bs) ∨ ∃ L b R, bs = L ++ b :: R ∧
      ptr = b.addr + metaSize ∧ bs' = mergePass (L ++ { b with free := true } :: R)
  | .store .., bs' => bs' = bs

end Client

variable {memoryPool : Nat} {c c' : Client} {bs bs' : List Block} {s : Manager} {size : Nat}

theorem initialized_of_ne (h : s.freeList ≠ 0) : s.initialized memoryPool = s :=
  if_neg h

/-- The list that `malloc` makes at its first call. -/
theorem initialize_listed (hpool : 0 < memoryPool) (hfits : memoryPool + memoryPoolSize < 2 ^ 64)
    (s : Manager) :
    Listed (initializeMemoryManager memoryPool s).mem memoryPool
      [⟨memoryPool, memoryPoolSize - metaSize, true⟩] (memoryPool + memoryPoolSize) := by
  refine ⟨⟨Header.make s.mem true (by decide) (by decide), trivial⟩, ⟨rfl, piece_pos _, ?_⟩, hpool,
    hfits⟩
  show memoryPool + (metaSize + (memoryPoolSize - metaSize)) = memoryPool + memoryPoolSize
  rw [metaSize, memoryPoolSize]

/-- The two outcomes of `malloc`. -/
theorem malloc_cases (h : Listed (s.initialized memoryPool).mem memoryPool bs
      (memoryPool + memoryPoolSize))
    (hfirst : (s.initialized memoryPool).freeList = headAddr bs 0) (size : Nat) :
    ((∀ b ∈ bs, b.free = true → b.size < size) ∧
      malloc memoryPool s size = some (0, s.initialized memoryPool)) ∨
    ∃ L b R, bs = L ++ b :: R ∧ b.free = true ∧ size ≤ b.size ∧
      malloc memoryPool s size = some (b.addr + metaSize,
        ⟨takeBlock (s.initialized memoryPool).mem b.addr size,
          (s.initialized memoryPool).freeList⟩) := by
  have hfind : findFit (s.initialized memoryPool).mem size memoryPoolSize (headAddr bs 0) =
      some (((bs.find? (Fits size)).map Block.addr).getD 0) := h.findFit
  rw [← hfirst] at hfind
  cases hb : bs.find? (Fits size) with
  | none =>
      left
      rw [hb] at hfind
      refine ⟨fun b hmem hfree => ?_, ?_⟩
      · have := List.find?_eq_none.mp hb b hmem
        rw [Fits, hfree, Bool.true_and, decide_eq_true_eq] at this
        omega
      · rw [malloc, hfind]
        rfl
  | some b =>
      right
      rw [hb] at hfind
      obtain ⟨hfits, L, R, rfl, -⟩ := List.find?_eq_some_iff_append.mp hb
      rw [Fits, Bool.and_eq_true, decide_eq_true_eq] at hfits
      refine ⟨L, b, R, rfl, hfits.1, hfits.2, ?_⟩
      have hpos := h.addr_pos (List.mem_append_right L List.mem_cons_self)
      rw [malloc, hfind]
      show some (if b.addr = 0 then _ else _) = _
      rw [if_neg hpos]
      rfl

namespace Client

theorem Sound.manager_of_live (h : Sound memoryPool c bs) {p : Nat} (hp : c.live p ≠ none) :
    c.manager.initialized memoryPool = c.manager := by
  refine initialized_of_ne fun hzero => hp (h.unused hzero p)

/-- The block of a live pointer. -/
theorem Sound.block (h : Sound memoryPool c bs) {p : Nat} (hp : c.live p ≠ none) :
    ∃ b ∈ bs, b.free = false ∧ p = b.addr + metaSize ∧ c.payload p = b.size := by
  obtain ⟨n, hn⟩ := Option.ne_none_iff_exists'.mp hp
  obtain ⟨b, hb, hfree, rfl, -⟩ := h.live p n hn
  have hlisted := h.listed
  rw [h.manager_of_live hp] at hlisted
  obtain ⟨next, hheader⟩ := hlisted.chain.mem hb
  refine ⟨b, hb, hfree, rfl, ?_⟩
  rw [payload, Nat.add_sub_cancel]
  exact hheader.size

/-- Blocks that stay hold payloads that stay. -/
theorem Sound.undisturbed (h : Sound memoryPool c bs) (h' : Sound memoryPool c' bs')
    (hkeep : ∀ b ∈ bs, b.free = false → c.live (b.addr + metaSize) ≠ none →
      c'.live (b.addr + metaSize) ≠ none → b ∈ bs' ∧
        ∀ x, b.addr + metaSize ≤ x → x < b.addr + metaSize + b.size →
          c'.manager.mem x = c.manager.mem x) : c.Undisturbed c' := by
  intro p hp hp'
  obtain ⟨b, hb, hfree, rfl, hsize⟩ := h.block hp
  obtain ⟨hb', hbytes⟩ := hkeep b hb hfree hp hp'
  have hlisted := h'.listed
  rw [h'.manager_of_live hp'] at hlisted
  obtain ⟨next, hheader⟩ := hlisted.chain.mem hb'
  refine ⟨?_, fun i hi => hbytes _ (by omega) (by omega)⟩
  rw [hsize, payload, Nat.add_sub_cancel]
  exact hheader.size

/-- Different live payloads do not overlap. -/
theorem Sound.disjoint (h : Sound memoryPool c bs) {p q : Nat} (hp : c.live p ≠ none)
    (hq : c.live q ≠ none) (hne : p ≠ q) : p + c.payload p ≤ q ∨ q + c.payload q ≤ p := by
  obtain ⟨b, hb, -, rfl, hsize⟩ := h.block hp
  obtain ⟨d, hd, -, rfl, hsize'⟩ := h.block hq
  have := h.listed.payload_disjoint hb hd fun heq => hne (by rw [heq])
  omega

/-- A live payload has no byte of a header. -/
theorem Sound.no_header (h : Sound memoryPool c bs) {p : Nat} (hp : c.live p ≠ none) {b : Block}
    (hb : b ∈ bs) {i : Nat} (hi : i < c.payload p) :
    p + i < b.addr ∨ b.addr + metaSize ≤ p + i := by
  obtain ⟨d, hd, -, rfl, hsize⟩ := h.block hp
  exact h.listed.payload_header hd hb (by omega) (by omega)

theorem Sound.freeList_ne (h : Sound memoryPool c bs) :
    (c.manager.initialized memoryPool).freeList ≠ 0 := by
  rw [h.first]
  cases bs with
  | nil =>
      have hempty : memoryPool = memoryPool + memoryPoolSize := h.listed.blocks
      rw [memoryPoolSize] at hempty
      omega
  | cons b bs => exact h.listed.addr_pos List.mem_cons_self

/-- Nothing changes but that the list is made. -/
theorem Sound.initialized (h : Sound memoryPool c bs) :
    Sound memoryPool ⟨c.manager.initialized memoryPool, c.live⟩ bs ∧
      c.Undisturbed ⟨c.manager.initialized memoryPool, c.live⟩ := by
  have hsame : (c.manager.initialized memoryPool).initialized memoryPool =
      c.manager.initialized memoryPool := initialized_of_ne h.freeList_ne
  have hsound : Sound memoryPool ⟨c.manager.initialized memoryPool, c.live⟩ bs := by
    refine ⟨?_, ?_, h.live, fun hzero => absurd hzero h.freeList_ne⟩
    · rw [hsame]
      exact h.listed
    · rw [hsame]
      exact h.first
  refine ⟨hsound, h.undisturbed hsound fun b hb _ hlive _ => ⟨hb, fun x _ _ => ?_⟩⟩
  show (c.manager.initialized memoryPool).mem x = c.manager.mem x
  rw [h.manager_of_live hlive]

/-- A list that the client uses from here on. -/
theorem sound_of_listed {m : Memory} {freeList : Nat} {live : Nat → Option Nat}
    (hlisted : Listed m memoryPool bs (memoryPool + memoryPoolSize))
    (hfirst : freeList = headAddr bs 0) (hne : freeList ≠ 0)
    (hlive : ∀ p n, live p = some n →
      ∃ b ∈ bs, b.free = false ∧ p = b.addr + metaSize ∧ n ≤ b.size) :
    Sound memoryPool ⟨⟨m, freeList⟩, live⟩ bs := by
  have hsame : (⟨m, freeList⟩ : Manager).initialized memoryPool = ⟨m, freeList⟩ :=
    initialized_of_ne hne
  exact ⟨by rw [hsame]; exact hlisted, by rw [hsame]; exact hfirst, hlive,
    fun hzero => absurd hzero hne⟩

/-- `malloc` for a client. -/
theorem Sound.malloc (h : Sound memoryPool c bs) (size : Nat) :
    ((∀ b ∈ bs, b.free = true → b.size < size) ∧
      malloc memoryPool c.manager size = some (0, c.manager.initialized memoryPool)) ∨
    ∃ p s bs', malloc memoryPool c.manager size = some (p, s) ∧ p ≠ 0 ∧
      (∃ L b R, bs = L ++ b :: R ∧ b.free = true ∧ size ≤ b.size ∧
        bs' = L ++ (taken b size ++ R)) ∧ c.live p = none ∧
      Sound memoryPool ⟨s, Function.update c.live p (some size)⟩ bs' ∧
      c.Undisturbed ⟨s, Function.update c.live p (some size)⟩ := by
  rcases malloc_cases h.listed h.first size with
    ⟨hnone, hmalloc⟩ | ⟨L, b, R, rfl, hbfree, hle, hmalloc⟩
  · exact Or.inl ⟨hnone, hmalloc⟩
  right
  have hbmem : b ∈ L ++ b :: R := List.mem_append_right L List.mem_cons_self
  obtain ⟨-, hheader, -⟩ := chain_append.mp h.listed.chain
  have hend := h.listed.end_le hbmem
  have hfits := h.listed.fits
  have hother : ∀ {d : Block}, d ∈ L ++ b :: R → d.free = false →
      d.addr ≠ b.addr ∧ d ∈ L ++ (taken b size ++ R) := by
    intro d hd hfree
    refine ⟨fun heq => ?_, ?_⟩
    · rw [h.listed.eq_of_addr hd hbmem heq, hbfree] at hfree
      cases hfree
    · rcases List.mem_append.mp hd with hd | hd
      · exact List.mem_append_left _ hd
      · rcases List.mem_cons.mp hd with rfl | hd
        · rw [hbfree] at hfree
          cases hfree
        · exact List.mem_append_right _ (List.mem_append_right _ hd)
  obtain ⟨t, rest, htaken, htaddr, htfree, hsize, -, -⟩ := taken_head b size hle
  have hsound : Sound memoryPool
      ⟨⟨takeBlock (c.manager.initialized memoryPool).mem b.addr size,
        (c.manager.initialized memoryPool).freeList⟩,
        Function.update c.live (b.addr + metaSize) (some size)⟩ (L ++ (taken b size ++ R)) := by
    refine sound_of_listed (h.listed.take hle) ?_ h.freeList_ne fun p n hp => ?_
    · rw [h.first, headAddr_append, headAddr_append, htaken, List.cons_append, headAddr, headAddr,
        htaddr]
    · by_cases hpb : p = b.addr + metaSize
      · rw [hpb, Function.update_self] at hp
        cases hp
        refine ⟨t, ?_, htfree, by rw [hpb, htaddr], hsize⟩
        rw [htaken]
        exact List.mem_append_right L List.mem_cons_self
      · rw [Function.update_of_ne hpb] at hp
        obtain ⟨d, hd, hfree, hpd, hn⟩ := h.live p n hp
        exact ⟨d, (hother hd hfree).2, hfree, hpd, hn⟩
  refine ⟨b.addr + metaSize, _, _, hmalloc, by rw [metaSize]; omega,
    ⟨L, b, R, rfl, hbfree, hle, rfl⟩, ?_,
    hsound, h.undisturbed hsound fun d hd hfree hlive _ =>
      ⟨(hother hd hfree).2, fun x h₁ h₂ => ?_⟩⟩
  · by_contra hlive
    obtain ⟨d, hd, hfree, heq, -⟩ := h.block hlive
    exact (hother hd hfree).1 (by omega)
  · have hdisjoint := h.listed.payload_disjoint hd hbmem (hother hd hfree).1
    show takeBlock (c.manager.initialized memoryPool).mem b.addr size x = c.manager.mem x
    rw [takeBlock_outside hheader hle (by omega) (by omega), h.manager_of_live hlive]

/-- `free` of a live pointer. -/
theorem Sound.free (h : Sound memoryPool c bs) {ptr : Nat} (hptr : c.live ptr ≠ none) :
    ∃ s bs', Copilot.free c.manager ptr = some s ∧
      Sound memoryPool ⟨s, Function.update c.live ptr none⟩ bs' ∧
      (∃ L b R, bs = L ++ b :: R ∧ ptr = b.addr + metaSize ∧
        bs' = mergePass (L ++ { b with free := true } :: R)) ∧
      c.Undisturbed ⟨s, Function.update c.live ptr none⟩ := by
  have hmanager := h.manager_of_live hptr
  have hlisted := h.listed
  have hfirst := h.first
  have hne := h.freeList_ne
  rw [hmanager] at hlisted hfirst hne
  obtain ⟨b, hb, hbfree, rfl, -⟩ := h.block hptr
  obtain ⟨L, R, rfl⟩ := List.append_of_mem hb
  have hmarked := hlisted.setFree true
  have hhead : headAddr (L ++ { b with free := true } :: R) 0 = headAddr (L ++ b :: R) 0 := by
    rw [headAddr_append, headAddr_append]
    rfl
  obtain ⟨m', hloop, hlisted', hout⟩ := coalesce_spec memoryPoolSize
    (L := []) (R := L ++ { b with free := true } :: R) hmarked (by
      have hlength := length_le_of_blocks hmarked.blocks
      rw [metaSize, memoryPoolSize] at *
      omega)
  rw [List.nil_append] at hlisted'
  have hother : ∀ {d : Block}, d ∈ L ++ b :: R → d.free = false → d.addr ≠ b.addr →
      d ∈ L ++ { b with free := true } :: R := by
    intro d hd _ hda
    rcases List.mem_append.mp hd with hd | hd
    · exact List.mem_append_left _ hd
    · rcases List.mem_cons.mp hd with rfl | hd
      · exact absurd rfl hda
      · exact List.mem_append_right _ (List.mem_cons_of_mem _ hd)
  have hsound : Sound memoryPool ⟨⟨m', c.manager.freeList⟩,
      Function.update c.live (b.addr + metaSize) none⟩
      (mergePass (L ++ { b with free := true } :: R)) := by
    refine sound_of_listed hlisted' ?_ hne fun p n hp => ?_
    · rw [headAddr_mergePass, hhead, hfirst]
    · by_cases hpb : p = b.addr + metaSize
      · rw [hpb, Function.update_self] at hp
        cases hp
      · rw [Function.update_of_ne hpb] at hp
        obtain ⟨d, hd, hfree, hpd, hn⟩ := h.live p n hp
        have hmem := hother hd hfree fun heq => hpb (by rw [hpd, heq])
        exact ⟨d, mergePass_nonfree hfree hmem, hfree, hpd, hn⟩
  refine ⟨⟨m', c.manager.freeList⟩, _, ?_, hsound, ⟨L, b, R, rfl, rfl, rfl⟩,
    h.undisturbed hsound fun d hd hfree _ hlive => ?_⟩
  · rw [Copilot.free, if_neg (by rw [metaSize]; omega), Nat.add_sub_cancel, hfirst, ← hhead]
    show (coalesce memoryPoolSize (setFree c.manager.mem b.addr (if true then 1 else 0)) _).map _ =
      _
    rw [hloop]
    rfl
  · have hda : d.addr ≠ b.addr := by
      intro heq
      rw [heq] at hlive
      exact hlive (Function.update_self ..)
    have hmem := hother hd hfree hda
    refine ⟨mergePass_nonfree hfree hmem, fun x h₁ h₂ => ?_⟩
    have hbeside := hlisted.payload_header hd hb h₁ h₂
    show m' x = c.manager.mem x
    rw [hout x fun e he => hmarked.payload_header hmem he h₁ h₂, setFree_outside hbeside]

/-- The end of a `realloc` that moves: the bytes are copied and the old block is free. -/
theorem Sound.moved (h : Sound memoryPool c bs) {ptr newPtr : Nat} (hptr : c.live ptr ≠ none)
    (hnew : c.live newPtr ≠ none) (hne : ptr ≠ newPtr) (hle : c.payload ptr ≤ c.payload newPtr) :
    ∃ m bs', setFree (c.manager.mem.writeBytes newPtr
        (c.manager.mem.readBytes ptr (c.payload ptr))) (ptr - metaSize) 1 = m ∧
      Sound memoryPool ⟨⟨m, c.manager.freeList⟩, Function.update c.live ptr none⟩ bs' ∧
      (∀ i < c.payload ptr, m (newPtr + i) = c.manager.mem (ptr + i)) ∧
      ∀ p, p ≠ ptr → p ≠ newPtr → c.live p ≠ none →
        sizeOf m (p - metaSize) = c.payload p ∧
          ∀ i < c.payload p, m (p + i) = c.manager.mem (p + i) := by
  have hmanager := h.manager_of_live hptr
  have hlisted := h.listed
  have hfirst := h.first
  have hnezero := h.freeList_ne
  rw [hmanager] at hlisted hfirst hnezero
  obtain ⟨b, hb, hbfree, rfl, hbsize⟩ := h.block hptr
  obtain ⟨d, hd, hdfree, rfl, hdsize⟩ := h.block hnew
  have hbd : b.addr ≠ d.addr := fun heq => hne (by rw [heq])
  have hlength : (c.manager.mem.readBytes (b.addr + metaSize)
      (c.payload (b.addr + metaSize))).length
      = b.size := by
    rw [Memory.readBytes, List.length_map, List.length_range, hbsize]
  -- the copy stays within the payload of the new block
  have hcopyOut : ∀ {x : Nat}, x < d.addr + metaSize ∨ d.addr + metaSize + d.size ≤ x →
      c.manager.mem.writeBytes (d.addr + metaSize) (c.manager.mem.readBytes (b.addr + metaSize)
        (c.payload (b.addr + metaSize))) x = c.manager.mem x := by
    intro x hx
    refine Memory.writeBytes_outside ?_
    rw [hlength]
    omega
  have hcopied : Listed (c.manager.mem.writeBytes (d.addr + metaSize) (c.manager.mem.readBytes
      (b.addr + metaSize) (c.payload (b.addr + metaSize)))) memoryPool bs
      (memoryPool + memoryPoolSize) := by
    refine hlisted.congr fun e he x h₁ h₂ => hcopyOut ?_
    by_contra hin
    have := hlisted.payload_header hd he (x := x) (by omega) (by omega)
    omega
  obtain ⟨L, R, rfl⟩ := List.append_of_mem hb
  have hmarked := hcopied.setFree true
  have hother : ∀ {e : Block}, e ∈ L ++ b :: R → e.addr ≠ b.addr →
      e ∈ L ++ { b with free := true } :: R := by
    intro e he hea
    rcases List.mem_append.mp he with he | he
    · exact List.mem_append_left _ he
    · rcases List.mem_cons.mp he with rfl | he
      · exact absurd rfl hea
      · exact List.mem_append_right _ (List.mem_cons_of_mem _ he)
  rw [Nat.add_sub_cancel]
  refine ⟨_, _, rfl, sound_of_listed hmarked ?_ hnezero fun p n hp => ?_, fun i hi => ?_,
    fun p hpb hpd hp => ?_⟩
  · rw [hfirst, headAddr_append, headAddr_append]
    rfl
  · by_cases hpb : p = b.addr + metaSize
    · rw [hpb, Function.update_self] at hp
      cases hp
    · rw [Function.update_of_ne hpb] at hp
      obtain ⟨e, he, hfree, hpe, hn⟩ := h.live p n hp
      exact ⟨e, hother he fun heq => hpb (by rw [hpe, heq]), hfree, hpe, hn⟩
  · have hbeside := hlisted.payload_header hd hb (x := d.addr + metaSize + i) (by omega) (by omega)
    rw [setFree_outside hbeside, Memory.writeBytes_inside (by rw [hlength]; omega)]
    simp only [Memory.readBytes, List.getElem_map, List.getElem_range]
  · obtain ⟨e, he, hefree, rfl, hesize⟩ := h.block hp
    have heb : e.addr ≠ b.addr := fun heq => hpb (by rw [heq])
    have hed : e.addr ≠ d.addr := fun heq => hpd (by rw [heq])
    obtain ⟨next, hheader⟩ := hmarked.chain.mem (hother he heb)
    refine ⟨by rw [Nat.add_sub_cancel, hesize]; exact hheader.size, fun i hi => ?_⟩
    have hbeside := hlisted.payload_header he hb (x := e.addr + metaSize + i) (by omega) (by omega)
    have hdisjoint := hlisted.payload_disjoint he hd hed
    have hcopy : e.addr + metaSize + i < d.addr + metaSize ∨
        d.addr + metaSize + d.size ≤ e.addr + metaSize + i := by omega
    show setFree _ b.addr 1 _ = _
    rw [setFree_outside hbeside, hcopyOut hcopy]

theorem Undisturbed.refl (c : Client) : c.Undisturbed c :=
  fun _ _ _ => ⟨rfl, fun _ _ => rfl⟩

theorem Sound.live_zero (h : Sound memoryPool c bs) : c.live 0 = none := by
  by_contra hlive
  obtain ⟨b, -, -, hzero, -⟩ := h.block hlive
  rw [metaSize] at hzero
  omega

/-- A size in use is not larger than the payload. -/
theorem Sound.requested_le (h : Sound memoryPool c bs) {p n : Nat} (hn : c.live p = some n) :
    n ≤ c.payload p := by
  obtain ⟨b, hb, -, rfl, hle⟩ := h.live p n hn
  obtain ⟨d, hd, -, heq, hsize⟩ := h.block (p := b.addr + metaSize) (by rw [hn]; simp)
  rw [hsize, ← h.listed.eq_of_addr hb hd (by omega)]
  exact hle

/-- A write of the client to a live payload. -/
theorem Sound.store (h : Sound memoryPool c bs) {ptr i : Nat} (v : UInt8)
    (hptr : c.live ptr ≠ none) (hi : i < c.payload ptr) :
    Sound memoryPool { c with manager :=
      { c.manager with mem := Function.update c.manager.mem (ptr + i) v } } bs := by
  have hmanager := h.manager_of_live hptr
  have hlisted := h.listed
  have hfirst := h.first
  have hne := h.freeList_ne
  rw [hmanager] at hlisted hfirst hne
  refine sound_of_listed (hlisted.congr fun b hb x h₁ h₂ => ?_) hfirst hne h.live
  refine Function.update_of_ne ?_ _ _
  rintro rfl
  have := h.no_header hptr hb hi
  omega

/-- `realloc` of a live pointer whose payload is large enough. -/
theorem Sound.resized (h : Sound memoryPool c bs) {ptr : Nat} (hptr : c.live ptr ≠ none)
    (hle : size ≤ c.payload ptr) :
    Sound memoryPool { c with
      live := Function.update (Function.update c.live ptr none) ptr (some size) } bs := by
  refine ⟨h.listed, h.first, fun p n hp => ?_, fun hzero => absurd (h.unused hzero ptr) hptr⟩
  dsimp only at hp
  by_cases hpp : p = ptr
  · subst hpp
    rw [Function.update_self] at hp
    cases hp
    obtain ⟨b, hb, hfree, hpb, hsize⟩ := h.block hptr
    exact ⟨b, hb, hfree, hpb, hsize ▸ hle⟩
  · rw [Function.update_of_ne hpp, Function.update_of_ne hpp] at hp
    exact h.live p n hp

/-- `realloc` of a live pointer whose payload is too small. -/
theorem Sound.grown (h : Sound memoryPool c bs) {ptr : Nat} (hptr : c.live ptr ≠ none)
    (hlt : c.payload ptr < size) :
    ∃ r s live bs', realloc memoryPool c.manager ptr size = some (r, s) ∧
      (live = if r = 0 then c.live
        else Function.update (Function.update c.live ptr none) r (some size)) ∧
      Sound memoryPool ⟨s, live⟩ bs' ∧ c.Undisturbed ⟨s, live⟩ ∧
      (r ≠ 0 → ∀ i < c.payload ptr, s.mem (r + i) = c.manager.mem (ptr + i)) := by
  have hzero : ptr ≠ 0 := by
    rintro rfl
    exact hptr h.live_zero
  have hsmall : ¬size ≤ sizeOf c.manager.mem (ptr - metaSize) := Nat.not_le.mpr hlt
  rcases h.malloc size with
    ⟨-, hmalloc⟩ | ⟨newPtr, s, bs₁, hmalloc, hnew, -, hfresh, h₁, hkeep⟩
  · obtain ⟨hsound, hkeep⟩ := h.initialized
    refine ⟨0, _, c.live, bs, ?_, rfl, hsound, hkeep, fun hne => absurd rfl hne⟩
    rw [realloc, if_neg hzero]
    dsimp only
    rw [if_neg hsmall, hmalloc]
    rfl
  have hne : ptr ≠ newPtr := by
    rintro rfl
    exact hptr hfresh
  have hold : Function.update c.live newPtr (some size) ptr ≠ none := by
    rw [Function.update_of_ne hne]
    exact hptr
  have hnewLive : Function.update c.live newPtr (some size) newPtr = some size :=
    Function.update_self ..
  obtain ⟨hsame, hbytes⟩ := hkeep ptr hptr hold
  have hroom : size ≤ payload ⟨s, Function.update c.live newPtr (some size)⟩ newPtr :=
    h₁.requested_le hnewLive
  obtain ⟨m, bs₂, hm, h₂, hcopied, hothers⟩ := @Sound.moved _ _ _ h₁ ptr newPtr
    hold (by dsimp only; rw [hnewLive]; simp) hne (by omega)
  have hcomm : Function.update (Function.update c.live newPtr (some size)) ptr none =
      Function.update (Function.update c.live ptr none) newPtr (some size) :=
    Function.update_comm hne.symm _ _ _
  rw [hcomm] at h₂
  refine ⟨newPtr, _, _, bs₂, ?_, (if_neg hnew).symm, h₂, fun p hp hp' => ?_, fun _ i hi => ?_⟩
  · rw [realloc, if_neg hzero]
    dsimp only
    rw [if_neg hsmall, hmalloc, Option.map_some, if_neg hnew, ← hm]
    rfl
  · have hpp : p ≠ ptr := by
      rintro rfl
      refine hp' ?_
      show Function.update (Function.update c.live p none) newPtr (some size) p = none
      rw [Function.update_of_ne hne, Function.update_self]
    have hpn : p ≠ newPtr := by
      rintro rfl
      exact hp hfresh
    have hlive : Function.update c.live newPtr (some size) p ≠ none := by
      rw [Function.update_of_ne hpn]
      exact hp
    obtain ⟨hsize, hmem⟩ := hkeep p hp hlive
    obtain ⟨hsize', hmem'⟩ := hothers p hpp hpn hlive
    refine ⟨hsize'.trans hsize, fun i hi => ?_⟩
    exact (hmem' i (hsize.symm ▸ hi)).trans (hmem i hi)
  · exact (hcopied i (hsame.symm ▸ hi)).trans (hbytes i hi)

/-- Every call that is allowed returns, keeps the list and does what it promises. -/
theorem Sound.exec (h : Sound memoryPool c bs) {op : Op} (hallowed : c.Allowed op) :
    ∃ r c' bs', c.exec memoryPool op = some (r, c') ∧ Sound memoryPool c' bs' ∧
      c.Keeps bs op r c' ∧ Relisted bs op bs' := by
  have hmallocKeeps : ∀ size, ∃ r c' bs', c.exec memoryPool (.malloc size) = some (r, c') ∧
      Sound memoryPool c' bs' ∧ ((r = 0 ↔ ∀ b ∈ bs, b.free = true → b.size < size) ∧
      c.Undisturbed c') ∧ Relisted bs (.malloc size) bs' := by
    intro size
    rcases h.malloc size with
      ⟨hfull, hmalloc⟩ | ⟨p, s, bs', hmalloc, hp, ⟨L, b, R, hbs, hbfree, hle, hbs'⟩, -, h', hkeep⟩
    · obtain ⟨hsound, hkeep⟩ := h.initialized
      refine ⟨0, _, bs, ?_, hsound, ⟨⟨fun _ => hfull, fun _ => rfl⟩, hkeep⟩, .inl rfl⟩
      rw [Client.exec, hmalloc]
      rfl
    · refine ⟨p, _, bs', ?_, h', ⟨⟨fun hzero => absurd hzero hp, fun hfull => ?_⟩, hkeep⟩,
        .inr ⟨L, b, R, hbs, hbfree, hbs'⟩⟩
      · rw [Client.exec, hmalloc, Option.map_some]
        dsimp only
        rw [if_neg hp]
      · have := hfull b (by rw [hbs]; exact List.mem_append_right L List.mem_cons_self) hbfree
        omega
  cases op with
  | malloc size => exact hmallocKeeps size
  | realloc ptr size =>
      obtain ⟨-, hptr⟩ := hallowed
      by_cases hzero : ptr = 0
      · subst hzero
        obtain ⟨r, c', bs', hexec, h', ⟨-, hkeep⟩, -⟩ := hmallocKeeps size
        refine ⟨r, c', bs', ?_, h', ⟨hkeep, fun hne => absurd rfl hne⟩, trivial⟩
        have hsame : Function.update c.live 0 none = c.live := by
          rw [← h.live_zero, Function.update_eq_self]
        rw [Client.exec, realloc, if_pos rfl, hsame, ← hexec, Client.exec]
      replace hptr : c.live ptr ≠ none := hptr.resolve_left hzero
      by_cases hle : size ≤ c.payload ptr
      · refine ⟨ptr, _, bs, ?_, h.resized hptr hle, ⟨fun p _ _ => ⟨rfl, fun _ _ => rfl⟩,
          fun _ _ _ _ => rfl⟩, trivial⟩
        rw [Client.exec, realloc, if_neg hzero]
        dsimp only
        rw [if_pos (show size ≤ sizeOf c.manager.mem (ptr - metaSize) from hle), Option.map_some,
          if_neg hzero]
      · obtain ⟨r, s, live, bs', hrealloc, rfl, h', hkeep, hcopied⟩ :=
          h.grown hptr (Nat.lt_of_not_le hle)
        refine ⟨r, _, bs', ?_, h', ⟨hkeep, fun _ hr => hcopied hr⟩, trivial⟩
        rw [Client.exec, hrealloc]
        rfl
  | free ptr =>
      by_cases hzero : ptr = 0
      · subst hzero
        refine ⟨0, c, bs, ?_, h, Undisturbed.refl c, .inl ⟨rfl, rfl⟩⟩
        have hsame : Function.update c.live 0 none = c.live := by
          rw [← h.live_zero, Function.update_eq_self]
        rw [Client.exec, Copilot.free, if_pos rfl, Option.map_some, hsame]
      · obtain ⟨s, bs', hfree, h', hlist, hkeep⟩ := h.free (hallowed.resolve_left hzero)
        refine ⟨0, _, bs', ?_, h', hkeep, .inr hlist⟩
        rw [Client.exec, hfree]
        rfl
  | store ptr i v => exact ⟨0, _, bs, rfl, h.store v hallowed.1 hallowed.2, trivial, rfl⟩

/-- The list that the first call of `malloc` is going to make. -/
theorem sound_start (hpool : 0 < memoryPool) (hfits : memoryPool + memoryPoolSize < 2 ^ 64)
    (m : Memory) :
    Sound memoryPool ⟨⟨m, 0⟩, fun _ => none⟩ [⟨memoryPool, memoryPoolSize - metaSize, true⟩] := by
  have hmade : (⟨m, 0⟩ : Manager).initialized memoryPool =
      initializeMemoryManager memoryPool ⟨m, 0⟩ := if_pos rfl
  refine ⟨?_, ?_, fun p n hp => (nomatch hp), fun _ _ => rfl⟩
  · rw [hmade]
    exact initialize_listed hpool hfits _
  · rw [hmade]
    rfl

variable (memoryPool) in
/-- A call with what it returns. -/
def Step (c : Client) (l : Op × Nat) (c' : Client) : Prop :=
  c.exec memoryPool l.1 = some (l.2, c')

variable (memoryPool) in
/-- The call, if it returns what the label says. -/
def stepFn (c : Client) (l : Op × Nat) : Option Client :=
  (c.exec memoryPool l.1).bind fun r => if r.1 = l.2 then some r.2 else none

theorem step_of_stepFn {l : Op × Nat} (h : c.stepFn memoryPool l = some c') :
    Step memoryPool c l c' := by
  obtain ⟨⟨r, c''⟩, hexec, h⟩ := Option.bind_eq_some_iff.mp h
  split at h
  · rename_i hr
    cases h
    rw [Step, hexec, ← hr]
  · cases h

instance decidableAllowed (c : Client) (op : Op) : Decidable (c.Allowed op) :=
  match op with
  | .malloc size => inferInstanceAs (Decidable (size < 2 ^ 64))
  | .realloc ptr size => inferInstanceAs (Decidable (size < 2 ^ 64 ∧ (ptr = 0 ∨ c.live ptr ≠ none)))
  | .free ptr => inferInstanceAs (Decidable (ptr = 0 ∨ c.live ptr ≠ none))
  | .store ptr i _ => inferInstanceAs (Decidable (c.live ptr ≠ none ∧ i < c.payload ptr))

end Client

/-- After every run the list fills the pool, live payloads are apart from each other and from
the headers and as long as asked for, and the next call returns and leaves them alone. -/
theorem malloc_runs (hpool : 0 < memoryPool) (hfits : memoryPool + memoryPoolSize < 2 ^ 64)
    {m : Memory} {ls : List (Op × Nat)}
    (h : Run (fun c l c' => Client.Step memoryPool c l c' ∧ c.Allowed l.1)
      ⟨⟨m, 0⟩, fun _ => none⟩ ls c) :
    ∃ bs, (c.manager.initialized memoryPool).freeList = headAddr bs 0 ∧
      Chain (c.manager.initialized memoryPool).mem bs 0 ∧
      Blocks memoryPool bs (memoryPool + memoryPoolSize) ∧
      (c.manager.freeList = 0 → ∀ p, c.live p = none) ∧
      (∀ p n, c.live p = some n → n ≤ c.payload p ∧
        (∃ b ∈ bs, b.free = false ∧ p = b.addr + metaSize ∧ c.payload p = b.size) ∧
        (∀ q, c.live q ≠ none → p ≠ q → p + c.payload p ≤ q ∨ q + c.payload q ≤ p) ∧
        ∀ i < c.payload p, ∀ b ∈ bs, p + i < b.addr ∨ b.addr + metaSize ≤ p + i) ∧
      ∀ op, c.Allowed op → ∃ r c', Client.Step memoryPool c (op, r) c' ∧ c.Keeps bs op r c' := by
  have hrun : ∃ bs, Client.Sound memoryPool c bs := by
    refine h.state_inv (I := fun c => ∃ bs, Client.Sound memoryPool c bs)
      ⟨_, Client.sound_start hpool hfits m⟩ ?_
    rintro c ⟨op, r⟩ c' ⟨bs, hsound⟩ ⟨hstep, hallowed⟩
    obtain ⟨r', c'', bs', hexec, hsound', -, -⟩ := hsound.exec hallowed
    rw [Client.Step, hexec] at hstep
    cases hstep
    exact ⟨bs', hsound'⟩
  obtain ⟨bs, hsound⟩ := hrun
  refine ⟨bs, hsound.first, hsound.listed.chain, hsound.listed.blocks, hsound.unused,
    fun p n hn => ?_, fun op hallowed => ?_⟩
  · have hp : c.live p ≠ none := by
      rw [hn]
      exact Option.some_ne_none n
    exact ⟨hsound.requested_le hn, hsound.block hp, fun q hq hne => hsound.disjoint hp hq hne,
      fun i hi b hb => hsound.no_header hp hb hi⟩
  · obtain ⟨r, c', bs', hexec, -, hkeeps, -⟩ := hsound.exec hallowed
    exact ⟨r, c', hexec, hkeeps⟩

/-- Two payloads, of which the first grows and moves, and the rest of its block is used again. -/
theorem malloc_runs_moved :
    ∃ c : Client, Run (fun c l c' => Client.Step 4096 c l c' ∧ c.Allowed l.1)
      ⟨⟨fun _ => 0, 0⟩, fun _ => none⟩
      [(.malloc 16, 4120), (.malloc 8, 4160), (.store 4120 3 7, 0), (.realloc 4120 20, 4192),
        (.malloc 2000000, 0), (.free 4160, 0), (.malloc 40, 4120)] c ∧
      ∃ bs, Blocks 4096 bs (4096 + memoryPoolSize) := by
  have hexec : (Run.exec (Client.stepFn 4096) (fun c l => c.Allowed l.1)
      ⟨⟨fun _ => 0, 0⟩, fun _ => none⟩
      [(.malloc 16, 4120), (.malloc 8, 4160), (.store 4120 3 7, 0), (.realloc 4120 20, 4192),
        (.malloc 2000000, 0), (.free 4160, 0), (.malloc 40, 4120)]).isSome := by decide +kernel
  obtain ⟨c, hc⟩ := Option.isSome_iff_exists.mp hexec
  have hrun : Run (fun c l c' => Client.Step 4096 c l c' ∧ c.Allowed l.1)
      ⟨⟨fun _ => 0, 0⟩, fun _ => none⟩ _ c :=
    (Run.of_exec hc).imp fun _ _ _ h => ⟨Client.step_of_stepFn h.1, h.2⟩
  obtain ⟨bs, -, -, hblocks, -⟩ := malloc_runs (by decide) (by decide) hrun
  exact ⟨c, hrun, bs, hblocks⟩

end Ccbase.Copilot

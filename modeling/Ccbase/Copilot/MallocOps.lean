import Ccbase.Copilot.Malloc

/-!
# What `malloc`, `realloc` and `free` do to the list of blocks

`malloc` takes the first free block that is large enough, and makes a block of the
rest if there is room for a header and more. `free` joins free neighbours, pair by
pair, in one pass over the list. Payloads of the other blocks are not touched.
-/

namespace Ccbase.Copilot

open Ccbase.Lib

variable {m m' : Memory} {b : Block} {bs L R : List Block} {lo hi size : Nat}

/-- A list of blocks in memory that fills `[lo, hi)`, with addresses of 64 bits that are
not null. -/
structure Listed (m : Memory) (lo : Nat) (bs : List Block) (hi : Nat) : Prop where
  chain : Chain m bs 0
  blocks : Blocks lo bs hi
  pos : 0 < lo
  fits : hi < 2 ^ 64

theorem Listed.addr_pos (h : Listed m lo bs hi) (hb : b ∈ bs) : b.addr ≠ 0 := by
  have := (h.blocks.bounds hb).1
  have := h.pos
  omega

/-- A block ends where the list does, at the latest. -/
theorem Listed.end_le (h : Listed m lo bs hi) (hb : b ∈ bs) :
    b.addr + metaSize + b.size ≤ hi := by
  have := (h.blocks.bounds hb).2.1
  omega

theorem Listed.headAddr_lt (h : Listed m lo (L ++ R) hi) : headAddr R 0 < 2 ^ 64 := by
  cases R with
  | nil => exact Nat.two_pow_pos 64
  | cons c R =>
      have hend := h.end_le (List.mem_append_right L (List.mem_cons_self (a := c) (l := R)))
      have := h.fits
      show c.addr < 2 ^ 64
      omega

/-! ## `malloc` -/

def Fits (size : Nat) (b : Block) : Bool := b.free && decide (size ≤ b.size)

theorem findFit_spec (hchain : Chain m bs 0) (hpos : ∀ b ∈ bs, b.addr ≠ 0) : ∀ rounds,
    bs.length < rounds → findFit m size rounds (headAddr bs 0) =
      some (((bs.find? (Fits size)).map Block.addr).getD 0) := by
  induction bs with
  | nil =>
      intro rounds hrounds
      obtain ⟨rounds, rfl⟩ : ∃ r, rounds = r + 1 := ⟨rounds - 1, by simp at hrounds; omega⟩
      rfl
  | cons b bs ih =>
      intro rounds hrounds
      obtain ⟨rounds, rfl⟩ : ∃ r, rounds = r + 1 := ⟨rounds - 1, by simp at hrounds; omega⟩
      obtain ⟨hheader, hchain⟩ := hchain
      have hfit : (freeOf m b.addr ≠ 0 ∧ size ≤ sizeOf m b.addr) ↔ Fits size b = true := by
        rw [hheader.free, hheader.size, Fits, Bool.and_eq_true, decide_eq_true_eq]
        cases b.free <;> simp
      rw [headAddr, findFit, if_neg (hpos b List.mem_cons_self)]
      by_cases hfits : Fits size b = true
      · rw [if_pos (hfit.mpr hfits), List.find?_cons_of_pos hfits]
        rfl
      · rw [if_neg (fun h => hfits (hfit.mp h)), List.find?_cons_of_neg hfits, hheader.next]
        exact ih hchain (fun c hc => hpos c (List.mem_cons_of_mem b hc)) rounds
          (by simpa using hrounds)

/-- What becomes of the block that `malloc` takes. -/
def taken (b : Block) (size : Nat) : List Block :=
  if size + metaSize < b.size then
    [⟨b.addr, size, false⟩, ⟨b.addr + metaSize + size, b.size - size - metaSize, true⟩]
  else [{ b with free := false }]

theorem taken_head (b : Block) (size : Nat) (hle : size ≤ b.size) :
    ∃ c rest, taken b size = c :: rest ∧ c.addr = b.addr ∧ c.free = false ∧ size ≤ c.size ∧
      c.size ≤ b.size ∧ ∀ d ∈ rest, d.free = true := by
  rw [taken]
  split
  · refine ⟨_, _, rfl, rfl, rfl, Nat.le_refl size, hle, fun d hd => ?_⟩
    rw [List.mem_singleton.mp hd]
  · exact ⟨_, _, rfl, rfl, rfl, hle, Nat.le_refl _, by simp⟩

theorem blocks_taken (h : Blocks lo (L ++ b :: R) hi) (size : Nat) :
    Blocks lo (L ++ (taken b size ++ R)) hi := by
  obtain ⟨hL, -, hR⟩ := h.middle
  refine Tiles.append_iff.mpr ⟨b.addr, hL, ?_⟩
  rw [taken]
  split
  · rename_i hsplit
    refine ⟨rfl, piece_pos _, by rw [Nat.add_assoc], piece_pos _, ?_⟩
    have hend : b.addr + (metaSize + size) + (metaSize + (b.size - size - metaSize)) =
        b.addr + (metaSize + b.size) := by omega
    show Blocks (b.addr + (metaSize + size) + (metaSize + (b.size - size - metaSize))) R hi
    rw [hend]
    exact hR
  · exact ⟨rfl, piece_pos _, hR⟩

/-- `malloc` behind the search. -/
def takeBlock (m : Memory) (current size : Nat) : Memory :=
  setFree (if (size + metaSize) % 2 ^ 64 < sizeOf m current then splitBlock m current size else m)
    current 0

theorem takeBlock_outside {next : Nat} (hb : Header m b next) (hle : size ≤ b.size)
    (hfits : b.addr + metaSize + b.size < 2 ^ 64) {x : Nat}
    (hx : x < b.addr ∨ b.addr + metaSize + b.size ≤ x) : takeBlock m b.addr size x = m x := by
  have hmod : (size + metaSize) % 2 ^ 64 = size + metaSize := Nat.mod_eq_of_lt (by omega)
  rw [takeBlock, hmod, hb.size, setFree_outside (by omega)]
  split
  · rw [splitBlock, setNext_outside (by omega), setSize_outside (by omega),
      setNext_outside (by omega), setFree_outside (by omega), setSize_outside (by omega)]
  · rfl

theorem takeBlock_chain (h : Listed m lo (L ++ b :: R) hi) (hle : size ≤ b.size) :
    Chain (takeBlock m b.addr size) (L ++ (taken b size ++ R)) 0 := by
  have hmem : b ∈ L ++ b :: R := List.mem_append_right L List.mem_cons_self
  have hend := h.end_le hmem
  have hfits := h.fits
  obtain ⟨-, hheader, -⟩ := chain_append.mp h.chain
  have hnextLt : headAddr R 0 < 2 ^ 64 := by
    have hlist : Listed m lo ((L ++ [b]) ++ R) hi := by simpa using h
    exact hlist.headAddr_lt
  obtain ⟨hcL, hcR⟩ := Chain.congr_around h.blocks h.chain
    fun x hx => takeBlock_outside hheader hle (by omega) hx
  have hmod : (size + metaSize) % 2 ^ 64 = size + metaSize := Nat.mod_eq_of_lt (by omega)
  refine chain_append.mpr ⟨?_, chain_append.mpr ⟨?_, hcR⟩⟩
  · rw [show headAddr (taken b size ++ R) 0 = b.addr by rw [taken]; split <;> rfl]
    exact hcL
  · rw [taken, takeBlock, hmod, hheader.size]
    split
    · rename_i hsplit
      -- first the header of the rest, then that of the block itself
      have hrest := Header.make (p := b.addr + metaSize + size) m true
        (show b.size - size - metaSize < 2 ^ 64 by omega) hnextLt
      refine ⟨?_, ?_, trivial⟩
      · have hself : Header (setNext (setFree (setSize m (b.addr + metaSize + size)
            (b.size - size - metaSize)) (b.addr + metaSize + size) 1)
            (b.addr + metaSize + size) (headAddr R 0)) b (headAddr R 0) := by
          refine hheader.congr fun x h₁ h₂ => ?_
          rw [setNext_outside (by omega), setFree_outside (by omega), setSize_outside (by omega)]
        have hlink := (hself.setSize (show size < 2 ^ 64 by omega)).setNext
          (show b.addr + metaSize + size < 2 ^ 64 by omega)
        have hdone := hlink.setFree false
        rw [splitBlock, hheader.size, hheader.next]
        exact hdone
      · refine Header.congr (m := setNext (setFree (setSize m (b.addr + metaSize + size)
            (b.size - size - metaSize)) (b.addr + metaSize + size) 1)
            (b.addr + metaSize + size) (headAddr R 0)) hrest fun x h₁ h₂ => ?_
        dsimp only at h₁ h₂
        rw [splitBlock, hheader.size, hheader.next, setFree_outside (by omega),
          setNext_outside (by omega), setSize_outside (by omega)]
    · exact ⟨hheader.setFree false, trivial⟩

theorem Listed.take (h : Listed m lo (L ++ b :: R) hi) (hle : size ≤ b.size) :
    Listed (takeBlock m b.addr size) lo (L ++ (taken b size ++ R)) hi :=
  ⟨takeBlock_chain h hle, blocks_taken h.blocks size, h.pos, h.fits⟩

/-- The search of `malloc` in a list that fills the pool. -/
theorem Listed.findFit (h : Listed m lo bs (lo + memoryPoolSize)) :
    findFit m size memoryPoolSize (headAddr bs 0) =
      some (((bs.find? (Fits size)).map Block.addr).getD 0) := by
  refine findFit_spec h.chain (fun b hb => h.addr_pos hb) _ ?_
  have hlength := length_le_of_blocks h.blocks
  rw [metaSize, memoryPoolSize] at *
  omega

/-! ## `free` -/

/-- One pass over the list joins free neighbours in pairs. -/
def mergePass : List Block → List Block
  | [] => []
  | [b] => [b]
  | b :: c :: bs =>
      if b.free && c.free then { b with size := b.size + (metaSize + c.size) } :: mergePass bs
      else b :: mergePass (c :: bs)

theorem mergePass_nonfree {c : Block} (hfree : c.free = false) : ∀ {bs : List Block}, c ∈ bs →
    c ∈ mergePass bs := by
  intro bs
  fun_induction mergePass bs with
  | case1 => exact id
  | case2 b => exact id
  | case3 b d bs hboth ih =>
      intro hc
      rw [Bool.and_eq_true] at hboth
      rcases List.mem_cons.mp hc with rfl | hc
      · rw [hfree] at hboth
        cases hboth.1
      · rcases List.mem_cons.mp hc with rfl | hc
        · rw [hfree] at hboth
          cases hboth.2
        · exact List.mem_cons_of_mem _ (ih hc)
  | case4 b d bs hboth ih =>
      intro hc
      rcases List.mem_cons.mp hc with rfl | hc
      · exact List.mem_cons_self
      · exact List.mem_cons_of_mem _ (ih hc)

theorem headAddr_mergePass (bs : List Block) (z : Nat) :
    headAddr (mergePass bs) z = headAddr bs z := by
  fun_induction mergePass bs with
  | case1 => rfl
  | case2 b => rfl
  | case3 b d bs hboth ih => rfl
  | case4 b d bs hboth ih => rfl

/-- Two neighbours become one block. -/
theorem Listed.merge {c : Block} (h : Listed m lo (L ++ b :: c :: R) hi) :
    Listed (setNext (setSize m b.addr (b.size + (metaSize + c.size))) b.addr (headAddr R 0)) lo
      (L ++ { b with size := b.size + (metaSize + c.size) } :: R) hi := by
  have hlist : Listed m lo ((L ++ [b, c]) ++ R) hi := by simpa using h
  have hnextLt := hlist.headAddr_lt
  have hend := h.end_le (List.mem_append_right L (List.mem_cons_of_mem b (List.mem_cons_self)))
  have hfits := h.fits
  obtain ⟨hL, -, haddr, -, hR⟩ := h.blocks.middle
  dsimp only at haddr hR
  obtain ⟨hcL, hheader, -, hcR⟩ := chain_append.mp h.chain
  have hout : ∀ x, x < b.addr ∨ b.addr + metaSize ≤ x →
      setNext (setSize m b.addr (b.size + (metaSize + c.size))) b.addr (headAddr R 0) x = m x := by
    intro x hx
    rw [setNext_outside hx, setSize_outside hx]
  refine ⟨chain_append.mpr ⟨?_, ?_, ?_⟩, ?_, h.pos, hfits⟩
  · refine hcL.congr fun d hd x h₁ h₂ => hout x ?_
    have := hL.bounds hd
    omega
  · exact (hheader.setSize (by omega)).setNext hnextLt
  · refine hcR.congr fun d hd x h₁ h₂ => hout x ?_
    have := hR.bounds hd
    omega
  · refine Tiles.append_iff.mpr ⟨b.addr, hL, rfl, piece_pos _, ?_⟩
    have hsum : b.addr + (metaSize + (b.size + (metaSize + c.size))) =
        b.addr + (metaSize + b.size) + (metaSize + c.size) := by omega
    show Blocks (b.addr + (metaSize + (b.size + (metaSize + c.size)))) R hi
    rw [hsum]
    exact hR

/-- The loop of `free` is one pass, and writes to headers only. -/
theorem coalesce_spec : ∀ (rounds : Nat) {m : Memory} {L R : List Block},
    Listed m lo (L ++ R) hi → R.length < rounds →
    ∃ m', coalesce rounds m (headAddr R 0) = some m' ∧ Listed m' lo (L ++ mergePass R) hi ∧
      ∀ x, (∀ b ∈ R, x < b.addr ∨ b.addr + metaSize ≤ x) → m' x = m x := by
  intro rounds
  induction rounds with
  | zero =>
      intro m L R _ hrounds
      omega
  | succ rounds ih =>
      intro m L R h hrounds
      match R with
      | [] => exact ⟨m, rfl, h, fun _ _ => rfl⟩
      | [b] =>
          have hpos := h.addr_pos (List.mem_append_right L (List.mem_singleton.mpr (rfl : b = b)))
          obtain ⟨-, hheader, -⟩ := chain_append.mp h.chain
          obtain ⟨m', hloop, hlisted, hout⟩ := ih (m := m) (L := L ++ [b]) (R := [])
            (by simpa using h) (by simpa using hrounds)
          refine ⟨m', ?_, by simpa [mergePass] using hlisted, fun x _ => hout x (by simp)⟩
          have hnext : nextOf m b.addr = 0 := hheader.next
          rw [headAddr, coalesce, if_neg hpos]
          simp only [hnext, ne_eq, not_true, false_and, and_false, if_false]
          exact hloop
      | b :: c :: R =>
          have hbmem : b ∈ L ++ b :: c :: R := List.mem_append_right L List.mem_cons_self
          have hcmem : c ∈ L ++ b :: c :: R :=
            List.mem_append_right L (List.mem_cons_of_mem b List.mem_cons_self)
          have hpos := h.addr_pos hbmem
          have hcpos := h.addr_pos hcmem
          obtain ⟨-, hheader, hheaderC, -⟩ := chain_append.mp h.chain
          have hnext : nextOf m b.addr = c.addr := hheader.next
          have hboth : (freeOf m b.addr ≠ 0 ∧ nextOf m b.addr ≠ 0 ∧
              freeOf m (nextOf m b.addr) ≠ 0) ↔ (b.free && c.free) = true := by
            rw [hnext, hheader.free, hheaderC.free, Bool.and_eq_true]
            cases b.free <;> cases c.free <;> simp [hcpos]
          rw [headAddr, coalesce, if_neg hpos]
          dsimp only
          rw [mergePass]
          by_cases hfree : (b.free && c.free) = true
          · rw [if_pos (hboth.mpr hfree), if_pos hfree, hnext, hheader.size, hheaderC.size]
            have hmerge := h.merge
            -- the header of the second block is still there when its `next` is read
            have hnextC : nextOf (setSize m b.addr (b.size + (metaSize + c.size))) c.addr =
                headAddr R 0 := by
              have haddr : c.addr = b.addr + (metaSize + b.size) :=
                h.blocks.middle.2.2.1
              refine (hheaderC.congr fun x h₁ h₂ => setSize_outside (by omega)).next
            rw [hnextC]
            have hnextB : nextOf (setNext (setSize m b.addr (b.size + (metaSize + c.size)))
                b.addr (headAddr R 0)) b.addr = headAddr R 0 :=
              (chain_append.mp hmerge.chain).2.1.next
            rw [hnextB]
            obtain ⟨m', hloop, hlisted, hout⟩ := ih
              (L := L ++ [{ b with size := b.size + (metaSize + c.size) }]) (R := R)
              (by simpa using hmerge) (by simp at hrounds; omega)
            refine ⟨m', hloop, by simpa using hlisted, fun x hx => ?_⟩
            have hxb := hx b List.mem_cons_self
            rw [hout x fun d hd => hx d (List.mem_cons_of_mem b (List.mem_cons_of_mem c hd)),
              setNext_outside hxb, setSize_outside hxb]
          · rw [if_neg (fun h => hfree (hboth.mp h)), if_neg hfree, hnext]
            obtain ⟨m', hloop, hlisted, hout⟩ := ih (m := m) (L := L ++ [b]) (R := c :: R)
              (by simpa using h) (by simp at hrounds ⊢; omega)
            refine ⟨m', hloop, by simpa using hlisted, fun x hx => ?_⟩
            exact hout x fun d hd => hx d (List.mem_cons_of_mem b hd)

/-- A block is marked. -/
theorem Listed.setFree (h : Listed m lo (L ++ b :: R) hi) (f : Bool) :
    Listed (setFree m b.addr (if f then 1 else 0)) lo (L ++ { b with free := f } :: R) hi := by
  obtain ⟨hL, -, hR⟩ := h.blocks.middle
  obtain ⟨hcL, hheader, hcR⟩ := chain_append.mp h.chain
  refine ⟨chain_append.mpr ⟨?_, hheader.setFree f, ?_⟩, ?_, h.pos, h.fits⟩
  · refine hcL.congr fun d hd x h₁ h₂ => setFree_outside ?_
    have := hL.bounds hd
    omega
  · refine hcR.congr fun d hd x h₁ h₂ => setFree_outside ?_
    have := hR.bounds hd
    omega
  · exact Tiles.append_iff.mpr ⟨b.addr, hL, rfl, piece_pos _, hR⟩

/-- Writes to payloads do not matter. -/
theorem Listed.congr (h : Listed m lo bs hi)
    (heq : ∀ b ∈ bs, ∀ x, b.addr ≤ x → x < b.addr + metaSize → m' x = m x) :
    Listed m' lo bs hi :=
  ⟨h.chain.congr heq, h.blocks, h.pos, h.fits⟩

/-- A payload is beside all headers. -/
theorem Listed.payload_header (h : Listed m lo bs hi) {c : Block} (hb : b ∈ bs) (hc : c ∈ bs)
    {x : Nat} (h₁ : b.addr + metaSize ≤ x) (h₂ : x < b.addr + metaSize + b.size) :
    x < c.addr ∨ c.addr + metaSize ≤ x := by
  obtain ⟨L, R, rfl⟩ := List.append_of_mem hb
  obtain ⟨hL, -, hR⟩ := h.blocks.middle
  rcases List.mem_append.mp hc with hc | hc
  · have := hL.bounds hc
    omega
  · rcases List.mem_cons.mp hc with rfl | hc
    · omega
    · have := hR.bounds hc
      omega

/-- Payloads of different blocks are beside each other. -/
theorem Listed.payload_disjoint (h : Listed m lo bs hi) {c : Block} (hb : b ∈ bs) (hc : c ∈ bs)
    (hne : b.addr ≠ c.addr) : b.addr + metaSize + b.size ≤ c.addr ∨
      c.addr + metaSize + c.size ≤ b.addr := by
  obtain ⟨L, R, rfl⟩ := List.append_of_mem hb
  obtain ⟨hL, -, hR⟩ := h.blocks.middle
  rcases List.mem_append.mp hc with hc | hc
  · have := hL.bounds hc
    omega
  · rcases List.mem_cons.mp hc with rfl | hc
    · exact absurd rfl hne
    · have := hR.bounds hc
      omega

/-- A block is known by its address. -/
theorem Listed.eq_of_addr (h : Listed m lo bs hi) {c : Block} (hb : b ∈ bs) (hc : c ∈ bs)
    (heq : b.addr = c.addr) : b = c := by
  obtain ⟨L, R, rfl⟩ := List.append_of_mem hb
  obtain ⟨hltL, hltR⟩ := h.blocks.addr_ne
  rcases List.mem_append.mp hc with hc | hc
  · have := hltL c hc
    omega
  · rcases List.mem_cons.mp hc with rfl | hc
    · rfl
    · have := hltR c hc
      omega

end Ccbase.Copilot

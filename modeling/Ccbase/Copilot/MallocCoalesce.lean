import Ccbase.Copilot.MallocRuns
import Mathlib.Data.List.Chain
import Mathlib.Data.List.TakeWhile

/-!
# Free neighbours in the list of `malloc` and `free`

The loop of `free` joins a free block with the one behind it and then goes on behind
both. So a block that is freed between two free blocks is joined with the first of
them only, and the other stays a free block of its own.
-/

namespace Ccbase.Copilot

open Ccbase.Lib

variable {b d e : Block} {bs L R : List Block}

/-- No two free blocks in a row. -/
def Coalesced (bs : List Block) : Prop := bs.IsChain fun b c => (b.free && c.free) = false

instance decidableCoalesced (bs : List Block) : Decidable (Coalesced bs) :=
  inferInstanceAs (Decidable (bs.IsChain fun b c => (b.free && c.free) = false))

/-- The block of `ptr` is between two free blocks. -/
def betweenFree (ptr : Nat) (bs : List Block) : Bool :=
  (bs.takeWhile fun b => b.addr + metaSize ≠ ptr).getLast?.any Block.free &&
    (bs.dropWhile fun b => b.addr + metaSize ≠ ptr).tail.head?.any Block.free

/-- What one block in the place of some in a row would have room for. -/
def areaOf (bs : List Block) : Nat := (bs.map fun b => metaSize + b.size).sum - metaSize

/-! ## One pass over a list without free neighbours -/

theorem mergePass_coalesced (h : Coalesced bs) : mergePass bs = bs := by
  induction bs with
  | nil => rfl
  | cons b bs ih =>
      cases bs with
      | nil => rfl
      | cons c bs =>
          obtain ⟨hboth, hrest⟩ := List.isChain_cons_cons.mp h
          rw [mergePass, if_neg (by rw [hboth]; exact Bool.false_ne_true), ih hrest]

/-- Nothing is joined in front of the first free neighbours. -/
theorem mergePass_append (h : Coalesced (L ++ [b])) :
    mergePass (L ++ b :: R) = L ++ mergePass (b :: R) := by
  induction L with
  | nil => rfl
  | cons a L ih =>
      have hrest : Coalesced (L ++ [b]) := h.tail
      cases L with
      | nil =>
          obtain ⟨hboth, -⟩ := List.isChain_cons_cons.mp h
          show mergePass (a :: b :: R) = a :: mergePass (b :: R)
          rw [mergePass, if_neg (by rw [hboth]; exact Bool.false_ne_true)]
      | cons c L =>
          obtain ⟨hboth, -⟩ := List.isChain_cons_cons.mp h
          have htail := ih hrest
          show mergePass (a :: c :: (L ++ b :: R)) = a :: (c :: L ++ mergePass (b :: R))
          rw [mergePass, if_neg (by rw [hboth]; exact Bool.false_ne_true), ← htail]
          rfl

/-- A list is in order if the blocks around a place are. -/
theorem coalesced_append_cons :
    Coalesced (L ++ b :: R) ↔ Coalesced (L ++ [b]) ∧ Coalesced (b :: R) :=
  List.isChain_split

theorem coalesced_cons_cons :
    Coalesced (b :: e :: R) ↔ (b.free && e.free) = false ∧ Coalesced (e :: R) :=
  List.isChain_cons_cons

/-- Only whether blocks are free matters. -/
theorem coalesced_concat_congr (h : b.free = d.free) :
    Coalesced (L ++ [b]) ↔ Coalesced (L ++ [d]) := by
  rw [Coalesced, Coalesced, List.isChain_append, List.isChain_append]
  simp [h]

theorem coalesced_cons_congr (h : b.free = d.free) : Coalesced (b :: R) ↔ Coalesced (d :: R) := by
  rw [Coalesced, Coalesced, List.isChain_cons, List.isChain_cons, h]

/-- A block that is not free goes everywhere. -/
theorem coalesced_concat (h : Coalesced L) (hb : b.free = false) : Coalesced (L ++ [b]) := by
  refine List.isChain_append.mpr ⟨h, .singleton b, fun x _ y hy => ?_⟩
  obtain rfl : b = y := by simpa using hy
  rw [hb, Bool.and_false]

theorem coalesced_cons (h : Coalesced R) (hb : b.free = false) : Coalesced (b :: R) := by
  refine List.isChain_cons.mpr ⟨fun y _ => ?_, h⟩
  rw [hb, Bool.false_and]

/-- The pass after `b` has been freed, with what was free around it. -/
theorem mergePass_freed (h : Coalesced (L ++ b :: R)) :
    Coalesced (mergePass (L ++ { b with free := true } :: R)) ↔
      ¬((L.getLast?.any Block.free && R.head?.any Block.free) = true) := by
  obtain ⟨hL, hR⟩ := coalesced_append_cons.mp h
  have hR' : Coalesced R := hR.tail
  have hL' : Coalesced L := hL.left_of_append
  -- the part from the freed block on, when nothing in front of it is joined
  have hback : Coalesced (mergePass ({ b with free := true } :: R)) ∧
      ∃ c T, mergePass ({ b with free := true } :: R) = c :: T ∧ c.free = true := by
    cases R with
    | nil => exact ⟨.singleton _, _, [], rfl, rfl⟩
    | cons e R =>
        cases he : e.free with
        | true =>
            have hrest : Coalesced R := hR'.tail
            rw [mergePass, if_pos (by rw [he]; rfl), mergePass_coalesced hrest]
            exact ⟨(coalesced_cons_congr he).mp hR', _, _, rfl, rfl⟩
        | false =>
            have hsame : Coalesced ({ b with free := true } :: e :: R) :=
              coalesced_cons_cons.mpr ⟨by rw [he, Bool.and_false], hR'⟩
            rw [mergePass_coalesced hsame]
            exact ⟨hsame, _, _, rfl, rfl⟩
  rcases List.eq_nil_or_concat L with rfl | ⟨L, d, rfl⟩
  · simpa using hback.1
  rw [List.concat_eq_append] at *
  rw [List.getLast?_concat, Option.any_some, List.append_assoc]
  cases hd : d.free with
  | true =>
      obtain ⟨g, hg⟩ : ∃ g : Block, g = { d with size := d.size + (metaSize + b.size) } := ⟨_, rfl⟩
      have hgd : g.free = d.free := by rw [hg]
      have hfront : Coalesced (L ++ [g]) := (coalesced_concat_congr hgd).mpr hL'
      show Coalesced (mergePass (L ++ d :: { b with free := true } :: R)) ↔ _
      rw [mergePass_append hL', mergePass, if_pos (by rw [hd]; rfl), mergePass_coalesced hR',
        ← hg, coalesced_append_cons, Bool.true_and]
      cases R with
      | nil => exact iff_of_true ⟨hfront, .singleton g⟩ Bool.false_ne_true
      | cons e R =>
          rw [coalesced_cons_cons, List.head?_cons, Option.any_some, hgd, hd, Bool.true_and]
          exact ⟨fun h => by rw [h.2.1]; exact Bool.false_ne_true,
            fun h => ⟨hfront, Bool.eq_false_iff.mpr h, hR'⟩⟩
  | false =>
      rw [Bool.false_and]
      refine iff_of_true ?_ Bool.false_ne_true
      have hmarked : Coalesced ((L ++ [d]) ++ [{ b with free := true }]) := by
        rw [List.append_assoc]
        exact coalesced_append_cons.mpr ⟨hL',
          coalesced_cons_cons.mpr ⟨by rw [hd]; rfl, .singleton _⟩⟩
      have hpass := mergePass_append (R := R) hmarked
      rw [List.append_assoc] at hpass
      obtain ⟨hrest, c, T, hcT, hc⟩ := hback
      rw [hcT] at hrest hpass
      show Coalesced (mergePass (L ++ ([d] ++ { b with free := true } :: R)))
      rw [hpass, coalesced_append_cons]
      exact ⟨(coalesced_concat_congr (by rw [hc])).mp hmarked, hrest⟩

/-- `malloc` cuts a free block, whose neighbours are in use. -/
theorem coalesced_taken (h : Coalesced (L ++ b :: R)) (hfree : b.free = true) (size : Nat) :
    Coalesced (L ++ (taken b size ++ R)) := by
  obtain ⟨hL, hR⟩ := coalesced_append_cons.mp h
  have hL' : Coalesced L := hL.left_of_append
  rw [taken]
  split
  · refine coalesced_append_cons.mpr ⟨coalesced_concat hL' rfl, coalesced_cons ?_ rfl⟩
    exact (coalesced_cons_congr (by rw [hfree])).mp hR
  · exact coalesced_append_cons.mpr ⟨coalesced_concat hL' rfl, coalesced_cons hR.tail rfl⟩

theorem betweenFree_eq {lo hi : Nat} (h : Blocks lo (L ++ b :: R) hi) :
    betweenFree (b.addr + metaSize) (L ++ b :: R) =
      (L.getLast?.any Block.free && R.head?.any Block.free) := by
  have hne : ∀ c ∈ L, decide (c.addr + metaSize ≠ b.addr + metaSize) = true := by
    intro c hc
    have := h.addr_ne.1 c hc
    rw [decide_eq_true_eq]
    omega
  rw [betweenFree, List.takeWhile_append_of_pos hne, List.dropWhile_append_of_pos hne]
  simp

/-- Free blocks in a row are one block. -/
theorem areaOf_of_coalesced {M : List Block} (h : Coalesced bs) (hM : M <:+: bs) (hne : M ≠ [])
    (hfree : ∀ b ∈ M, b.free = true) : ∃ b ∈ bs, b.free = true ∧ areaOf M = b.size := by
  match M, hM, hne, hfree with
  | [b], hM, _, hfree =>
      refine ⟨b, hM.subset (List.mem_singleton.mpr rfl), hfree b (List.mem_singleton.mpr rfl), ?_⟩
      simp [areaOf]
  | b :: c :: M, hM, _, hfree =>
      obtain ⟨L, R, rfl⟩ := hM
      have hinner : Coalesced (b :: c :: M) := h.left_of_append.right_of_append
      have hboth := (List.isChain_cons_cons.mp hinner).1
      rw [hfree b List.mem_cons_self, hfree c (List.mem_cons_of_mem b List.mem_cons_self)] at hboth
      cases hboth

/-! ## The list of a client -/

/-- The blocks from `current` on, as the loops go along them. -/
def readBlocks (m : Memory) : Nat → Nat → List Block
  | 0, _ => []
  | rounds + 1, current =>
      if current = 0 then []
      else ⟨current, sizeOf m current, freeOf m current ≠ 0⟩ ::
        readBlocks m rounds (nextOf m current)

theorem readBlocks_eq {m : Memory} : ∀ {bs : List Block} {rounds : Nat}, Chain m bs 0 →
    (∀ b ∈ bs, b.addr ≠ 0) → bs.length < rounds → readBlocks m rounds (headAddr bs 0) = bs := by
  intro bs
  induction bs with
  | nil =>
      intro rounds _ _ hrounds
      obtain ⟨rounds, rfl⟩ : ∃ r, rounds = r + 1 := ⟨rounds - 1, by simp at hrounds; omega⟩
      rfl
  | cons b bs ih =>
      intro rounds hchain hpos hrounds
      obtain ⟨rounds, rfl⟩ : ∃ r, rounds = r + 1 := ⟨rounds - 1, by simp at hrounds; omega⟩
      obtain ⟨hheader, hchain⟩ := hchain
      have hrest := ih hchain (fun c hc => hpos c (List.mem_cons_of_mem b hc))
        (by simpa using hrounds)
      rw [headAddr, readBlocks, if_neg (hpos b List.mem_cons_self), hheader.next, hrest,
        hheader.size, hheader.free]
      cases hb : b.free with
      | true => simp [← hb]
      | false => simp [← hb]

namespace Client

variable {memoryPool : Nat} {c c' : Client}

/-- The list of the manager; before the first call, the one it is going to make. -/
def chain (memoryPool : Nat) (c : Client) : List Block :=
  readBlocks (c.manager.initialized memoryPool).mem memoryPoolSize
    (c.manager.initialized memoryPool).freeList

theorem Sound.chain_eq (h : Sound memoryPool c bs) : c.chain memoryPool = bs := by
  have hlength := length_le_of_blocks h.listed.blocks
  rw [chain, h.first]
  refine readBlocks_eq h.listed.chain (fun b hb => h.listed.addr_pos hb) ?_
  rw [metaSize, memoryPoolSize] at *
  omega

/-- The call is one of `malloc` and `free`, or a write of the client. -/
def MallocOrFree : Op → Prop
  | .realloc .. => False
  | _ => True

/-- A block that is freed does not have free blocks on both sides. -/
def Apart (memoryPool : Nat) (c : Client) : Op → Prop
  | .free ptr => betweenFree ptr (c.chain memoryPool) = false
  | _ => True

theorem coalesced_malloc {size : Nat} {bs' : List Block} (h : Coalesced bs)
    (hlist : Relisted bs (.malloc size) bs') : Coalesced bs' := by
  rcases hlist with rfl | ⟨L, b, R, rfl, hfree, rfl⟩
  · exact h
  · exact coalesced_taken h hfree size

theorem Sound.coalesced_free (h : Sound memoryPool c bs) (hbs : Coalesced bs) {ptr : Nat}
    {bs' : List Block} (hlist : Relisted bs (.free ptr) bs') :
    Coalesced bs' ↔ c.Apart memoryPool (.free ptr) := by
  rw [Apart, h.chain_eq]
  rcases hlist with ⟨rfl, hsame⟩ | ⟨L, b, R, rfl, rfl, rfl⟩
  · refine iff_of_true (hsame ▸ hbs) ?_
    have hnone : bs.dropWhile (fun b => b.addr + metaSize ≠ 0) = [] := by
      refine List.dropWhile_eq_nil_iff.mpr ?_
      intro b _
      rw [metaSize, decide_eq_true_eq]
      omega
    rw [betweenFree, hnone]
    exact Bool.and_false _
  · rw [mergePass_freed hbs, betweenFree_eq h.listed.blocks, Bool.not_eq_true]

/-- What holds after each call. -/
structure Tidy (memoryPool : Nat) (c : Client) : Prop where
  sound : ∃ bs, Sound memoryPool c bs
  coalesced : Coalesced (c.chain memoryPool)

theorem Tidy.step (h : Tidy memoryPool c) {l : Op × Nat} (hs : Step memoryPool c l c')
    (hallowed : c.Allowed l.1) (hop : MallocOrFree l.1) (hapart : c.Apart memoryPool l.1) :
    Tidy memoryPool c' := by
  obtain ⟨op, r⟩ := l
  obtain ⟨⟨bs, hsound⟩, hbs⟩ := h
  rw [hsound.chain_eq] at hbs
  obtain ⟨r', c'', bs', hexec, hsound', -, hlist⟩ := hsound.exec hallowed
  rw [Step, hexec] at hs
  cases hs
  refine ⟨⟨bs', hsound'⟩, ?_⟩
  rw [hsound'.chain_eq]
  cases op with
  | malloc size => exact coalesced_malloc hbs hlist
  | realloc ptr size => exact hop.elim
  | free ptr => exact (hsound.coalesced_free hbs hlist).mpr hapart
  | store ptr i v =>
      rw [show bs' = bs from hlist]
      exact hbs

theorem tidy_start (hpool : 0 < memoryPool) (hfits : memoryPool + memoryPoolSize < 2 ^ 64)
    (m : Memory) : Tidy memoryPool ⟨⟨m, 0⟩, fun _ => none⟩ := by
  have hsound := sound_start hpool hfits m
  refine ⟨⟨_, hsound⟩, ?_⟩
  rw [hsound.chain_eq]
  exact .singleton _

end Client

/-- As long as no block is freed between two free blocks, no two free blocks are
neighbours, and `malloc` fails only for more than any free blocks in a row have room for.
The next `free` keeps it so exactly if its block is not between two free ones. -/
theorem free_coalesces {memoryPool : Nat} (hpool : 0 < memoryPool)
    (hfits : memoryPool + memoryPoolSize < 2 ^ 64) {m : Memory} {ls : List (Op × Nat)} {c : Client}
    (h : Run (fun c l c' => Client.Step memoryPool c l c' ∧ c.Allowed l.1 ∧
        Client.MallocOrFree l.1 ∧ c.Apart memoryPool l.1)
      ⟨⟨m, 0⟩, fun _ => none⟩ ls c) :
    Coalesced (c.chain memoryPool) ∧
      (∀ size < 2 ^ 64, ∃ r c', Client.Step memoryPool c (.malloc size, r) c' ∧
        (r = 0 → ∀ M, M <:+: c.chain memoryPool → M ≠ [] → (∀ b ∈ M, b.free = true) →
          areaOf M < size)) ∧
      ∀ ptr, c.live ptr ≠ none → ∃ r c', Client.Step memoryPool c (.free ptr, r) c' ∧
        (Coalesced (c'.chain memoryPool) ↔ c.Apart memoryPool (.free ptr)) := by
  have htidy : Client.Tidy memoryPool c :=
    h.state_inv (I := Client.Tidy memoryPool) (Client.tidy_start hpool hfits m)
      fun _ _ _ hI ⟨hs, hallowed, hop, hapart⟩ => hI.step hs hallowed hop hapart
  obtain ⟨⟨bs, hsound⟩, hbs⟩ := htidy
  refine ⟨hbs, fun size hsize => ?_, fun ptr hptr => ?_⟩
  · obtain ⟨r, c', bs', hexec, -, ⟨hzero, -⟩, -⟩ :=
      hsound.exec (show c.Allowed (.malloc size) from hsize)
    refine ⟨r, c', hexec, fun hr M hM hne hfree => ?_⟩
    obtain ⟨b, hb, hbfree, harea⟩ := areaOf_of_coalesced hbs hM hne hfree
    rw [harea]
    rw [hsound.chain_eq] at hb
    exact hzero.mp hr b hb hbfree
  · obtain ⟨r, c', bs', hexec, hsound', -, hlist⟩ :=
      hsound.exec (show c.Allowed (.free ptr) from .inr hptr)
    refine ⟨r, c', hexec, ?_⟩
    rw [hsound.chain_eq] at hbs
    rw [hsound'.chain_eq]
    exact hsound.coalesced_free hbs hlist

instance Client.decidableMallocOrFree (op : Op) : Decidable (Client.MallocOrFree op) :=
  match op with
  | .malloc _ => .isTrue trivial
  | .realloc _ _ => .isFalse id
  | .free _ => .isTrue trivial
  | .store _ _ _ => .isTrue trivial

instance Client.decidableApart (memoryPool : Nat) (c : Client) (op : Op) :
    Decidable (c.Apart memoryPool op) :=
  match op with
  | .malloc _ => .isTrue trivial
  | .realloc _ _ => .isTrue trivial
  | .free ptr => inferInstanceAs (Decidable (betweenFree ptr (c.chain memoryPool) = false))
  | .store _ _ _ => .isTrue trivial

theorem free_coalesces_one_side :
    ∃ c : Client, Run (fun c l c' => Client.Step 4096 c l c' ∧ c.Allowed l.1 ∧
        Client.MallocOrFree l.1 ∧ c.Apart 4096 l.1)
      ⟨⟨fun _ => 0, 0⟩, fun _ => none⟩
      [(.malloc 16, 4120), (.malloc 16, 4160), (.free 4160, 0), (.free 4120, 0)] c ∧
      Coalesced (c.chain 4096) := by
  have hexec : (Run.exec (Client.stepFn 4096)
      (fun c l => c.Allowed l.1 ∧ Client.MallocOrFree l.1 ∧ c.Apart 4096 l.1)
      ⟨⟨fun _ => 0, 0⟩, fun _ => none⟩
      [(.malloc 16, 4120), (.malloc 16, 4160), (.free 4160, 0), (.free 4120, 0)]).isSome := by
    decide +kernel
  obtain ⟨c, hc⟩ := Option.isSome_iff_exists.mp hexec
  have hrun : Run (fun c l c' => Client.Step 4096 c l c' ∧ c.Allowed l.1 ∧
      Client.MallocOrFree l.1 ∧ c.Apart 4096 l.1) ⟨⟨fun _ => 0, 0⟩, fun _ => none⟩ _ c :=
    (Run.of_exec hc).imp fun _ _ _ h => ⟨Client.step_of_stepFn h.1, h.2⟩
  exact ⟨c, hrun, (free_coalesces (by decide) (by decide) hrun).1⟩

/-- Two free blocks remain neighbours after the block between them and the first of them
has been freed, and a request that both together have room for fails. -/
theorem second_neighbour_left : ∃ c c' c'' : Client,
    Run (fun c l c' => Client.Step 4096 c l c' ∧ c.Allowed l.1 ∧ Client.MallocOrFree l.1)
      ⟨⟨fun _ => 0, 0⟩, fun _ => none⟩
      [(.malloc 16, 4120), (.malloc 16, 4160), (.malloc 1000, 4200), (.malloc 1047448, 5224),
        (.free 4120, 0), (.free 4200, 0)] c ∧
      Client.Step 4096 c (.free 4160, 0) c' ∧ c.Allowed (.free 4160) ∧
      ¬Coalesced (c'.chain 4096) ∧ Client.Step 4096 c' (.malloc 1050, 0) c'' ∧
      ∃ M, M <:+: c'.chain 4096 ∧ (∀ b ∈ M, b.free = true) ∧ 1050 ≤ areaOf M := by
  have hexec : (Run.exec (Client.stepFn 4096)
      (fun c l => c.Allowed l.1 ∧ Client.MallocOrFree l.1)
      ⟨⟨fun _ => 0, 0⟩, fun _ => none⟩
      ([(.malloc 16, 4120), (.malloc 16, 4160), (.malloc 1000, 4200), (.malloc 1047448, 5224),
        (.free 4120, 0), (.free 4200, 0)] ++ [(.free 4160, 0)])).any (fun c' => decide
          (c'.chain 4096 = [⟨4096, 56, true⟩, ⟨4176, 1000, true⟩, ⟨5200, 1047448, false⟩] ∧
            (c'.stepFn 4096 (.malloc 1050, 0)).isSome)) = true := by
    decide +kernel
  obtain ⟨c', hrun', hchain, hfull⟩ := Run.exists_of_exec hexec
  obtain ⟨c, hrun, hfree, hallowed, -⟩ := Run.of_snoc hrun'
  obtain ⟨c'', hmalloc⟩ := Option.isSome_iff_exists.mp hfull
  refine ⟨c, c', c'', hrun.imp fun _ _ _ h => ⟨Client.step_of_stepFn h.1, h.2⟩,
    Client.step_of_stepFn hfree, hallowed, ?_, Client.step_of_stepFn hmalloc, ?_⟩
  · rw [hchain]
    decide
  · rw [hchain]
    exact ⟨[⟨4096, 56, true⟩, ⟨4176, 1000, true⟩], ⟨[], [_], rfl⟩, by decide, by decide⟩

end Ccbase.Copilot

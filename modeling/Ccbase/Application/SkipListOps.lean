import Ccbase.Application.SkipListInv
import Mathlib.Data.Set.Card

/-!
# The calls of a `SkipList`

An insertion writes two links in each level up to that of the new node, a deletion
one in each level that the node is in. What the heap looks like after all levels are
done is stated as a function of the heap before, and the lists of the levels follow
from it one at a time.
-/

namespace Ccbase.Application

open Ccbase.Lib

variable {K V : Type} [LinearOrder K]

namespace SkipList

variable {s : SkipList K V} {c pre suf : List (Item K V)} {key : K} {h h' : Heap (Node K V)}

/-! ## Insertion -/

/-- Node `n` behind `u` in level `i`, and the rest as before. -/
def LinkedAt (h h' : Heap (Node K V)) (u n i : Nat) : Prop :=
  ∀ j r, fwd h' j r =
    if j = i then (if r = n then fwd h i u else if r = u then some n else fwd h i r)
    else fwd h j r

omit [LinearOrder K] in
/-- The two writes of a level. -/
theorem linkedAt_of_writes {h₁ : Heap (Node K V)} {u n i : Nat} (hne : u ≠ n)
    (hfwd₁ : ∀ j r, fwd h₁ j r = if j = i ∧ r = n then fwd h i u else fwd h j r)
    (hfwd₂ : ∀ j r, fwd h' j r = if j = i ∧ r = u then some n else fwd h₁ j r) :
    LinkedAt h h' u n i := by
  intro j r
  rw [hfwd₂, hfwd₁]
  by_cases hj : j = i
  · by_cases hr : r = n
    · simp [hj, hr, Ne.symm hne]
    · by_cases hru : r = u
      · simp [hj, hru, hne]
      · simp [hj, hr, hru]
  · simp [hj]

omit [LinearOrder K] in
theorem linkLevel_spec {u n i : Nat} (hne : u ≠ n)
    (hu : ∃ k v l, info h u = some (k, v, l) ∧ i ≤ l)
    (hn : ∃ k v l, info h n = some (k, v, l) ∧ i ≤ l) :
    ∃ h', linkLevel h u n i = some h' ∧ info h' = info h ∧ LinkedAt h h' u n i := by
  obtain ⟨ku, vu, lu, hu, hil⟩ := hu
  obtain ⟨kn, vn, ln, hn, hiln⟩ := hn
  obtain ⟨h₁, hw₁, hinfo₁, hfwd₁⟩ := writeForward_of_info hn hiln (fwd h i u)
  obtain ⟨h₂, hw₂, hinfo₂, hfwd₂⟩ :=
    writeForward_of_info (h := h₁) (by rw [hinfo₁]; exact hu) hil (some n)
  refine ⟨h₂, ?_, hinfo₂.trans hinfo₁, linkedAt_of_writes hne hfwd₁ hfwd₂⟩
  rw [linkLevel, readForward_of_info hu hil, Option.bind_some, hw₁, Option.bind_some, hw₂]

omit [LinearOrder K] in
theorem linkBottom_spec {u n : Nat} (hne : u ≠ n)
    (hu : ∃ k v l, info h u = some (k, v, l)) (hn : ∃ k v l, info h n = some (k, v, l)) :
    ∃ h', linkBottom h u n = some h' ∧ info h' = info h ∧ LinkedAt h h' u n 0 := by
  obtain ⟨ku, vu, lu, hu⟩ := hu
  obtain ⟨kn, vn, ln, hn⟩ := hn
  obtain ⟨h₁, hw₁, hinfo₁, hfwd₁⟩ := writeForward_of_info hn (Nat.zero_le ln) (fwd h 0 u)
  obtain ⟨h₂, hh₂, hinfo₂, hfwd₂⟩ : ∃ h₂, h₂ = (if fwd h 0 u = none then h₁
      else setPrev h₁ u (some n)) ∧ info h₂ = info h ∧ fwd h₂ = fwd h₁ := by
    refine ⟨_, rfl, ?_, ?_⟩
    · split
      · exact hinfo₁
      · exact (info_setPrev ..).trans hinfo₁
    · split
      · rfl
      · exact fwd_setPrev ..
  obtain ⟨h₃, hw₃, hinfo₃, hfwd₃⟩ :=
    writeForward_of_info (h := h₂) (by rw [hinfo₂]; exact hu) (Nat.zero_le lu) (some n)
  refine ⟨setPrev h₃ n (some u), ?_, ?_, linkedAt_of_writes hne hfwd₁ fun j r => ?_⟩
  · rw [linkBottom, readForward_of_info hu (Nat.zero_le lu), Option.bind_some, hw₁,
      Option.bind_some]
    dsimp only
    rw [← hh₂, hw₃, Option.map_some]
  · rw [info_setPrev, hinfo₃, hinfo₂]
  · rw [fwd_setPrev, hfwd₃, hfwd₂]

/-- Node `n` behind `u j` in all levels `j` up to `l`. -/
def LinkedUpTo (h h' : Heap (Node K V)) (u : Nat → Nat) (n l : Nat) : Prop :=
  ∀ j r, fwd h' j r =
    if j ≤ l then (if r = n then fwd h j (u j) else if r = u j then some n else fwd h j r)
    else fwd h j r

omit [LinearOrder K] in
theorem linkLevels_spec {u : Nat → Nat} {n l : Nat} {update : Nat → Option Nat}
    (hne : ∀ i ≤ l, u i ≠ n)
    (hu : ∀ i ≤ l, ∃ k v l', info h (u i) = some (k, v, l') ∧ i ≤ l')
    (hn : ∃ k v l', info h n = some (k, v, l') ∧ l ≤ l')
    (hupdate : ∀ i ≤ l, update i = some (u i)) :
    ∃ h', ((linkBottom h (u 0) n).bind fun h => linkLevels update n l h) = some h' ∧
      info h' = info h ∧ LinkedUpTo h h' u n l := by
  obtain ⟨kn, vn, ln, hn, hln⟩ := hn
  induction l with
  | zero =>
      obtain ⟨k, v, lu, hu₀, -⟩ := hu 0 (Nat.le_refl 0)
      obtain ⟨h', hlink, hinfo, hfwd⟩ := linkBottom_spec (hne 0 (Nat.le_refl 0)) ⟨k, v, lu, hu₀⟩
        ⟨kn, vn, ln, hn⟩
      refine ⟨h', by rw [hlink]; rfl, hinfo, fun j r => ?_⟩
      rw [hfwd]
      by_cases hj : j = 0
      · subst hj
        rfl
      · rw [if_neg hj, if_neg (show ¬ j ≤ 0 by omega)]
  | succ l ih =>
      obtain ⟨h₁, hlink₁, hinfo₁, hfwd₁⟩ := ih (fun i hi => hne i (by omega))
        (fun i hi => hu i (by omega)) (fun i hi => hupdate i (by omega)) (by omega)
      obtain ⟨k, v, lu, huinfo, hlu⟩ := hu (l + 1) (Nat.le_refl _)
      obtain ⟨h₂, hlink₂, hinfo₂, hfwd₂⟩ := linkLevel_spec (h := h₁) (hne (l + 1) (Nat.le_refl _))
        ⟨k, v, lu, by rw [hinfo₁]; exact huinfo, hlu⟩ ⟨kn, vn, ln, by rw [hinfo₁]; exact hn, hln⟩
      refine ⟨h₂, ?_, hinfo₂.trans hinfo₁, fun j r => ?_⟩
      · obtain ⟨h₀, hbottom, hlevels⟩ := Option.bind_eq_some_iff.mp hlink₁
        rw [hbottom, Option.bind_some, linkLevels, hlevels, Option.bind_some,
          hupdate (l + 1) (Nat.le_refl _), Option.bind_some, hlink₂]
      · -- level `l + 1` is still as it was
        have hsame : ∀ r, fwd h₁ (l + 1) r = fwd h (l + 1) r := by
          intro r
          rw [hfwd₁, if_neg (by omega)]
        rw [hfwd₂]
        by_cases hj : j = l + 1
        · rw [if_pos hj, if_pos (show j ≤ l + 1 by omega), hj, hsame, hsame]
        · rw [if_neg hj, hfwd₁]
          by_cases hjl : j ≤ l
          · rw [if_pos hjl, if_pos (show j ≤ l + 1 by omega)]
          · rw [if_neg hjl, if_neg (show ¬ j ≤ l + 1 by omega)]

/-- A new item is put where its key belongs. -/
theorem Repr.insert (hr : Repr s (pre ++ suf)) {value : V} {randomLevel : Nat}
    (hlevel : randomLevel ≤ s.maxLevel) (hpre : ∀ e ∈ pre, e.key < key)
    (hsuf : ∀ e ∈ suf, key < e.key)
    (hinfo : info h' = info (s.heap.new ⟨key, value, randomLevel, fun _ => none, none⟩))
    (hfwd : LinkedUpTo (s.heap.new ⟨key, value, randomLevel, fun _ => none, none⟩) h'
      (s.entry pre) s.heap.next randomLevel) :
    Repr { s with
      heap := h'
      skipListLevel := max s.skipListLevel randomLevel
      elementCount := s.elementCount + 1 }
      (pre ++ ⟨s.heap.next, key, value, randomLevel⟩ :: suf) := by
  have hold : ∀ {p : Nat}, p ≠ s.heap.next → info h' p = info s.heap p := by
    intro p hp
    rw [hinfo, info_new, if_neg hp]
  have hnew : info h' s.heap.next = some (key, value, randomLevel) := by
    rw [hinfo, info_new, if_pos rfl]
  have hptr : ∀ e ∈ pre ++ suf, e.ptr ≠ s.heap.next :=
    fun e he => ne_next_of_info (hr.items e he)
  obtain ⟨kh, vh, hheader⟩ := hr.header
  have hheaderNe : s.header ≠ s.heap.next := ne_next_of_info hheader
  have hsplit : ∀ {e : Item K V}, e ∈ pre ++ ⟨s.heap.next, key, value, randomLevel⟩ :: suf →
      e = ⟨s.heap.next, key, value, randomLevel⟩ ∨ e ∈ pre ++ suf := by
    intro e he
    rcases List.mem_append.mp he with he | he
    · exact Or.inr (List.mem_append_left suf he)
    · rcases List.mem_cons.mp he with he | he
      · exact Or.inl he
      · exact Or.inr (List.mem_append_right pre he)
  have hmap : (pre ++ ⟨s.heap.next, key, value, randomLevel⟩ :: suf).map Item.ptr =
      pre.map Item.ptr ++ s.heap.next :: suf.map Item.ptr := by
    rw [List.map_append, List.map_cons]
  have hold_map : (pre ++ suf).map Item.ptr = pre.map Item.ptr ++ suf.map Item.ptr :=
    List.map_append
  have hnotin : s.heap.next ∉ (pre ++ suf).map Item.ptr := by
    intro hmem
    obtain ⟨e, he, heq⟩ := List.mem_map.mp hmem
    exact hptr e he heq
  refine ⟨⟨kh, vh, ?_⟩, ?_, ?_, ?_, ?_, ?_, ?_, ?_, ?_, ?_⟩
  · -- header, nodes and order are those of before with the new item in between
    show info h' s.header = _
    rw [hold hheaderNe]
    exact hheader
  · have hfresh := hr.fresh
    rw [hmap]
    rw [hold_map, List.mem_append, not_or] at hfresh
    rw [List.mem_append, List.mem_cons, not_or, not_or]
    exact ⟨hfresh.1, hheaderNe, hfresh.2⟩
  · intro e he
    rcases hsplit he with rfl | he
    · exact hnew
    · show info h' e.ptr = _
      rw [hold (hptr e he)]
      exact hr.items e he
  · intro p hp
    rw [hmap, List.mem_append, List.mem_cons]
    by_cases hpn : p = s.heap.next
    · exact Or.inr (Or.inr (Or.inl hpn))
    · replace hp : info h' p ≠ none := hp
      rw [hold hpn] at hp
      rcases hr.only p hp with hp | hp
      · exact Or.inl hp
      · rw [hold_map, List.mem_append] at hp
        rcases hp with hp | hp
        · exact Or.inr (Or.inl hp)
        · exact Or.inr (Or.inr (Or.inr hp))
  · rw [hmap, List.nodup_middle, List.nodup_cons, ← hold_map]
    exact ⟨hnotin, hr.nodup⟩
  · obtain ⟨hp, hs, hcross⟩ := List.pairwise_append.mp hr.sorted
    refine List.pairwise_append.mpr ⟨hp, List.pairwise_cons.mpr ⟨hsuf, hs⟩, fun a ha b hb => ?_⟩
    rcases List.mem_cons.mp hb with rfl | hb
    · exact hpre a ha
    · exact hcross a ha b hb
  · intro e he
    rcases hsplit he with rfl | he
    · exact Nat.le_max_right ..
    · exact (hr.bound e he).trans (Nat.le_max_left ..)
  · exact Nat.max_le.mpr ⟨hr.level, hlevel⟩
  · -- each level up to that of the new node gets it behind its entry
    intro i hi
    show Links (fwd h' i) s.header _ none
    have hlinks := hr.links i hi
    have hmem : ∀ {p : Nat}, p ∈ s.header :: tower i (pre ++ suf) → p ≠ s.heap.next := by
      intro p hp
      rcases List.mem_cons.mp hp with rfl | hp
      · exact hheaderNe
      · obtain ⟨e, he, -, rfl⟩ := mem_tower.mp hp
        exact hptr e he
    rw [tower_append] at hlinks hmem
    by_cases hil : i ≤ randomLevel
    · rw [tower_append, tower_cons_of_le hil]
      have hentry : s.entry pre i ∈ s.header :: tower i pre := Links.getLastD_mem
      have hentryNe : s.entry pre i ≠ s.heap.next := by
        refine hmem ?_
        rcases List.mem_cons.mp hentry with heq | hentry
        · rw [heq]
          exact List.mem_cons_self
        · exact List.mem_cons_of_mem _ (List.mem_append_left _ hentry)
      have hnodup : (s.header :: (tower i pre ++ tower i suf)).Nodup := by
        rw [← tower_append]
        refine List.nodup_cons.mpr ⟨fun hp => hr.fresh (tower_sublist.subset hp), ?_⟩
        exact hr.nodup.sublist tower_sublist
      refine hlinks.insert hnodup ?_ ?_ fun p hp hne => ?_
      · show fwd h' i (s.entry pre i) = some s.heap.next
        rw [hfwd, if_pos hil, if_neg hentryNe, if_pos rfl]
      · rw [hfwd, if_pos hil, if_pos rfl, fwd_new_of_ne _ _ _ hentryNe]
        rfl
      · rw [hfwd, if_pos hil, if_neg (hmem hp), if_neg (show p ≠ s.entry pre i from hne),
          fwd_new_of_ne _ _ _ (hmem hp)]
    · -- the levels above are as before
      rw [tower_append, tower_cons_of_lt (by show randomLevel < i; omega)]
      refine hlinks.congr fun p hp => ?_
      rw [hfwd, if_neg hil, fwd_new_of_ne _ _ _ (hmem hp)]
  · show s.elementCount + 1 = _
    rw [hr.count, List.length_append, List.length_append, List.length_cons]
    omega

theorem insertElement_new (hr : Repr s (pre ++ suf)) (value : V) {randomLevel : Nat}
    (hlevel : randomLevel ≤ s.maxLevel) (hpre : ∀ e ∈ pre, e.key < key)
    (hsuf : ∀ e ∈ suf, key < e.key) :
    ∃ s', s.insertElement key value randomLevel = some (0, s') ∧ s'.maxLevel = s.maxLevel ∧
      Repr s' (pre ++ ⟨s.heap.next, key, value, randomLevel⟩ :: suf) := by
  have hnotlt : ∀ e ∈ suf, ¬ e.key < key := fun e he => lt_asymm (hsuf e he)
  have hmatch : s.matching key (s.entry pre 0) = some none := by
    rw [hr.matching]
    cases suf with
    | nil => rfl
    | cons e suf =>
        have hne : e.key ≠ key := ne_of_gt (hsuf e List.mem_cons_self)
        show some (if e.key = key then some e.ptr else none) = _
        rw [if_neg hne]
  -- above the old level the header is the last item below the key
  have hupdate : ∀ i ≤ randomLevel, (if s.skipListLevel < i ∧ i ≤ randomLevel then some s.header
      else if i < s.skipListLevel + 1 then some (s.entry pre i) else none) =
      some (s.entry pre i) := by
    intro i hi
    by_cases hsi : s.skipListLevel < i
    · rw [if_pos ⟨hsi, hi⟩, entry, tower_eq_nil]
      · rfl
      · intro e he
        have := hr.bound e (List.mem_append_left suf he)
        omega
    · rw [if_neg (by omega), if_pos (by omega)]
  obtain ⟨kh, vh, hheader⟩ := hr.header
  have hentry : ∀ i ≤ randomLevel, s.entry pre i ≠ s.heap.next ∧
      ∃ k v l, info (s.heap.new ⟨key, value, randomLevel, fun _ => none, none⟩)
        (s.entry pre i) = some (k, v, l) ∧ i ≤ l := by
    intro i hi
    obtain ⟨k, v, l, hinfo, hil⟩ := hr.entry_info (i := i) (by omega)
    have hne := ne_next_of_info hinfo
    exact ⟨hne, k, v, l, by rw [info_new, if_neg hne]; exact hinfo, hil⟩
  obtain ⟨h', hlink, hinfo, hfwd⟩ := linkLevels_spec (u := s.entry pre) (n := s.heap.next)
    (l := randomLevel) (fun i hi => (hentry i hi).1) (fun i hi => (hentry i hi).2)
    ⟨key, value, randomLevel, by rw [info_new, if_pos rfl], Nat.le_refl _⟩ hupdate
  refine ⟨_, ?_, ?_, hr.insert hlevel hpre hsuf hinfo hfwd⟩
  · rw [insertElement, hr.locate hpre hnotlt, Option.bind_some]
    dsimp only
    rw [hmatch, Option.bind_some]
    dsimp only
    rw [hupdate 0 (Nat.zero_le _), Option.bind_some]
    obtain ⟨h₀, hbottom, hlevels⟩ := Option.bind_eq_some_iff.mp hlink
    rw [hbottom, Option.bind_some, hlevels]
    rfl
  · rfl

/-! ## Deletion -/

/-- The node `p` is passed over behind `u j` in all levels `j` below `n`. -/
def UnlinkedBelow (h h' : Heap (Node K V)) (u : Nat → Nat) (p n : Nat) : Prop :=
  ∀ j r, fwd h' j r = if j < n ∧ r = u j then fwd h j p else fwd h j r

omit [LinearOrder K] in
theorem unlinkLevels_spec (u : Nat → Nat) {p level top : Nat} (update : Nat → Option Nat)
    (hu : ∀ i ≤ top, ∃ k v l, info h (u i) = some (k, v, l) ∧ i ≤ l)
    (hp : ∃ k v, info h p = some (k, v, level))
    (hupdate : ∀ i ≤ top, update i = some (u i)) (hlevel : level ≤ top)
    (hnext : ∀ i ≤ top, fwd h i (u i) = some p ↔ i ≤ level) :
    ∀ (rounds i : Nat) (h₁ : Heap (Node K V)), i ≤ level + 1 → i + rounds = top + 1 →
    info h₁ = info h → UnlinkedBelow h h₁ u p i →
    ∃ h', unlinkLevels update p rounds i h₁ = some h' ∧ info h' = info h ∧
      UnlinkedBelow h h' u p (level + 1) := by
  obtain ⟨kp, vp, hp⟩ := hp
  intro rounds
  induction rounds with
  | zero =>
      intro i h₁ hi hrounds hinfo hfwd
      refine ⟨h₁, rfl, hinfo, ?_⟩
      rwa [show level + 1 = i by omega]
  | succ rounds ih =>
      intro i h₁ hi hrounds hinfo hfwd
      obtain ⟨k, v, l, huinfo, hil⟩ := hu i (by omega)
      have huinfo₁ : info h₁ (u i) = some (k, v, l) := by rw [hinfo]; exact huinfo
      have hfwdi : fwd h₁ i (u i) = fwd h i (u i) := by
        rw [hfwd, if_neg (by omega)]
      rw [unlinkLevels, hupdate i (by omega), Option.bind_some, readForward_of_info huinfo₁ hil,
        Option.bind_some, hfwdi]
      by_cases hlast : i ≤ level
      · rw [if_neg (by rw [(hnext i (by omega)).mpr hlast]; simp)]
        have hpinfo₁ : info h₁ p = some (kp, vp, level) := by rw [hinfo]; exact hp
        have hfwdp : fwd h₁ i p = fwd h i p := by
          rw [hfwd, if_neg (by omega)]
        obtain ⟨h₂, hwrite, hinfo₂, hfwd₂⟩ := writeForward_of_info huinfo₁ hil (fwd h i p)
        rw [readForward_of_info hpinfo₁ hlast, Option.bind_some, hfwdp, hwrite, Option.bind_some]
        refine ih (i + 1) h₂ (by omega) (by omega) (hinfo₂.trans hinfo) fun j r => ?_
        rw [hfwd₂, hfwd]
        by_cases hji : j = i
        · subst hji
          by_cases hr : r = u j
          · rw [if_pos ⟨rfl, hr⟩, if_pos ⟨by omega, hr⟩]
          · rw [if_neg fun h => hr h.2, if_neg fun h => hr h.2, if_neg fun h => hr h.2]
        · rw [if_neg fun h => hji h.1]
          by_cases hj : j < i ∧ r = u j
          · rw [if_pos hj, if_pos ⟨by omega, hj.2⟩]
          · rw [if_neg hj, if_neg fun h => hj ⟨by omega, h.2⟩]
      · rw [if_pos fun h => hlast ((hnext i (by omega)).mp h)]
        refine ⟨h₁, rfl, hinfo, ?_⟩
        rwa [show level + 1 = i by omega]

omit [LinearOrder K] in
/-- The level is lowered to the highest that has a node. -/
theorem lowerLevel_spec {header maxLevel : Nat}
    (hheader : ∃ k v, info h header = some (k, v, maxLevel)) : ∀ l ≤ maxLevel,
    ∃ l' ≤ l, lowerLevel h header l = some l' ∧
      ∀ j, l' < j → j ≤ l → fwd h j header = none := by
  obtain ⟨k, v, hheader⟩ := hheader
  intro l
  induction l with
  | zero =>
      intro _
      exact ⟨0, Nat.le_refl 0, rfl, fun j hj hj' => by omega⟩
  | succ l ih =>
      intro hl
      rw [lowerLevel, readForward_of_info hheader hl, Option.bind_some]
      by_cases hnone : fwd h (l + 1) header = none
      · obtain ⟨l', hl', hlower, hempty⟩ := ih (by omega)
        rw [if_pos hnone]
        refine ⟨l', by omega, hlower, fun j hj hjl => ?_⟩
        by_cases hjl' : j = l + 1
        · rw [hjl', hnone]
        · exact hempty j hj (by omega)
      · rw [if_neg hnone]
        exact ⟨l + 1, Nat.le_refl _, rfl, fun j hj hj' => by omega⟩

omit [LinearOrder K] in
theorem info_fwd_modify? (h : Heap (Node K V)) (q : Option Nat) (pv : Option Nat) :
    info (h.modify? q fun y => { y with prev := pv }) = info h ∧
      fwd (h.modify? q fun y => { y with prev := pv }) = fwd h := by
  cases q with
  | none => exact ⟨rfl, rfl⟩
  | some q => exact ⟨info_setPrev h q pv, fwd_setPrev h q pv⟩

omit [LinearOrder K] in
theorem info_delete (h : Heap (Node K V)) (p r : Nat) :
    info (h.delete p) r = if r = p then none else info h r := by
  rw [info, info, Heap.get_delete]
  split <;> rfl

omit [LinearOrder K] in
theorem fwd_delete_of_ne (h : Heap (Node K V)) {p r : Nat} (hr : r ≠ p) (j : Nat) :
    fwd (h.delete p) j r = fwd h j r := by
  rw [fwd, fwd, Heap.get_delete_ne _ hr]

section Unlink

variable {e : Item K V}

theorem not_lt_of_head (hsuf : ∀ a ∈ suf, e.key < a.key) : ∀ a ∈ e :: suf, ¬ a.key < e.key := by
  intro a ha
  rcases List.mem_cons.mp ha with rfl | ha
  · exact lt_irrefl _
  · exact lt_asymm (hsuf a ha)

theorem Repr.header_ne (hr : Repr s (pre ++ e :: suf)) : s.header ≠ e.ptr := by
  intro heq
  refine hr.fresh ?_
  rw [List.map_append, List.map_cons, heq]
  exact List.mem_append_right _ List.mem_cons_self

/-- An item of the list is in none of the levels of the others. -/
theorem Repr.ptr_ne (hr : Repr s (pre ++ e :: suf)) {a : Item K V} (ha : a ∈ pre ++ suf) :
    a.ptr ≠ e.ptr := by
  have hnodup := hr.nodup
  rw [List.map_append, List.map_cons, List.nodup_middle, List.nodup_cons,
    ← List.map_append] at hnodup
  intro heq
  exact hnodup.1 (heq ▸ List.mem_map_of_mem ha)

theorem Repr.entry_ne (hr : Repr s (pre ++ e :: suf)) (i : Nat) : s.entry pre i ≠ e.ptr := by
  have hmem : s.entry pre i ∈ s.header :: tower i pre := Links.getLastD_mem
  rcases List.mem_cons.mp hmem with heq | hmem
  · rw [heq]
    exact hr.header_ne
  · obtain ⟨a, ha, -, hptr⟩ := mem_tower.mp hmem
    rw [← hptr]
    exact hr.ptr_ne (List.mem_append_left suf ha)

/-- The last item below is linked to the item in the levels that the item has. -/
theorem Repr.fwd_entry_iff (hr : Repr s (pre ++ e :: suf)) {i : Nat} (hi : i ≤ s.maxLevel) :
    fwd s.heap i (s.entry pre i) = some e.ptr ↔ i ≤ e.level := by
  rw [hr.fwd_entry hi]
  by_cases hle : i ≤ e.level
  · rw [tower_cons_of_le hle]
    simp [hle]
  · rw [tower_cons_of_lt (by omega)]
    refine ⟨fun hhead => ?_, fun h => absurd h hle⟩
    obtain ⟨a, ha, -, hptr⟩ := mem_tower.mp (List.mem_of_mem_head? hhead)
    exact absurd hptr (hr.ptr_ne (List.mem_append_right pre ha))

/-- The levels without the item. -/
theorem Repr.links_unlinked (hr : Repr s (pre ++ e :: suf))
    (hfwd : ∀ j r, r ≠ e.ptr → fwd h' j r =
      if j < e.level + 1 ∧ r = s.entry pre j then fwd s.heap j e.ptr else fwd s.heap j r)
    {i : Nat} (hi : i ≤ s.maxLevel) : Links (fwd h' i) s.header (tower i (pre ++ suf)) none := by
  have hlinks := hr.links i hi
  have hne : ∀ {p : Nat}, p ∈ s.header :: tower i (pre ++ suf) → p ≠ e.ptr := by
    intro p hp
    rcases List.mem_cons.mp hp with rfl | hp
    · exact hr.header_ne
    · obtain ⟨a, ha, -, rfl⟩ := mem_tower.mp hp
      exact hr.ptr_ne ha
  by_cases hle : i ≤ e.level
  · have hnodup : (s.header :: tower i (pre ++ e :: suf)).Nodup := by
      refine List.nodup_cons.mpr ⟨fun hp => hr.fresh (tower_sublist.subset hp), ?_⟩
      exact hr.nodup.sublist tower_sublist
    rw [tower_append, tower_cons_of_le hle] at hlinks hnodup
    rw [tower_append] at hne ⊢
    refine hlinks.remove hnodup ?_ fun p hp hpe => ?_
    · show fwd h' i (s.entry pre i) = fwd s.heap i e.ptr
      rw [hfwd i _ (hr.entry_ne i), if_pos ⟨by omega, rfl⟩]
    · rw [hfwd i p (hne hp), if_neg fun h => hpe h.2]
  · rw [tower_append, tower_cons_of_lt (by omega), ← tower_append] at hlinks
    refine hlinks.congr fun p hp => ?_
    rw [hfwd i p (hne hp), if_neg (by omega)]

/-- An item is taken out. -/
theorem Repr.remove (hr : Repr s (pre ++ e :: suf)) {level : Nat} {fault : Bool}
    (hinfo : ∀ r, info h' r = if r = e.ptr then none else info s.heap r)
    (hfwd : ∀ j r, r ≠ e.ptr → fwd h' j r =
      if j < e.level + 1 ∧ r = s.entry pre j then fwd s.heap j e.ptr else fwd s.heap j r)
    (hlevel : level ≤ s.skipListLevel)
    (hempty : ∀ j, level < j → j ≤ s.skipListLevel → fwd h' j s.header = none) :
    Repr { s with
      heap := h'
      skipListLevel := level
      elementCount := s.elementCount - 1
      fault := fault } (pre ++ suf) := by
  have hmem : ∀ {a : Item K V}, a ∈ pre ++ suf → a ∈ pre ++ e :: suf := by
    intro a ha
    rcases List.mem_append.mp ha with ha | ha
    · exact List.mem_append_left _ ha
    · exact List.mem_append_right _ (List.mem_cons_of_mem e ha)
  have hsub : (pre ++ suf).Sublist (pre ++ e :: suf) :=
    (List.Sublist.refl pre).append (List.sublist_cons_self e suf)
  have hlinks : ∀ i ≤ s.maxLevel, Links (fwd h' i) s.header (tower i (pre ++ suf)) none :=
    fun i hi => hr.links_unlinked hfwd hi
  have hmax := hr.level
  obtain ⟨kh, vh, hheader⟩ := hr.header
  refine ⟨⟨kh, vh, ?_⟩, ?_, ?_, ?_, ?_, hr.sorted.sublist hsub, ?_, ?_, hlinks, ?_⟩
  · show info h' s.header = _
    rw [hinfo, if_neg hr.header_ne]
    exact hheader
  · exact fun hp => hr.fresh ((hsub.map Item.ptr).subset hp)
  · intro a ha
    show info h' a.ptr = _
    rw [hinfo, if_neg (hr.ptr_ne ha)]
    exact hr.items a (hmem ha)
  · -- no other node is lost
    intro p hp
    replace hp : info h' p ≠ none := hp
    rw [hinfo] at hp
    split at hp
    · exact absurd rfl hp
    · rename_i hpe
      rcases hr.only p hp with hp | hp
      · exact Or.inl hp
      · right
        rw [List.map_append, List.map_cons, List.mem_append, List.mem_cons] at hp
        rw [List.map_append, List.mem_append]
        rcases hp with hp | hp | hp
        · exact Or.inl hp
        · exact absurd hp hpe
        · exact Or.inr hp
  · exact hr.nodup.sublist (hsub.map Item.ptr)
  · -- an item above the new level would be in a level that has no first node
    intro a ha
    have hbound := hr.bound a (hmem ha)
    show a.level ≤ level
    by_contra hgt
    have hfirst := (hlinks a.level (by omega)).first
    rw [hempty a.level (by omega) hbound] at hfirst
    have hmemTower : a.ptr ∈ tower a.level (pre ++ suf) :=
      mem_tower.mpr ⟨a, ha, Nat.le_refl _, rfl⟩
    cases htower : tower a.level (pre ++ suf) with
    | nil =>
        rw [htower] at hmemTower
        cases hmemTower
    | cons q qs =>
        rw [htower] at hfirst
        cases hfirst
  · show level ≤ s.maxLevel
    omega
  · show s.elementCount - 1 = _
    rw [hr.count, List.length_append, List.length_append, List.length_cons]
    omega

end Unlink

theorem deleteElement_present {e : Item K V} (hr : Repr s (pre ++ e :: suf))
    (hpre : ∀ a ∈ pre, a.key < e.key) (hsuf : ∀ a ∈ suf, e.key < a.key) :
    ∃ s', s.deleteElement e.key = some s' ∧ s'.maxLevel = s.maxLevel ∧ Repr s' (pre ++ suf) ∧
      s'.fault = (s.fault || suf.isEmpty) := by
  have hmatch : s.matching e.key (s.entry pre 0) = some (some e.ptr) := by
    rw [hr.matching]
    show some (if e.key = e.key then some e.ptr else none) = _
    rw [if_pos rfl]
  have hmem : e ∈ pre ++ e :: suf := List.mem_append_right pre List.mem_cons_self
  have hbound := hr.bound e hmem
  have hmax := hr.level
  have hitem := hr.items e hmem
  obtain ⟨h₁, hunlink, hinfo₁, hfwd₁⟩ := unlinkLevels_spec (h := s.heap) (s.entry pre)
    (fun i => if i < s.skipListLevel + 1 then some (s.entry pre i) else none)
    (fun i (hi : i ≤ s.skipListLevel) => hr.entry_info (by omega)) ⟨e.key, e.value, hitem⟩
    (fun i hi => by rw [if_pos (by omega)]) hbound (fun i hi => hr.fwd_entry_iff (by omega))
    (s.skipListLevel + 1) 0 s.heap (Nat.zero_le _) (by omega) rfl
    (fun j r => by rw [if_neg (by omega)])
  obtain ⟨kh, vh, hheader⟩ := hr.header
  obtain ⟨level, hle, hlower, hempty⟩ := lowerLevel_spec (h := h₁)
    ⟨kh, vh, show info h₁ s.header = _ by rw [hinfo₁]; exact hheader⟩ s.skipListLevel hmax
  obtain ⟨x, hx, -⟩ := get_of_info (show info h₁ e.ptr = _ by rw [hinfo₁]; exact hitem)
  -- the write of `prev` is not seen in the levels
  obtain ⟨h₂, hh₂, hinfo₂, hfwd₂⟩ : ∃ h₂, h₂ = (if x.forward 0 = some s.header then h₁
      else h₁.modify? (x.forward 0) fun y => { y with prev := x.prev }) ∧
      info h₂ = info h₁ ∧ fwd h₂ = fwd h₁ := by
    refine ⟨_, rfl, ?_⟩
    split
    · exact ⟨rfl, rfl⟩
    · exact info_fwd_modify? h₁ _ _
  refine ⟨{ s with
    heap := h₂.delete e.ptr
    skipListLevel := level
    elementCount := s.elementCount - 1
    fault := s.fault || (x.forward 0).isNone }, ?_, rfl, ?_, ?_⟩
  · rw [deleteElement, hr.locate hpre (not_lt_of_head hsuf), Option.bind_some]
    dsimp only
    rw [hmatch, Option.bind_some]
    dsimp only
    rw [hunlink, Option.bind_some, hlower, Option.bind_some, hx, Option.map_some, hh₂]
  · refine hr.remove (fun r => ?_) (fun j r hre => ?_) hle fun j hj hj' => ?_
    · rw [info_delete, hinfo₂, hinfo₁]
    · rw [fwd_delete_of_ne _ hre, hfwd₂, hfwd₁]
    · rw [fwd_delete_of_ne _ hr.header_ne, hfwd₂]
      exact hempty j hj hj'
  · -- the link of the item itself is not changed
    have hforward : x.forward 0 = (suf.map Item.ptr).head? := by
      have hread : fwd h₁ 0 e.ptr = x.forward 0 := by
        rw [fwd, hx]
        rfl
      have hlinks := hr.links 0 (Nat.zero_le _)
      rw [tower_append, tower_cons_of_le (Nat.zero_le _), tower_zero (c := suf)] at hlinks
      rw [← hread, hfwd₁, if_neg fun h => hr.entry_ne 0 h.2.symm, hlinks.mem_next, Option.or_none]
    dsimp only
    rw [hforward]
    cases suf with
    | nil => rfl
    | cons a suf => rfl

theorem deleteElement_absent (hr : Repr s (pre ++ suf)) (hpre : ∀ a ∈ pre, a.key < key)
    (hsuf : ∀ a ∈ suf, key < a.key) : s.deleteElement key = some s := by
  have hnotlt : ∀ a ∈ suf, ¬ a.key < key := fun a ha => lt_asymm (hsuf a ha)
  rw [deleteElement, hr.locate hpre hnotlt, Option.bind_some]
  dsimp only
  rw [hr.matching]
  cases suf with
  | nil => rfl
  | cons e suf =>
      have hne : e.key ≠ key := ne_of_gt (hsuf e List.mem_cons_self)
      simp [hne]

end SkipList

/-! ## Calls and runs -/

/-- The calls of a list; an insertion comes with the random level. -/
inductive Op (K V : Type) where
  | insert (key : K) (value : V) (randomLevel : Nat)
  | delete (key : K)
  | search (key : K)
  | size
  deriving DecidableEq

/-- What a call returns; of a node that is found, its value. -/
inductive Outcome (V : Type) where
  | inserted (r : Nat)
  | deleted
  | found (r : Option V)
  | size (n : Nat)
  deriving DecidableEq

/-- What each call does to a finite map. -/
inductive Spec (f : K → Option V) : Op K V → Outcome V → (K → Option V) → Prop where
  | inserted {key : K} {value : V} {l : Nat} (h : f key = none) :
      Spec f (.insert key value l) (.inserted 0) (Function.update f key (some value))
  | present {key : K} {value : V} {l : Nat} (h : f key ≠ none) :
      Spec f (.insert key value l) (.inserted 1) f
  | deleted {key : K} : Spec f (.delete key) .deleted (Function.update f key none)
  | found {key : K} : Spec f (.search key) (.found (f key)) f
  | size : Spec f .size (.size {k | f k ≠ none}.ncard) f

namespace SkipList

variable {s : SkipList K V} {c pre suf : List (Item K V)} {key : K} {f : K → Option V}

def exec (s : SkipList K V) : Op K V → Option (Outcome V × SkipList K V)
  | .insert key value l => (s.insertElement key value l).map fun r => (.inserted r.1, r.2)
  | .delete key => (s.deleteElement key).map fun s => (.deleted, s)
  | .search key =>
      (s.searchElement key).bind fun r =>
        match r with
        | none => some (.found none, s)
        | some p => (s.heap.get p).map fun x => (.found (some x.value), s)
  | .size => some (.size s.elementCount, s)

/-- Random levels are not above the highest level. -/
def Allowed (s : SkipList K V) : Op K V → Prop
  | .insert _ _ l => l ≤ s.maxLevel
  | _ => True

/-- The items stand for `f`. -/
def Rel (c : List (Item K V)) (f : K → Option V) : Prop :=
  ∀ k v, f k = some v ↔ ∃ e ∈ c, e.key = k ∧ e.value = v

/-- A key is between two items or that of one. -/
theorem split_cases (key : K) (hsorted : c.Pairwise fun a b => a.key < b.key) :
    (∃ pre suf, c = pre ++ suf ∧ (∀ e ∈ pre, e.key < key) ∧ ∀ e ∈ suf, key < e.key) ∨
    ∃ pre e suf, c = pre ++ e :: suf ∧ e.key = key ∧ (∀ a ∈ pre, a.key < key) ∧
      ∀ a ∈ suf, key < a.key := by
  obtain ⟨pre, suf, rfl, hpre, hsuf⟩ := exists_split key hsorted
  cases suf with
  | nil => exact Or.inl ⟨pre, [], rfl, hpre, by simp⟩
  | cons e suf =>
      have hfirst := (List.pairwise_cons.mp (List.pairwise_append.mp hsorted).2.1).1
      rcases lt_trichotomy e.key key with hlt | heq | hgt
      · exact absurd hlt (hsuf e List.mem_cons_self)
      · exact Or.inr ⟨pre, e, suf, rfl, heq, hpre, fun a ha => heq ▸ hfirst a ha⟩
      · refine Or.inl ⟨pre, e :: suf, rfl, hpre, fun a ha => ?_⟩
        rcases List.mem_cons.mp ha with rfl | ha
        · exact hgt
        · exact hgt.trans (hfirst a ha)

theorem Rel.eq_none (hrel : Rel (pre ++ suf) f) (hpre : ∀ e ∈ pre, e.key < key)
    (hsuf : ∀ e ∈ suf, key < e.key) : f key = none := by
  by_contra hsome
  obtain ⟨v, hv⟩ := Option.ne_none_iff_exists'.mp hsome
  obtain ⟨e, he, hek, -⟩ := (hrel key v).mp hv
  rcases List.mem_append.mp he with he | he
  · exact absurd hek (ne_of_lt (hpre e he))
  · exact absurd hek (ne_of_gt (hsuf e he))

omit [LinearOrder K] in
theorem Rel.eq_some {e : Item K V} (hrel : Rel (pre ++ e :: suf) f) : f e.key = some e.value :=
  (hrel _ _).mpr ⟨e, List.mem_append_right pre List.mem_cons_self, rfl, rfl⟩

theorem Rel.insert {e : Item K V} (hrel : Rel (pre ++ suf) f) (hnone : f e.key = none) :
    Rel (pre ++ e :: suf) (Function.update f e.key (some e.value)) := by
  intro k v
  have hmem : (∃ a ∈ pre ++ e :: suf, a.key = k ∧ a.value = v) ↔
      (e.key = k ∧ e.value = v) ∨ f k = some v := by
    rw [hrel k v]
    simp only [List.mem_append, List.mem_cons]
    constructor
    · rintro ⟨a, ha | rfl | ha, hk⟩
      · exact Or.inr ⟨a, Or.inl ha, hk⟩
      · exact Or.inl hk
      · exact Or.inr ⟨a, Or.inr ha, hk⟩
    · rintro (hk | ⟨a, ha | ha, hk⟩)
      · exact ⟨e, Or.inr (Or.inl rfl), hk⟩
      · exact ⟨a, Or.inl ha, hk⟩
      · exact ⟨a, Or.inr (Or.inr ha), hk⟩
  rw [hmem]
  by_cases hk : k = e.key
  · subst hk
    rw [Function.update_self, hnone]
    simp
  · rw [Function.update_of_ne hk]
    simp [Ne.symm hk]

theorem Rel.remove {e : Item K V} (hrel : Rel (pre ++ e :: suf) f)
    (hpre : ∀ a ∈ pre, a.key < e.key) (hsuf : ∀ a ∈ suf, e.key < a.key) :
    Rel (pre ++ suf) (Function.update f e.key none) := by
  intro k v
  by_cases hk : k = e.key
  · rw [hk, Function.update_self]
    refine ⟨fun h => absurd h (by simp), ?_⟩
    rintro ⟨a, ha, hak, -⟩
    rcases List.mem_append.mp ha with ha | ha
    · exact absurd hak (ne_of_lt (hpre a ha))
    · exact absurd hak (ne_of_gt (hsuf a ha))
  · rw [Function.update_of_ne hk, hrel k v]
    simp only [List.mem_append, List.mem_cons]
    constructor
    · rintro ⟨a, ha | rfl | ha, hak⟩
      · exact ⟨a, Or.inl ha, hak⟩
      · exact absurd hak.1.symm hk
      · exact ⟨a, Or.inr ha, hak⟩
    · rintro ⟨a, ha | ha, hak⟩
      · exact ⟨a, Or.inl ha, hak⟩
      · exact ⟨a, Or.inr (Or.inr ha), hak⟩

theorem Repr.size_eq (hr : Repr s c) (hrel : Rel c f) :
    s.elementCount = {k | f k ≠ none}.ncard := by
  have hset : {k | f k ≠ none} = ((c.map Item.key).toFinset : Set K) := by
    ext k
    simp only [Set.mem_ofPred_eq, List.coe_toFinset, List.mem_map]
    rw [Option.ne_none_iff_exists']
    constructor
    · rintro ⟨v, hv⟩
      obtain ⟨e, he, hk, -⟩ := (hrel k v).mp hv
      exact ⟨e, he, hk⟩
    · rintro ⟨e, he, hk⟩
      exact ⟨e.value, (hrel k e.value).mpr ⟨e, he, hk, rfl⟩⟩
  have hnodup : (c.map Item.key).Nodup :=
    List.Pairwise.map Item.key (fun _ _ h => ne_of_lt h) hr.sorted
  rw [hset, Set.ncard_coe_finset, List.toFinset_card_of_nodup hnodup, List.length_map, hr.count]

theorem searchElement_absent (hr : Repr s (pre ++ suf)) (hpre : ∀ a ∈ pre, a.key < key)
    (hsuf : ∀ a ∈ suf, key < a.key) : s.searchElement key = some none := by
  rw [searchElement, hr.locate hpre fun a ha => lt_asymm (hsuf a ha), Option.bind_some,
    hr.matching]
  cases suf with
  | nil => rfl
  | cons e suf =>
      have hne : e.key ≠ key := ne_of_gt (hsuf e List.mem_cons_self)
      simp [hne]

theorem searchElement_present {e : Item K V} (hr : Repr s (pre ++ e :: suf))
    (hpre : ∀ a ∈ pre, a.key < e.key) (hsuf : ∀ a ∈ suf, e.key < a.key) :
    s.searchElement e.key = some (some e.ptr) := by
  rw [searchElement, hr.locate hpre (not_lt_of_head hsuf), Option.bind_some, hr.matching]
  simp

theorem insertElement_present {e : Item K V} (hr : Repr s (pre ++ e :: suf))
    (hpre : ∀ a ∈ pre, a.key < e.key) (hsuf : ∀ a ∈ suf, e.key < a.key) (value : V) (l : Nat) :
    s.insertElement e.key value l = some (1, s) := by
  rw [insertElement, hr.locate hpre (not_lt_of_head hsuf), Option.bind_some]
  dsimp only
  rw [hr.matching]
  simp

theorem exec_spec (hr : Repr s c) (hrel : Rel c f) {op : Op K V} (hallowed : s.Allowed op) :
    ∃ out s' f' c', s.exec op = some (out, s') ∧ Spec f op out f' ∧ s'.maxLevel = s.maxLevel ∧
      Repr s' c' ∧ Rel c' f' := by
  cases op with
  | insert key value l =>
      rcases split_cases key hr.sorted with
        ⟨pre, suf, rfl, hpre, hsuf⟩ | ⟨pre, e, suf, rfl, rfl, hpre, hsuf⟩
      · have hnone := hrel.eq_none hpre hsuf
        obtain ⟨s', hinsert, hmax, hr'⟩ := insertElement_new hr value hallowed hpre hsuf
        refine ⟨_, s', _, _, ?_, .inserted hnone, hmax, hr', hrel.insert hnone⟩
        rw [exec, hinsert]
        rfl
      · refine ⟨_, s, f, _, ?_, .present (by rw [hrel.eq_some]; simp), rfl, hr, hrel⟩
        rw [exec, insertElement_present hr hpre hsuf]
        rfl
  | delete key =>
      rcases split_cases key hr.sorted with
        ⟨pre, suf, rfl, hpre, hsuf⟩ | ⟨pre, e, suf, rfl, rfl, hpre, hsuf⟩
      · have hsame : Function.update f key none = f := by
          rw [← hrel.eq_none hpre hsuf, Function.update_eq_self]
        refine ⟨.deleted, s, _, _, ?_, .deleted, rfl, hr, hsame.symm ▸ hrel⟩
        rw [exec, deleteElement_absent hr hpre hsuf]
        rfl
      · obtain ⟨s', hdelete, hmax, hr', -⟩ := deleteElement_present hr hpre hsuf
        refine ⟨.deleted, s', _, _, ?_, .deleted, hmax, hr', hrel.remove hpre hsuf⟩
        rw [exec, hdelete]
        rfl
  | search key =>
      refine ⟨.found (f key), s, f, c, ?_, .found, rfl, hr, hrel⟩
      rcases split_cases key hr.sorted with
        ⟨pre, suf, rfl, hpre, hsuf⟩ | ⟨pre, e, suf, rfl, rfl, hpre, hsuf⟩
      · rw [exec, searchElement_absent hr hpre hsuf, hrel.eq_none hpre hsuf]
        rfl
      · obtain ⟨x, hx, -, hxv, -⟩ :=
          get_of_info (hr.items e (List.mem_append_right pre List.mem_cons_self))
        rw [exec, searchElement_present hr hpre hsuf, hrel.eq_some]
        show (s.heap.get e.ptr).map _ = _
        rw [hx, Option.map_some, hxv]
  | size =>
      refine ⟨.size s.elementCount, s, f, c, rfl, ?_, rfl, hr, hrel⟩
      rw [hr.size_eq hrel]
      exact .size

theorem new_spec (maxLevel : Nat) (k : K) (v : V) :
    Repr (new maxLevel k v) [] ∧ Rel ([] : List (Item K V)) fun _ => none := by
  refine ⟨⟨⟨k, v, rfl⟩, by simp, by simp, ?_, List.nodup_nil, List.Pairwise.nil, by simp,
    Nat.zero_le _, fun i _ => rfl, rfl⟩, fun k v => by simp⟩
  intro p hp
  left
  by_contra hne
  refine hp ?_
  show info (Heap.empty.new _) p = none
  rw [info_new, if_neg (show p ≠ (Heap.empty : Heap (Node K V)).next from hne)]
  rfl

/-- A call with what it returns. -/
def Step (s : SkipList K V) (l : Op K V × Outcome V) (s' : SkipList K V) : Prop :=
  s.exec l.1 = some (l.2, s')

/-- The call, if it returns what the label says. -/
def stepFn [DecidableEq V] (s : SkipList K V) (l : Op K V × Outcome V) : Option (SkipList K V) :=
  (s.exec l.1).bind fun r => if r.1 = l.2 then some r.2 else none

theorem step_of_stepFn [DecidableEq V] {l : Op K V × Outcome V} {s' : SkipList K V}
    (h : s.stepFn l = some s') : Step s l s' := by
  obtain ⟨⟨out, s''⟩, hexec, h⟩ := Option.bind_eq_some_iff.mp h
  split at h
  · rename_i hout
    cases h
    rw [Step, hexec, ← hout]
  · cases h

instance decidableAllowed (s : SkipList K V) (op : Op K V) : Decidable (s.Allowed op) :=
  match op with
  | .insert _ _ l => inferInstanceAs (Decidable (l ≤ s.maxLevel))
  | .delete _ => inferInstanceAs (Decidable True)
  | .search _ => inferInstanceAs (Decidable True)
  | .size => inferInstanceAs (Decidable True)

end SkipList

/-- Every run is one of the finite map, with the same results; the levels are as they should
be after it, and the next call returns. -/
theorem skipList_refines {maxLevel : Nat} {k : K} {v : V} {ls : List (Op K V × Outcome V)}
    {s : SkipList K V}
    (h : Run (fun s l s' => SkipList.Step s l s' ∧ s.Allowed l.1) (SkipList.new maxLevel k v)
      ls s) :
    (∃ f, Run (fun f l f' => Spec f l.1 l.2 f') (fun _ => none) ls f ∧
      s.elementCount = {k | f k ≠ none}.ncard) ∧
    (∃ chain, s.Layered chain) ∧ s.maxLevel = maxLevel ∧
    ∀ op, s.Allowed op → (s.exec op).isSome := by
  have hrun : ∃ f c, Run (fun f l f' => Spec f l.1 l.2 f') (fun _ => none) ls f ∧
      SkipList.Repr s c ∧ SkipList.Rel c f ∧ s.maxLevel = maxLevel := by
    refine h.inv (I := fun ls s => ∃ f c, Run (fun f l f' => Spec f l.1 l.2 f') (fun _ => none)
      ls f ∧ SkipList.Repr s c ∧ SkipList.Rel c f ∧ s.maxLevel = maxLevel) ?_ ?_
    · obtain ⟨hr, hrel⟩ := SkipList.new_spec maxLevel k v
      exact ⟨_, [], .nil, hr, hrel, rfl⟩
    · rintro ls s ⟨op, out⟩ s' ⟨f, c, hf, hr, hrel, hmax⟩ ⟨hstep, hallowed⟩
      obtain ⟨out', s'', f', c', hexec, hspec, hmax', hr', hrel'⟩ :=
        SkipList.exec_spec hr hrel hallowed
      rw [SkipList.Step, hexec] at hstep
      cases hstep
      exact ⟨f', c', hf.snoc hspec, hr', hrel', hmax'.trans hmax⟩
  obtain ⟨f, c, hf, hr, hrel, hmax⟩ := hrun
  refine ⟨⟨f, hf, hr.size_eq hrel⟩, ⟨_, hr.layered⟩, hmax, fun op hallowed => ?_⟩
  obtain ⟨out, s', f', c', hexec, -⟩ := SkipList.exec_spec hr hrel hallowed
  rw [hexec]
  rfl

/-- Three keys on different levels, of which the highest is deleted. -/
theorem skipList_refines_levels :
    ∃ s : SkipList Nat Nat, Run (fun s l s' => SkipList.Step s l s' ∧ s.Allowed l.1)
      (SkipList.new 3 0 0)
      [(.insert 5 50 1, .inserted 0), (.insert 3 30 3, .inserted 0), (.insert 8 80 0, .inserted 0),
        (.insert 5 51 2, .inserted 1), (.search 5, .found (some 50)), (.delete 3, .deleted),
        (.search 3, .found none), (.size, .size 2)] s ∧ ∃ chain, s.Layered chain := by
  have hexec : (Run.exec SkipList.stepFn (fun s l => s.Allowed l.1) (SkipList.new 3 0 0)
      [(.insert 5 50 1, .inserted 0), (.insert 3 30 3, .inserted 0), (.insert 8 80 0, .inserted 0),
        (.insert 5 51 2, .inserted 1), (.search 5, .found (some (50 : Nat))), (.delete 3, .deleted),
        (.search (3 : Nat), .found none), (.size, .size 2)]).isSome := by decide +kernel
  obtain ⟨s, hs⟩ := Option.isSome_iff_exists.mp hexec
  have hrun : Run (fun s l s' => SkipList.Step s l s' ∧ s.Allowed l.1) (SkipList.new 3 0 0) _ s :=
    (Run.of_exec hs).imp fun _ _ _ h => ⟨SkipList.step_of_stepFn h.1, h.2⟩
  exact ⟨s, hrun, (skipList_refines hrun).2.1⟩

end Ccbase.Application

import Ccbase.Application.SkipList

/-!
# The levels of a `SkipList`

Seen from level 0 the list is a list of items, sorted by key. The list of level `i`
has the nodes of those items that are at least that high. A search for a key ends, in
each level, at the last item below the key; that is where the links of that level
are changed.
-/

namespace Ccbase.Application

open Ccbase.Lib

variable {K V : Type}

/-! ## What a heap says about a node -/

section Heap

variable {h h' : Heap (Node K V)} {p r i j : Nat} {k : K} {v : V} {l : Nat}

def info (h : Heap (Node K V)) (p : Nat) : Option (K × V × Nat) :=
  (h.get p).map fun x => (x.key, x.value, x.nodeLevel)

def fwd (h : Heap (Node K V)) (i p : Nat) : Option Nat := (h.get p).bind fun x => x.forward i

theorem get_of_info (hp : info h p = some (k, v, l)) :
    ∃ x, h.get p = some x ∧ x.key = k ∧ x.value = v ∧ x.nodeLevel = l := by
  obtain ⟨x, hx, heq⟩ := Option.map_eq_some_iff.mp hp
  cases heq
  exact ⟨x, hx, rfl, rfl, rfl⟩

theorem readForward_of_info (hp : info h p = some (k, v, l)) (hi : i ≤ l) :
    readForward h p i = some (fwd h i p) := by
  obtain ⟨x, hx, -, -, rfl⟩ := get_of_info hp
  rw [readForward, fwd, hx, Option.bind_some, if_pos hi, Option.bind_some]

theorem info_setForward (h : Heap (Node K V)) (p i : Nat) (q : Option Nat) :
    info (setForward h p i q) = info h := by
  funext r
  rw [info, info, setForward, Heap.get_modify]
  split
  · rename_i hr
    rw [hr, Option.map_map]
    rfl
  · rfl

theorem fwd_setForward (hp : info h p = some (k, v, l)) (i : Nat) (q : Option Nat) (j r : Nat) :
    fwd (setForward h p i q) j r = if j = i ∧ r = p then q else fwd h j r := by
  obtain ⟨x, hx, -⟩ := get_of_info hp
  rw [fwd, fwd, setForward, Heap.get_modify]
  by_cases hr : r = p
  · rw [if_pos hr, hr, hx, Option.map_some, Option.bind_some, Option.bind_some]
    by_cases hj : j = i
    · rw [if_pos ⟨hj, rfl⟩, hj]
      exact Function.update_self ..
    · rw [if_neg fun h => hj h.1]
      exact Function.update_of_ne hj ..
  · rw [if_neg hr, if_neg fun h => hr h.2]

/-- What a write of a forward pointer does. -/
theorem writeForward_of_info (hp : info h p = some (k, v, l)) (hi : i ≤ l) (q : Option Nat) :
    ∃ h', writeForward h p i q = some h' ∧ info h' = info h ∧
      ∀ j r, fwd h' j r = if j = i ∧ r = p then q else fwd h j r := by
  refine ⟨setForward h p i q, ?_, info_setForward h p i q, fwd_setForward hp i q⟩
  rw [writeForward, readForward_of_info hp hi, Option.map_some]

theorem info_setPrev (h : Heap (Node K V)) (p : Nat) (q : Option Nat) :
    info (setPrev h p q) = info h := by
  funext r
  rw [info, info, setPrev, Heap.get_modify]
  split
  · rename_i hr
    rw [hr, Option.map_map]
    rfl
  · rfl

theorem fwd_setPrev (h : Heap (Node K V)) (p : Nat) (q : Option Nat) :
    fwd (setPrev h p q) = fwd h := by
  funext j r
  rw [fwd, fwd, setPrev, Heap.get_modify]
  split
  · rename_i hr
    rw [hr, Option.bind_map]
    rfl
  · rfl

theorem info_new (h : Heap (Node K V)) (x : Node K V) (r : Nat) :
    info (h.new x) r = if r = h.next then some (x.key, x.value, x.nodeLevel) else info h r := by
  rw [info, info, Heap.get_new]
  split <;> rfl

theorem fwd_new_of_ne (h : Heap (Node K V)) (x : Node K V) (j : Nat) (hr : r ≠ h.next) :
    fwd (h.new x) j r = fwd h j r := by
  rw [fwd, fwd, Heap.get_new, if_neg hr]

theorem ne_next_of_info (hp : info h p = some (k, v, l)) : p ≠ h.next := by
  obtain ⟨x, hx, -⟩ := get_of_info hp
  exact Heap.ne_next hx

end Heap

/-! ## Items and levels -/

structure Item (K V : Type) where
  ptr : Nat
  key : K
  value : V
  level : Nat

/-- The nodes of level `i`. -/
def tower (i : Nat) (c : List (Item K V)) : List Nat :=
  (c.filter fun e => decide (i ≤ e.level)).map Item.ptr

section Tower

variable {i : Nat} {c c' : List (Item K V)} {e : Item K V} {p : Nat}

theorem tower_append : tower i (c ++ c') = tower i c ++ tower i c' := by
  rw [tower, List.filter_append, List.map_append]
  rfl

theorem tower_cons_of_le (hi : i ≤ e.level) : tower i (e :: c) = e.ptr :: tower i c := by
  rw [tower, List.filter_cons_of_pos (by simpa using hi)]
  rfl

theorem tower_cons_of_lt (hi : e.level < i) : tower i (e :: c) = tower i c := by
  rw [tower, List.filter_cons_of_neg (by simpa using hi)]
  rfl

theorem mem_tower : p ∈ tower i c ↔ ∃ e ∈ c, i ≤ e.level ∧ e.ptr = p := by
  simp only [tower, List.mem_map, List.mem_filter, decide_eq_true_eq, and_assoc]

theorem tower_eq_nil (h : ∀ e ∈ c, e.level < i) : tower i c = [] := by
  rw [tower, List.filter_eq_nil_iff.mpr, List.map_nil]
  intro e he
  have := h e he
  simpa using this

theorem tower_succ_sublist : (tower (i + 1) c).Sublist (tower i c) := by
  refine List.Sublist.map _ (List.monotone_filter_right c fun e he => ?_)
  rw [decide_eq_true_eq] at he ⊢
  omega

theorem tower_mono_mem {j : Nat} (hij : i ≤ j) (h : p ∈ tower j c) : p ∈ tower i c := by
  obtain ⟨e, he, hj, hp⟩ := mem_tower.mp h
  exact mem_tower.mpr ⟨e, he, by omega, hp⟩

theorem tower_zero : tower 0 c = c.map Item.ptr := by
  rw [tower, List.filter_eq_self.mpr]
  simp

theorem tower_sublist : (tower i c).Sublist (c.map Item.ptr) :=
  List.Sublist.map _ List.filter_sublist

/-- A sorted list is split at a key. -/
theorem exists_split [LinearOrder K] (k : K) (hsorted : c.Pairwise fun a b => a.key < b.key) :
    ∃ pre suf, c = pre ++ suf ∧ (∀ e ∈ pre, e.key < k) ∧ ∀ e ∈ suf, ¬ e.key < k := by
  induction c with
  | nil => exact ⟨[], [], rfl, by simp, by simp⟩
  | cons e c ih =>
      obtain ⟨hfirst, hrest⟩ := List.pairwise_cons.mp hsorted
      by_cases hk : e.key < k
      · obtain ⟨pre, suf, rfl, hpre, hsuf⟩ := ih hrest
        refine ⟨e :: pre, suf, rfl, fun x hx => ?_, hsuf⟩
        rcases List.mem_cons.mp hx with rfl | hx
        · exact hk
        · exact hpre x hx
      · refine ⟨[], e :: c, rfl, by simp, fun x hx => ?_⟩
        rcases List.mem_cons.mp hx with rfl | hx
        · exact hk
        · exact fun hlt => hk ((hfirst x hx).trans hlt)

end Tower

namespace SkipList

variable [LinearOrder K]

variable {s : SkipList K V} {c pre suf : List (Item K V)} {key : K}

/-- The items `c` are what the levels of the list have. -/
structure Repr (s : SkipList K V) (c : List (Item K V)) : Prop where
  header : ∃ k v, info s.heap s.header = some (k, v, s.maxLevel)
  fresh : s.header ∉ c.map Item.ptr
  items : ∀ e ∈ c, info s.heap e.ptr = some (e.key, e.value, e.level)
  only : ∀ p, info s.heap p ≠ none → p = s.header ∨ p ∈ c.map Item.ptr
  nodup : (c.map Item.ptr).Nodup
  sorted : c.Pairwise fun a b => a.key < b.key
  bound : ∀ e ∈ c, e.level ≤ s.skipListLevel
  level : s.skipListLevel ≤ s.maxLevel
  links : ∀ i ≤ s.maxLevel, Links (fwd s.heap i) s.header (tower i c) none
  count : s.elementCount = c.length

/-- The levels as the forward pointers give them. -/
structure Layered (s : SkipList K V) (chain : Nat → List Nat) : Prop where
  links : ∀ i ≤ s.maxLevel, Links (fwd s.heap i) s.header (chain i) none
  sorted : ∀ i ≤ s.maxLevel, (chain i).Pairwise fun p q =>
    ∃ x y, s.heap.get p = some x ∧ s.heap.get q = some y ∧ x.key < y.key
  sublist : ∀ i, (chain (i + 1)).Sublist (chain i)
  levels : ∀ i ≤ s.maxLevel, ∀ p, p ∈ chain i ↔
    p ≠ s.header ∧ ∃ x, s.heap.get p = some x ∧ i ≤ x.nodeLevel
  above : ∀ i, s.skipListLevel < i → chain i = []

theorem Repr.layered (h : Repr s c) : s.Layered fun i => tower i c := by
  refine ⟨h.links, fun i _ => ?_, fun i => tower_succ_sublist, fun i _ p => ?_, fun i hi => ?_⟩
  · refine List.Pairwise.map _ ?_ ((h.sorted.filter _).imp_of_mem ?_)
      (R := fun a b => info s.heap a.ptr = some (a.key, a.value, a.level) ∧
        info s.heap b.ptr = some (b.key, b.value, b.level) ∧ a.key < b.key)
    · rintro a b ⟨ha, hb, hab⟩
      obtain ⟨x, hx, hxk, -⟩ := get_of_info ha
      obtain ⟨y, hy, hyk, -⟩ := get_of_info hb
      exact ⟨x, y, hx, hy, by rwa [hxk, hyk]⟩
    · intro a b ha hb hab
      exact ⟨h.items a (List.mem_of_mem_filter ha), h.items b (List.mem_of_mem_filter hb), hab⟩
  · constructor
    · intro hp
      obtain ⟨e, he, hi, rfl⟩ := mem_tower.mp hp
      obtain ⟨x, hx, -, -, hxl⟩ := get_of_info (h.items e he)
      refine ⟨?_, x, hx, by omega⟩
      intro heq
      exact h.fresh (heq ▸ List.mem_map_of_mem he)
    · rintro ⟨hne, x, hx, hi⟩
      have hsome : info s.heap p ≠ none := by
        rw [info, hx]
        simp
      rcases h.only p hsome with hp | hp
      · exact absurd hp hne
      · obtain ⟨e, he, rfl⟩ := List.mem_map.mp hp
        obtain ⟨y, hy, -, -, hlevel⟩ := get_of_info (h.items e he)
        cases hx.symm.trans hy
        exact mem_tower.mpr ⟨e, he, by omega, rfl⟩
  · exact tower_eq_nil fun e he => Nat.lt_of_le_of_lt (h.bound e he) hi

/-! ## Searches -/

/-- The last item below the key in level `i`. -/
def entry (s : SkipList K V) (pre : List (Item K V)) (i : Nat) : Nat :=
  (tower i pre).getLastD s.header

theorem Repr.entry_info (h : Repr s (pre ++ suf)) {i : Nat} (hi : i ≤ s.maxLevel) :
    ∃ k v l, info s.heap (s.entry pre i) = some (k, v, l) ∧ i ≤ l := by
  have hmem : s.entry pre i ∈ s.header :: tower i pre := Links.getLastD_mem
  rcases List.mem_cons.mp hmem with heq | hmem
  · obtain ⟨k, v, hheader⟩ := h.header
    rw [heq]
    exact ⟨k, v, s.maxLevel, hheader, hi⟩
  · obtain ⟨e, he, hle, hptr⟩ := mem_tower.mp hmem
    rw [← hptr]
    exact ⟨e.key, e.value, e.level, h.items e (List.mem_append_left suf he), hle⟩

/-- The links of a level, cut at the key. -/
theorem Repr.links_pre (h : Repr s (pre ++ suf)) {i : Nat} (hi : i ≤ s.maxLevel) :
    Links (fwd s.heap i) s.header (tower i pre) (tower i suf).head? := by
  have hlinks := h.links i hi
  rw [tower_append] at hlinks
  exact hlinks.take

theorem Repr.fwd_entry (h : Repr s (pre ++ suf)) {i : Nat} (hi : i ≤ s.maxLevel) :
    fwd s.heap i (s.entry pre i) = (tower i suf).head? :=
  (h.links_pre hi).last

/-- A level is followed up to the last node below the key. -/
theorem advance_spec {h : Heap (Node K V)} {i : Nat} {z : Option Nat}
    (hz : ∀ p, z = some p → ∃ k v l, info h p = some (k, v, l) ∧ ¬ k < key) :
    ∀ (ps : List Nat) (rounds current : Nat), Links (fwd h i) current ps z →
    (∃ k v l, info h current = some (k, v, l) ∧ i ≤ l) →
    (∀ p ∈ ps, ∃ k v l, info h p = some (k, v, l) ∧ k < key ∧ i ≤ l) → ps.length < rounds →
    advance h key i rounds current = some (ps.getLastD current) := by
  intro ps
  induction ps with
  | nil =>
      rintro rounds current hlinks ⟨k, v, l, hcur, hil⟩ _ hrounds
      obtain ⟨rounds, rfl⟩ : ∃ r, rounds = r + 1 := ⟨rounds - 1, by simp at hrounds; omega⟩
      have hnext : fwd h i current = z := hlinks
      rw [advance, readForward_of_info hcur hil, hnext, Option.bind_some]
      cases z with
      | none => rfl
      | some p =>
          obtain ⟨k', v', l', hp, hk'⟩ := hz p rfl
          obtain ⟨x, hx, rfl, -⟩ := get_of_info hp
          show (h.get p).bind _ = _
          rw [hx, Option.bind_some, if_neg hk']
          rfl
  | cons p ps ih =>
      rintro rounds current ⟨hnext, hlinks⟩ ⟨k, v, l, hcur, hil⟩ hbelow hrounds
      obtain ⟨rounds, rfl⟩ : ∃ r, rounds = r + 1 := ⟨rounds - 1, by simp at hrounds; omega⟩
      obtain ⟨k', v', l', hp, hk', hil'⟩ := hbelow p List.mem_cons_self
      obtain ⟨x, hx, rfl, -⟩ := get_of_info hp
      rw [advance, readForward_of_info hcur hil, hnext, Option.bind_some]
      show (h.get p).bind _ = _
      rw [hx, Option.bind_some, if_pos hk', List.getLastD_cons]
      exact ih rounds p hlinks ⟨_, _, _, hp, hil'⟩
        (fun r hr => hbelow r (List.mem_cons_of_mem p hr)) (by simpa using hrounds)

theorem Repr.advance (h : Repr s (pre ++ suf)) (hpre : ∀ e ∈ pre, e.key < key)
    (hsuf : ∀ e ∈ suf, ¬ e.key < key) {i : Nat} (hi : i ≤ s.maxLevel) :
    advance s.heap key i (s.elementCount + 1) (s.entry pre (i + 1)) = some (s.entry pre i) := by
  -- the search enters the level at one of its nodes
  have hmem : s.entry pre (i + 1) ∈ s.header :: tower i pre := by
    have hlast : s.entry pre (i + 1) ∈ s.header :: tower (i + 1) pre := Links.getLastD_mem
    rcases List.mem_cons.mp hlast with heq | hlast
    · rw [heq]
      exact List.mem_cons_self
    · exact List.mem_cons_of_mem _ (tower_mono_mem (Nat.le_succ i) hlast)
  obtain ⟨ps, hlinks, hlast, hsuffix⟩ := (h.links_pre hi).suffix hmem
  have hcurrent : ∃ k v l, info s.heap (s.entry pre (i + 1)) = some (k, v, l) ∧ i ≤ l := by
    rcases List.mem_cons.mp hmem with heq | hmem
    · obtain ⟨k, v, hheader⟩ := h.header
      rw [heq]
      exact ⟨k, v, _, hheader, hi⟩
    · obtain ⟨e, he, hle, hptr⟩ := mem_tower.mp hmem
      rw [← hptr]
      exact ⟨_, _, _, h.items e (List.mem_append_left suf he), hle⟩
  have hbelow : ∀ p ∈ ps, ∃ k v l, info s.heap p = some (k, v, l) ∧ k < key ∧ i ≤ l := by
    intro p hp
    obtain ⟨e, he, hle, hptr⟩ := mem_tower.mp (hsuffix.subset hp)
    rw [← hptr]
    exact ⟨_, _, _, h.items e (List.mem_append_left suf he), hpre e he, hle⟩
  have hlength : ps.length < s.elementCount + 1 := by
    have h₁ := hsuffix.length_le
    have h₂ := (tower_sublist (i := i) (c := pre)).length_le
    have h₃ := h.count
    rw [List.length_map] at h₂
    rw [List.length_append] at h₃
    omega
  have hend : ∀ p, (tower i suf).head? = some p →
      ∃ k v l, info s.heap p = some (k, v, l) ∧ ¬ k < key := by
    intro p hp
    obtain ⟨e, he, -, hptr⟩ := mem_tower.mp (List.mem_of_mem_head? hp)
    rw [← hptr]
    exact ⟨_, _, _, h.items e (List.mem_append_right pre he), hsuf e he⟩
  rw [advance_spec hend ps _ _ hlinks hcurrent hbelow hlength, hlast]
  rfl

theorem Repr.descend (h : Repr s (pre ++ suf)) (hpre : ∀ e ∈ pre, e.key < key)
    (hsuf : ∀ e ∈ suf, ¬ e.key < key) : ∀ (n : Nat) (update : Nat → Option Nat),
    n ≤ s.skipListLevel + 1 →
    s.descend key n (s.entry pre n) update =
      some (s.entry pre 0, fun i => if i < n then some (s.entry pre i) else update i) := by
  have hlevel := h.level
  intro n
  induction n with
  | zero =>
      intro update _
      rfl
  | succ n ih =>
      intro update hn
      rw [SkipList.descend, h.advance hpre hsuf (by omega), Option.bind_some, ih _ (by omega)]
      congr 2
      funext i
      by_cases hi : i < n
      · rw [if_pos hi, if_pos (by omega)]
      · rw [if_neg hi]
        by_cases hin : i = n
        · rw [hin, Function.update_self, if_pos (by omega)]
        · rw [Function.update_of_ne hin, if_neg (by omega)]

theorem Repr.locate (h : Repr s (pre ++ suf)) (hpre : ∀ e ∈ pre, e.key < key)
    (hsuf : ∀ e ∈ suf, ¬ e.key < key) :
    s.locate key = some (s.entry pre 0,
      fun i => if i < s.skipListLevel + 1 then some (s.entry pre i) else none) := by
  have htop : s.entry pre (s.skipListLevel + 1) = s.header := by
    rw [entry, tower_eq_nil]
    · rfl
    · intro e he
      have := h.bound e (List.mem_append_left suf he)
      omega
  have hdescend := h.descend hpre hsuf (s.skipListLevel + 1) (fun _ => none) (Nat.le_refl _)
  rw [htop] at hdescend
  exact hdescend

/-- What is found behind the last item below the key. -/
theorem Repr.matching (h : Repr s (pre ++ suf)) :
    s.matching key (s.entry pre 0) =
      some (suf.head?.bind fun e => if e.key = key then some e.ptr else none) := by
  obtain ⟨k, v, l, hinfo, -⟩ := h.entry_info (Nat.zero_le _)
  rw [SkipList.matching, readForward_of_info hinfo (Nat.zero_le _), h.fwd_entry (Nat.zero_le _),
    tower_zero, Option.bind_some]
  cases suf with
  | nil => rfl
  | cons e suf =>
      obtain ⟨x, hx, hxk, -⟩ :=
        get_of_info (h.items e (List.mem_append_right pre List.mem_cons_self))
      show (s.heap.get e.ptr).map _ = _
      rw [hx, Option.map_some, hxk]
      rfl

end SkipList

end Ccbase.Application

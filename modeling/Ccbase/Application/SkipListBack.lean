import Ccbase.Application.SkipListFault

/-!
# The way back in a `SkipList`

`insert_element` sets `prev` of the new node to the node in front of it. Of the node
behind it `prev` should be set to the new node, but it is the node in front whose
`prev` is set. So only what is inserted at the end leaves the backward links in order,
and no later insertion mends them: `display_list`, which goes back along them, then
leaves out keys or does not come to an end.
-/

namespace Ccbase.Application

open Ccbase.Lib

variable {K V : Type}

/-! ## `prev` in the heap -/

section Heap

variable {h h' : Heap (Node K V)} {p i : Nat} {q : Option Nat}

def prevOf (h : Heap (Node K V)) (p : Nat) : Option Nat := (h.get p).bind Node.prev

theorem prevOf_setForward (h : Heap (Node K V)) (p i : Nat) (q : Option Nat) :
    prevOf (setForward h p i q) = prevOf h := by
  funext r
  rw [prevOf, prevOf, setForward, Heap.get_modify]
  split
  · rename_i hr
    rw [hr, Option.bind_map]
    rfl
  · rfl

theorem prevOf_writeForward (hw : writeForward h p i q = some h') : prevOf h' = prevOf h := by
  obtain ⟨_, -, rfl⟩ := Option.map_eq_some_iff.mp hw
  exact prevOf_setForward h p i q

theorem prevOf_setPrev (hp : info h p ≠ none) (q : Option Nat) (r : Nat) :
    prevOf (setPrev h p q) r = if r = p then q else prevOf h r := by
  obtain ⟨i, hi⟩ := Option.ne_none_iff_exists'.mp hp
  obtain ⟨x, hx, -⟩ := Option.map_eq_some_iff.mp hi
  rw [prevOf, prevOf, setPrev, Heap.get_modify]
  split
  · rename_i hr
    rw [hx]
    rfl
  · rfl

theorem prevOf_new (h : Heap (Node K V)) (x : Node K V) (r : Nat) :
    prevOf (h.new x) r = if r = h.next then x.prev else prevOf h r := by
  rw [prevOf, prevOf, Heap.get_new]
  split <;> rfl

theorem info_writeForward (hw : writeForward h p i q = some h') : info h' = info h := by
  obtain ⟨_, -, rfl⟩ := Option.map_eq_some_iff.mp hw
  exact info_setForward h p i q

end Heap

namespace SkipList

variable [LinearOrder K]

variable {s s' : SkipList K V} {c pre suf : List (Item K V)} {key : K} {h h' : Heap (Node K V)}

omit [LinearOrder K] in
/-- In level 0 the new node gets its `prev`, and the node in front of it another one. -/
theorem prevOf_linkBottom {u n : Nat} (hlink : linkBottom h u n = some h')
    (hu : info h u ≠ none) (hn : info h n ≠ none) (r : Nat) :
    prevOf h' r = if r = n then some u
      else if r = u ∧ fwd h 0 u ≠ none then some n else prevOf h r := by
  obtain ⟨next, hnext, hlink⟩ := Option.bind_eq_some_iff.mp hlink
  obtain ⟨h₁, hw₁, hlink⟩ := Option.bind_eq_some_iff.mp hlink
  obtain ⟨h₂, hw₂, rfl⟩ := Option.map_eq_some_iff.mp hlink
  have hfwd : fwd h 0 u = next := by
    obtain ⟨x, hx, hread⟩ := Option.bind_eq_some_iff.mp hnext
    rw [if_pos (Nat.zero_le _)] at hread
    rw [fwd, hx]
    exact Option.some.inj hread
  have hinfo₁ := info_writeForward hw₁
  have hinfo₂ : info h₂ n ≠ none := by
    rw [info_writeForward hw₂]
    split
    · rw [hinfo₁]
      exact hn
    · rw [info_setPrev, hinfo₁]
      exact hn
  rw [prevOf_setPrev hinfo₂, prevOf_writeForward hw₂, hfwd]
  by_cases hr : r = n
  · rw [if_pos hr, if_pos hr]
  · rw [if_neg hr, if_neg hr]
    by_cases hnone : next = none
    · rw [if_pos hnone, if_neg (fun h => h.2 hnone), prevOf_writeForward hw₁]
    · rw [if_neg hnone, prevOf_setPrev (by rw [hinfo₁]; exact hu), prevOf_writeForward hw₁]
      simp only [hnone, not_false_eq_true, and_true, ne_eq]

omit [LinearOrder K] in
theorem prevOf_linkLevels {update : Nat → Option Nat} {n : Nat} : ∀ {l : Nat} {h'},
    linkLevels update n l h = some h' → prevOf h' = prevOf h := by
  intro l
  induction l with
  | zero =>
      intro h' hlink
      cases hlink
      rfl
  | succ l ih =>
      intro h' hlink
      obtain ⟨h₁, hlower, hlink⟩ := Option.bind_eq_some_iff.mp hlink
      obtain ⟨u, -, hlink⟩ := Option.bind_eq_some_iff.mp hlink
      obtain ⟨next, -, hlink⟩ := Option.bind_eq_some_iff.mp hlink
      obtain ⟨h₂, hw₁, hw₂⟩ := Option.bind_eq_some_iff.mp hlink
      rw [prevOf_writeForward hw₂, prevOf_writeForward hw₁, ih hlower]

/-- What a new item does to the backward links. -/
theorem insertElement_prev (hr : Repr s (pre ++ suf)) {value : V} {l : Nat}
    (hpre : ∀ e ∈ pre, e.key < key) (hsuf : ∀ e ∈ suf, key < e.key)
    (hinsert : s.insertElement key value l = some (0, s')) :
    s'.header = s.header ∧ ∀ r, prevOf s'.heap r =
      if r = s.heap.next then some (s.entry pre 0)
      else if r = s.entry pre 0 ∧ suf ≠ [] then some s.heap.next else prevOf s.heap r := by
  have hnotlt : ∀ e ∈ suf, ¬ e.key < key := fun e he => lt_asymm (hsuf e he)
  rw [insertElement, hr.locate hpre hnotlt, Option.bind_some] at hinsert
  obtain ⟨found, -, hinsert⟩ := Option.bind_eq_some_iff.mp hinsert
  cases found with
  | some p => cases hinsert
  | none =>
      obtain ⟨u, hu, hinsert⟩ := Option.bind_eq_some_iff.mp hinsert
      obtain ⟨h₁, hbottom, hinsert⟩ := Option.bind_eq_some_iff.mp hinsert
      obtain ⟨h₂, hlevels, hinsert⟩ := Option.map_eq_some_iff.mp hinsert
      cases hinsert
      obtain rfl : s.entry pre 0 = u := by
        dsimp only at hu
        rw [if_neg (by omega), if_pos (Nat.succ_pos _)] at hu
        exact Option.some.inj hu
      obtain ⟨k, v, lu, hentry, -⟩ := hr.entry_info (Nat.zero_le _)
      have hne := ne_next_of_info hentry
      refine ⟨rfl, fun r => ?_⟩
      show prevOf h₂ r = _
      rw [prevOf_linkLevels hlevels, prevOf_linkBottom hbottom
        (by rw [info_new, if_neg hne, hentry]; exact Option.some_ne_none _)
        (by rw [info_new, if_pos rfl]; exact Option.some_ne_none _),
        fwd_new_of_ne _ _ _ hne, hr.fwd_entry (Nat.zero_le _), tower_zero, prevOf_new]
      by_cases hrn : r = s.heap.next
      · rw [if_pos hrn, if_pos hrn]
      · rw [if_neg hrn, if_neg hrn, if_neg hrn]
        cases suf with
        | nil => simp
        | cons e suf => simp

/-! ## The chain backwards -/

/-- `prev` of each node is the one in front of it in level 0, of the first the header. -/
def BackLinked (s : SkipList K V) : Prop :=
  ∀ ps, Links (fwd s.heap 0) s.header ps none → BackLinks (prevOf s.heap) s.header ps

/-- `prev` of a node, if set, is a node of the list or the header. -/
def Inner (s : SkipList K V) (c : List (Item K V)) : Prop :=
  ∀ r q, prevOf s.heap r = some q → q ∈ s.header :: c.map Item.ptr

theorem Repr.links_zero (hr : Repr s c) :
    Links (fwd s.heap 0) s.header (c.map Item.ptr) none := by
  have hlinks := hr.links 0 (Nat.zero_le _)
  rw [tower_zero] at hlinks
  exact hlinks

theorem Repr.backLinked_iff (hr : Repr s c) :
    s.BackLinked ↔ BackLinks (prevOf s.heap) s.header (c.map Item.ptr) := by
  refine ⟨fun h => h _ hr.links_zero, fun h ps hps => ?_⟩
  rw [hps.unique hr.links_zero]
  exact h

theorem Repr.ne_next (hr : Repr s c) {p : Nat} (hp : p ∈ s.header :: c.map Item.ptr) :
    p ≠ s.heap.next := by
  rcases List.mem_cons.mp hp with rfl | hp
  · obtain ⟨k, v, hheader⟩ := hr.header
    exact ne_next_of_info hheader
  · obtain ⟨e, he, rfl⟩ := List.mem_map.mp hp
    exact ne_next_of_info (hr.items e he)

omit [LinearOrder K] in
theorem entry_mem (s : SkipList K V) (pre suf : List (Item K V)) :
    s.entry pre 0 ∈ s.header :: (pre ++ suf).map Item.ptr := by
  have hmem : s.entry pre 0 ∈ s.header :: tower 0 pre := Links.getLastD_mem
  rw [tower_zero] at hmem
  rw [List.map_append]
  exact List.mem_cons.mpr ((List.mem_cons.mp hmem).imp_right (List.mem_append_left _))

/-- After an insertion the links are in order exactly if they were and the item is the last. -/
theorem backLinked_insert {e : Item K V} (hr : Repr s (pre ++ suf))
    (hr' : Repr s' (pre ++ e :: suf)) (hinner : Inner s (pre ++ suf)) (he : e.ptr = s.heap.next)
    (hheader : s'.header = s.header)
    (hprev : ∀ r, prevOf s'.heap r = if r = s.heap.next then some (s.entry pre 0)
      else if r = s.entry pre 0 ∧ suf ≠ [] then some s.heap.next else prevOf s.heap r) :
    s'.BackLinked ↔ s.BackLinked ∧ suf = [] := by
  have hold : ∀ {p : Nat}, p ∈ s.header :: (pre ++ suf).map Item.ptr → p ≠ s.heap.next :=
    hr.ne_next
  have hentry : (pre.map Item.ptr).getLastD s.header = s.entry pre 0 := by
    rw [entry, tower_zero]
  rw [hr.backLinked_iff, hr'.backLinked_iff, hheader, List.map_append, List.map_cons,
    BackLinks.append_iff, hentry, he]
  cases suf with
  | nil =>
      have hsame : ∀ p ∈ pre.map Item.ptr, prevOf s'.heap p = prevOf s.heap p := by
        intro p hp
        have hne : p ≠ s.heap.next := hold (by simpa using Or.inr hp)
        rw [hprev, if_neg hne, if_neg (fun h => h.2 rfl)]
      rw [List.append_nil]
      constructor
      · rintro ⟨hpre, -⟩
        exact ⟨hpre.congr fun p hp => (hsame p hp).symm, rfl⟩
      · rintro ⟨hpre, -⟩
        refine ⟨hpre.congr hsame, ?_, trivial⟩
        rw [hprev, if_pos rfl]
  | cons w suf =>
      refine iff_of_false ?_ (fun h => (List.cons_ne_nil _ _) h.2)
      rintro ⟨-, -, hw, -⟩
      -- the node behind the new one keeps its `prev`
      have hwmem : w.ptr ∈ s.header :: (pre ++ w :: suf).map Item.ptr := by simp
      have hwentry : w.ptr ≠ s.entry pre 0 := by
        intro heq
        have hmem : s.entry pre 0 ∈ s.header :: pre.map Item.ptr := by
          rw [← hentry]
          exact Links.getLastD_mem
        have hnodup : (s.header :: (pre ++ w :: suf).map Item.ptr).Nodup :=
          List.nodup_cons.mpr ⟨hr.fresh, hr.nodup⟩
        rw [List.map_append, List.map_cons, ← List.cons_append] at hnodup
        exact (List.nodup_append.mp hnodup).2.2 _ hmem _ List.mem_cons_self heq.symm
      rw [hprev, if_neg (hold hwmem), if_neg (fun h => hwentry h.1)] at hw
      exact hold (hinner _ _ hw) rfl

omit [LinearOrder K] in
theorem inner_insert {e : Item K V} (hinner : Inner s (pre ++ suf))
    (he : e.ptr = s.heap.next) (hheader : s'.header = s.header)
    (hprev : ∀ r, prevOf s'.heap r = if r = s.heap.next then some (s.entry pre 0)
      else if r = s.entry pre 0 ∧ suf ≠ [] then some s.heap.next else prevOf s.heap r) :
    Inner s' (pre ++ e :: suf) := by
  have hmono : ∀ {q : Nat}, q ∈ s.header :: (pre ++ suf).map Item.ptr →
      q ∈ s'.header :: (pre ++ e :: suf).map Item.ptr := by
    intro q hq
    rw [hheader]
    simp only [List.mem_cons, List.map_append, List.map_cons, List.mem_append] at hq ⊢
    rcases hq with hq | hq | hq
    · exact .inl hq
    · exact .inr (.inl hq)
    · exact .inr (.inr (.inr hq))
  intro r q hq
  rw [hprev] at hq
  split at hq
  · obtain rfl := Option.some.inj hq
    exact hmono (s.entry_mem pre suf)
  · split at hq
    · obtain rfl := Option.some.inj hq
      rw [← he]
      simp
    · exact hmono (hinner r q hq)

/-- What is inserted belongs at the end, or there already is an item with the key. -/
def Appends (s : SkipList K V) : Op K V → Prop
  | .insert key _ _ => s.Stored key ∨ ∀ k, s.Stored k → k < key
  | _ => True

/-- The call is an insertion. -/
def Inserts : Op K V → Prop
  | .insert _ _ _ => True
  | _ => False

/-- An insertion keeps the backward links in order exactly if it appends. -/
theorem Step.backLinked_iff {l : Op K V × Outcome V} (hr : Repr s c) (hinner : Inner s c)
    (hs : Step s l s') (hallowed : s.Allowed l.1) (hinserts : Inserts l.1) :
    (∃ c', Repr s' c' ∧ Inner s' c') ∧ (s'.BackLinked ↔ s.BackLinked ∧ s.Appends l.1) := by
  obtain ⟨op, out⟩ := l
  have hexec : s.exec op = some (out, s') := hs
  cases op with
  | delete key => exact hinserts.elim
  | search key => exact hinserts.elim
  | size => exact hinserts.elim
  | insert key value l =>
      rcases split_cases key hr.sorted with
        ⟨pre, suf, rfl, hpre, hsuf⟩ | ⟨pre, e, suf, rfl, rfl, hpre, hsuf⟩
      · obtain ⟨s₁, hinsert, -, hr'⟩ := insertElement_new hr value hallowed hpre hsuf
        rw [exec, hinsert] at hexec
        cases hexec
        obtain ⟨hheader, hprev⟩ := insertElement_prev hr hpre hsuf hinsert
        refine ⟨⟨_, hr', inner_insert hinner rfl hheader hprev⟩, ?_⟩
        rw [backLinked_insert hr hr' hinner rfl hheader hprev]
        refine and_congr_right fun _ => ⟨?_, fun happends => ?_⟩
        · rintro rfl
          refine .inr fun k hk => ?_
          obtain ⟨a, ha, rfl⟩ := hr.stored_iff.mp hk
          exact hpre a (by simpa using ha)
        · cases suf with
          | nil => rfl
          | cons w suf =>
              have hw : w ∈ pre ++ w :: suf := List.mem_append_right pre List.mem_cons_self
              rcases happends with hstored | hall
              · obtain ⟨a, ha, hkey⟩ := hr.stored_iff.mp hstored
                rcases List.mem_append.mp ha with ha | ha
                · exact absurd hkey (hpre a ha).ne
                · exact absurd hkey.symm (hsuf a ha).ne
              · have hlt := hall w.key (hr.stored_iff.mpr ⟨w, hw, rfl⟩)
                exact absurd hlt (lt_asymm (hsuf w List.mem_cons_self))
      · rw [exec, insertElement_present hr hpre hsuf] at hexec
        cases hexec
        have hstored : s.Stored e.key :=
          hr.stored_iff.mpr ⟨e, List.mem_append_right pre List.mem_cons_self, rfl⟩
        exact ⟨⟨_, hr, hinner⟩, (and_iff_left (Or.inl hstored)).symm⟩

/-! ## `display_list` -/

/-- The last node of level 0. -/
def lastNode (h : Heap (Node K V)) : Nat → Nat → Option Nat
  | 0, _ => none
  | rounds + 1, node =>
      (readForward h node 0).bind fun next =>
        match next with
        | none => some node
        | some p => lastNode h rounds p

/-- The keys from a node back to the header. -/
def walkBack (h : Heap (Node K V)) (header : Nat) : Nat → Nat → Option (List K)
  | 0, _ => none
  | rounds + 1, node =>
      if node = header then some []
      else
        (h.get node).bind fun x =>
          x.prev.bind fun p => (walkBack h header rounds p).map fun keys => x.key :: keys

/-- The last line of `display_list`; `none` if a pointer on the way is null, or the header is
not reached within as many steps as there are elements. -/
def displayBackward (s : SkipList K V) : Option (List K) :=
  (readForward s.heap s.header 0).bind fun node =>
    node.bind fun node =>
      (lastNode s.heap (s.elementCount + 1) node).bind fun node =>
        walkBack s.heap s.header (s.elementCount + 1) node

/-- The way back has every key once, in descending order. -/
def WalksBack (s : SkipList K V) : Prop :=
  ∃ keys, s.displayBackward = some keys ∧ keys.Pairwise (fun a b => b < a) ∧
    ∀ k, k ∈ keys ↔ s.Stored k

omit [LinearOrder K] in
theorem lastNode_eq (hitems : ∀ e ∈ c, info h e.ptr = some (e.key, e.value, e.level)) :
    ∀ {rounds p : Nat} {k : K} {v : V} {l : Nat}, info h p = some (k, v, l) →
    Links (fwd h 0) p (c.map Item.ptr) none → c.length < rounds →
    lastNode h rounds p = some ((c.map Item.ptr).getLastD p) := by
  induction c with
  | nil =>
      intro rounds p k v l hp hlinks hrounds
      obtain ⟨rounds, rfl⟩ : ∃ r, rounds = r + 1 := ⟨rounds - 1, by simp at hrounds; omega⟩
      have hnone : fwd h 0 p = none := hlinks
      rw [lastNode, readForward_of_info hp (Nat.zero_le _), hnone]
      rfl
  | cons e c ih =>
      intro rounds p k v l hp hlinks hrounds
      obtain ⟨rounds, rfl⟩ : ∃ r, rounds = r + 1 := ⟨rounds - 1, by simp at hrounds; omega⟩
      obtain ⟨hnext, hrest⟩ := hlinks
      rw [lastNode, readForward_of_info hp (Nat.zero_le _), hnext, Option.bind_some,
        List.map_cons, List.getLastD_cons]
      exact ih (fun a ha => hitems a (List.mem_cons_of_mem e ha)) (hitems e List.mem_cons_self)
        hrest (by simpa using hrounds)

omit [LinearOrder K] in
theorem walkBack_eq {header : Nat} : ∀ {c : List (Item K V)} {rounds : Nat},
    (∀ e ∈ c, info h e.ptr = some (e.key, e.value, e.level)) → (header ∉ c.map Item.ptr) →
    BackLinks (prevOf h) header (c.map Item.ptr) → c.length < rounds →
    walkBack h header rounds ((c.map Item.ptr).getLastD header) =
      some ((c.map Item.key).reverse) := by
  intro c
  induction c using List.reverseRecOn with
  | nil =>
      intro rounds _ _ _ hrounds
      obtain ⟨rounds, rfl⟩ : ∃ r, rounds = r + 1 := ⟨rounds - 1, by simp at hrounds; omega⟩
      exact if_pos rfl
  | append_singleton c e ih =>
      intro rounds hitems hfresh hback hrounds
      obtain ⟨rounds, rfl⟩ : ∃ r, rounds = r + 1 := ⟨rounds - 1, by simp at hrounds; omega⟩
      rw [List.map_append, List.map_singleton] at hfresh hback ⊢
      obtain ⟨hrest, hprev, -⟩ := BackLinks.append_iff.mp hback
      rw [List.mem_append, not_or] at hfresh
      have hne : e.ptr ≠ header := fun heq => hfresh.2 (by simp [heq])
      have hinfo := hitems e (List.mem_append_right c (List.mem_singleton.mpr rfl))
      obtain ⟨x, hx, hxk, -⟩ := get_of_info hinfo
      rw [prevOf, hx, Option.bind_some] at hprev
      have hlength : c.length < rounds := by simpa using hrounds
      have hwalk := ih (fun a ha => hitems a (List.mem_append_left [e] ha)) hfresh.1 hrest hlength
      rw [List.getLastD_concat, walkBack, if_neg hne, hx, Option.bind_some, hprev,
        Option.bind_some, hwalk, Option.map_some, hxk]
      simp

theorem Repr.walksBack (hr : Repr s c) (hback : s.BackLinked) (hne : s.elementCount ≠ 0) :
    s.WalksBack := by
  have hlinks := hr.links_zero
  refine ⟨(c.map Item.key).reverse, ?_, ?_, fun k => ?_⟩
  · obtain ⟨k, v, hheader⟩ := hr.header
    have hlength : c.length < s.elementCount + 1 := by
      rw [hr.count]
      omega
    have hwalk := walkBack_eq hr.items hr.fresh (hr.backLinked_iff.mp hback) hlength
    rw [displayBackward, readForward_of_info hheader (Nat.zero_le _), Option.bind_some]
    cases c with
    | nil => exact absurd hr.count hne
    | cons e c =>
        obtain ⟨hfirst, hrest⟩ := hlinks
        have hlast := lastNode_eq (fun a ha => hr.items a (List.mem_cons_of_mem e ha))
          (hr.items e List.mem_cons_self) hrest ((Nat.lt_succ_self _).trans hlength)
        rw [List.map_cons, List.getLastD_cons] at hwalk
        rw [hfirst, Option.bind_some, hlast, Option.bind_some]
        exact hwalk
  · rw [List.pairwise_reverse]
    exact List.Pairwise.map Item.key (fun _ _ h => h) hr.sorted
  · rw [List.mem_reverse, List.mem_map, hr.stored_iff]

/-- The backward links are in order, and the way back is complete, exactly after the runs in
which every new key is put at the end. -/
theorem insert_backward_iff {maxLevel : Nat} {k : K} {v : V} {ls : List (Op K V × Outcome V)}
    {s : SkipList K V}
    (h : Run (fun s l s' => Step s l s' ∧ s.Allowed l.1 ∧ Inserts l.1) (new maxLevel k v) ls s) :
    (s.BackLinked ∧ (s.elementCount ≠ 0 → s.WalksBack)) ↔
      Run (fun s l s' => (Step s l s' ∧ s.Allowed l.1 ∧ Inserts l.1) ∧ s.Appends l.1)
        (new maxLevel k v) ls s := by
  have hnew := (new_spec maxLevel k v).1
  have hinner : Inner (new maxLevel k v) [] := by
    intro r q hq
    have hnone : prevOf (new maxLevel k v).heap r = none := by
      show prevOf (Heap.empty.new ⟨k, v, maxLevel, fun _ => none, none⟩) r = none
      rw [prevOf_new]
      split <;> rfl
    rw [hnone] at hq
    cases hq
  obtain ⟨⟨c, hr, -⟩, hruns⟩ := h.kept_iff (I := fun s => ∃ c, Repr s c ∧ Inner s c)
    (P := BackLinked) (G := fun s l => s.Appends l.1) (fun _ _ _ _ h₁ h₂ => h₁.1.det h₂.1)
    ⟨[], hnew, hinner⟩ (hnew.backLinked_iff.mpr trivial)
    fun _ _ _ ⟨_, hr, hinner⟩ ⟨hs, hallowed, hins⟩ => hs.backLinked_iff hr hinner hallowed hins
  rw [← hruns]
  exact ⟨fun h => h.1, fun hback => ⟨hback, fun hne => hr.walksBack hback hne⟩⟩

instance decidableInserts (op : Op K V) : Decidable (Inserts op) :=
  match op with
  | .insert _ _ _ => .isTrue trivial
  | .delete _ => .isFalse id
  | .search _ => .isFalse id
  | .size => .isFalse id

/-- Two keys in ascending order. -/
theorem insert_backward_iff_ascending : ∃ s : SkipList Nat Nat,
    Run (fun s l s' => Step s l s' ∧ s.Allowed l.1 ∧ Inserts l.1) (new 3 0 0)
      [(.insert 5 50 1, .inserted 0), (.insert 8 80 2, .inserted 0)] s ∧
    ((s.BackLinked ∧ (s.elementCount ≠ 0 → s.WalksBack)) ↔
      Run (fun s l s' => (Step s l s' ∧ s.Allowed l.1 ∧ Inserts l.1) ∧ s.Appends l.1) (new 3 0 0)
        [(.insert 5 50 1, .inserted 0), (.insert 8 80 2, .inserted 0)] s) := by
  have hexec : (Run.exec stepFn (fun s l => s.Allowed l.1 ∧ Inserts l.1) (new 3 0 0)
      [(.insert 5 50 1, .inserted 0), (.insert 8 (80 : Nat) 2, .inserted 0)]).any
        fun s : SkipList Nat Nat => decide (s.displayBackward = some [8, 5]) := by decide +kernel
  obtain ⟨s, hs, -⟩ := (Option.any_eq_true _ _).mp hexec
  have hrun : Run (fun s l s' => Step s l s' ∧ s.Allowed l.1 ∧ Inserts l.1) (new 3 0 0) _ s :=
    (Run.of_exec hs).imp fun _ _ _ h => ⟨step_of_stepFn h.1, h.2⟩
  exact ⟨s, hrun, insert_backward_iff hrun⟩

/-- A key is inserted in front of another: the way back is without it. -/
theorem front_insert_skipped : ∃ s : SkipList Nat Nat,
    Run (fun s l s' => Step s l s' ∧ s.Allowed l.1 ∧ Inserts l.1) (new 3 0 0)
      [(.insert 2 20 0, .inserted 0), (.insert 1 10 0, .inserted 0)] s ∧
    s.Stored 1 ∧ s.displayBackward = some [2] ∧ ¬ s.BackLinked ∧ ¬ s.WalksBack := by
  have hexec : (Run.exec stepFn (fun s l => s.Allowed l.1 ∧ Inserts l.1) (new 3 0 0)
      [(.insert 2 20 0, .inserted 0), (.insert 1 (10 : Nat) 0, .inserted 0)]).any
        fun s : SkipList Nat Nat => decide (s.displayBackward = some [2] ∧ s.header = 0 ∧
          fwd s.heap 0 0 = some 2 ∧ fwd s.heap 0 2 = some 1 ∧ fwd s.heap 0 1 = none ∧
          prevOf s.heap 1 = some 0 ∧ (s.heap.get 2).map Node.key = some 1) := by decide +kernel
  obtain ⟨s, hs, hfacts⟩ := (Option.any_eq_true _ _).mp hexec
  obtain ⟨hback, hheader, h0, h2, h1, hprev, hkey⟩ := of_decide_eq_true hfacts
  have hstored : s.Stored 1 := by
    obtain ⟨x, hx, hxk⟩ := Option.map_eq_some_iff.mp hkey
    exact ⟨2, x, by rw [hheader]; decide, hx, hxk⟩
  refine ⟨s, (Run.of_exec hs).imp fun _ _ _ h => ⟨step_of_stepFn h.1, h.2⟩, hstored, hback, ?_, ?_⟩
  · intro hlinked
    have hchain : Links (fwd s.heap 0) s.header [2, 1] none := by
      rw [hheader]
      exact ⟨h0, h2, h1⟩
    obtain ⟨-, hsecond, -⟩ := hlinked [2, 1] hchain
    rw [hprev] at hsecond
    cases hsecond
  · rintro ⟨keys, hkeys, -, hall⟩
    rw [hback] at hkeys
    cases hkeys
    have hmem := (hall 1).mpr hstored
    simp at hmem

end SkipList

end Ccbase.Application

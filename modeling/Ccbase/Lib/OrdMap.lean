import Mathlib.Order.Defs.LinearOrder
import Mathlib.Order.Basic
import Mathlib.Data.List.Basic
import Mathlib.Algebra.Order.Ring.Nat
import Mathlib.Data.List.Perm.Subperm

/-!
# `std::map` as a strictly sorted association list

The list of entries is the iteration order of the container, and it carries
the proof that its keys increase. `floor?` is the idiom of the code for "the
entry that starts at or before `k`": decrement `upper_bound(k)` unless it is
`begin()`.
-/

namespace Ccbase.Lib

structure OrdMap (κ ν : Type) [LinearOrder κ] where
  entries : List (κ × ν)
  sorted : entries.Pairwise fun a b => a.1 < b.1

namespace OrdMap

variable {κ ν : Type} [LinearOrder κ]

def empty : OrdMap κ ν := ⟨[], List.Pairwise.nil⟩

/-- `find`: the value stored under `k`. -/
def find? (m : OrdMap κ ν) (k : κ) : Option ν :=
  (m.entries.find? fun e => decide (e.1 = k)).map Prod.snd

/-- The last entry whose key is at most `k`. -/
def floor? (m : OrdMap κ ν) (k : κ) : Option (κ × ν) :=
  (m.entries.takeWhile fun e => decide (e.1 ≤ k)).getLast?

/-- `upper_bound(k)`: the first entry whose key is above `k`. -/
def upper? (m : OrdMap κ ν) (k : κ) : Option (κ × ν) :=
  m.entries.find? fun e => decide (k < e.1)

/-- The last entry whose key is below `k`: the one before the iterator of `k`. -/
def below? (m : OrdMap κ ν) (k : κ) : Option (κ × ν) :=
  (m.entries.takeWhile fun e => decide (e.1 < k)).getLast?

/-- The entries from `lower_bound(k)` to the end. -/
def from_ (m : OrdMap κ ν) (k : κ) : List (κ × ν) :=
  m.entries.dropWhile fun e => decide (e.1 < k)

def insertList (k : κ) (v : ν) : List (κ × ν) → List (κ × ν)
  | [] => [(k, v)]
  | e :: es =>
      if k < e.1 then (k, v) :: e :: es
      else if e.1 < k then e :: insertList k v es
      else (k, v) :: es

theorem mem_insertList {k : κ} {v : ν} {e : κ × ν} {es : List (κ × ν)}
    (h : e ∈ insertList k v es) : e = (k, v) ∨ e ∈ es := by
  induction es with
  | nil => simpa [insertList] using h
  | cons d ds ih =>
      simp only [insertList] at h
      split at h
      · simpa using h
      · split at h
        · rcases List.mem_cons.mp h with rfl | h
          · exact .inr (by simp)
          · exact (ih h).imp id (List.mem_cons_of_mem d)
        · rcases List.mem_cons.mp h with rfl | h
          · exact .inl rfl
          · exact .inr (by simp [h])

theorem sorted_insertList {k : κ} {v : ν} {es : List (κ × ν)}
    (h : es.Pairwise fun a b => a.1 < b.1) :
    (insertList k v es).Pairwise fun a b => a.1 < b.1 := by
  induction es with
  | nil => simp [insertList]
  | cons d ds ih =>
      obtain ⟨hd, hds⟩ := List.pairwise_cons.mp h
      simp only [insertList]
      split
      · rename_i hkd
        refine List.pairwise_cons.mpr ⟨fun e he => ?_, h⟩
        rcases List.mem_cons.mp he with rfl | he
        · exact hkd
        · exact hkd.trans (hd e he)
      · split
        · rename_i hdk
          refine List.pairwise_cons.mpr ⟨fun e he => ?_, ih hds⟩
          rcases mem_insertList he with rfl | he
          · exact hdk
          · exact hd e he
        · rename_i h1 h2
          have hk : k = d.1 := le_antisymm (not_lt.mp h2) (not_lt.mp h1)
          exact List.pairwise_cons.mpr ⟨fun e he => hk ▸ hd e he, hds⟩

/-- `m[k] = v`. -/
def insert (m : OrdMap κ ν) (k : κ) (v : ν) : OrdMap κ ν :=
  ⟨insertList k v m.entries, sorted_insertList m.sorted⟩

/-- `emplace`: no effect on a key that is present. -/
def emplace (m : OrdMap κ ν) (k : κ) (v : ν) : OrdMap κ ν :=
  if (m.find? k).isSome then m else m.insert k v

def erase (m : OrdMap κ ν) (k : κ) : OrdMap κ ν :=
  ⟨m.entries.filter fun e => decide (e.1 ≠ k), m.sorted.filter _⟩

/-- A write through the iterator of key `k`. -/
def modify (m : OrdMap κ ν) (k : κ) (f : ν → ν) : OrdMap κ ν where
  entries := m.entries.map fun e => if e.1 = k then (e.1, f e.2) else e
  sorted := by
    rw [List.pairwise_map]
    refine m.sorted.imp fun {a b} hab => ?_
    split <;> split <;> exact hab

/-! ## Lookups -/

theorem find?_eq_some_iff {m : OrdMap κ ν} {k : κ} {v : ν} :
    m.find? k = some v ↔ (k, v) ∈ m.entries := by
  obtain ⟨es, hs⟩ := m
  simp only [find?]
  induction es with
  | nil => simp
  | cons d ds ih =>
      obtain ⟨hd, hds⟩ := List.pairwise_cons.mp hs
      rw [List.find?_cons]
      by_cases hdk : d.1 = k
      · have hnot : (k, v) ∉ ds := by
          intro hmem
          have := hd _ hmem
          rw [hdk] at this
          exact lt_irrefl _ this
        simp only [hdk, decide_true, Option.map_some, Option.some.injEq,
          List.mem_cons, hnot, or_false]
        constructor
        · rintro rfl
          exact Prod.ext hdk.symm rfl
        · intro h
          rw [← h]
      · have hne : ¬ ((k, v) = d) := fun h => hdk (by rw [← h])
        simp only [hdk, decide_false, List.mem_cons, hne, false_or]
        exact ih hds

theorem find?_eq_none_iff {m : OrdMap κ ν} {k : κ} :
    m.find? k = none ↔ ∀ v, (k, v) ∉ m.entries := by
  constructor
  · intro h v hv
    rw [find?_eq_some_iff.mpr hv] at h
    cases h
  · intro h
    cases hf : m.find? k with
    | none => rfl
    | some v => exact absurd (find?_eq_some_iff.mp hf) (h v)

@[simp] theorem find?_empty (k : κ) : (empty : OrdMap κ ν).find? k = none := rfl

theorem mem_insertList_iff {k : κ} {v : ν} {e : κ × ν} {es : List (κ × ν)}
    (hs : es.Pairwise fun a b => a.1 < b.1) :
    e ∈ insertList k v es ↔ e = (k, v) ∨ (e ∈ es ∧ e.1 ≠ k) := by
  induction es with
  | nil => simp [insertList]
  | cons d ds ih =>
      obtain ⟨hd, hds⟩ := List.pairwise_cons.mp hs
      simp only [insertList]
      split
      · rename_i hkd
        have hne : ∀ e ∈ d :: ds, e.1 ≠ k := by
          intro e he
          rcases List.mem_cons.mp he with rfl | he
          · exact hkd.ne'
          · exact (hkd.trans (hd e he)).ne'
        rw [List.mem_cons]
        exact ⟨fun h => h.imp id fun h => ⟨h, hne e h⟩, fun h => h.imp id And.left⟩
      · split
        · rename_i hdk
          rw [List.mem_cons, List.mem_cons, ih hds]
          constructor
          · rintro (rfl | h | h)
            · exact .inr ⟨.inl rfl, hdk.ne⟩
            · exact .inl h
            · exact .inr ⟨.inr h.1, h.2⟩
          · rintro (h | ⟨rfl | h, hk⟩)
            · exact .inr (.inl h)
            · exact .inl rfl
            · exact .inr (.inr ⟨h, hk⟩)
        · rename_i h1 h2
          have hk : k = d.1 := le_antisymm (not_lt.mp h2) (not_lt.mp h1)
          rw [List.mem_cons, List.mem_cons]
          constructor
          · rintro (h | h)
            · exact .inl h
            · exact .inr ⟨.inr h, fun he => (hk ▸ hd e h).ne' he⟩
          · rintro (h | ⟨rfl | h, hne⟩)
            · exact .inl h
            · exact absurd hk.symm hne
            · exact .inr h

theorem find?_insert (m : OrdMap κ ν) (k k' : κ) (v : ν) :
    (m.insert k v).find? k' = if k' = k then some v else m.find? k' := by
  split
  · rename_i h
    subst h
    exact find?_eq_some_iff.mpr ((mem_insertList_iff m.sorted).mpr (.inl rfl))
  · rename_i h
    cases hf : m.find? k' with
    | some w =>
        have := find?_eq_some_iff.mp hf
        exact find?_eq_some_iff.mpr ((mem_insertList_iff m.sorted).mpr (.inr ⟨this, h⟩))
    | none =>
        rw [find?_eq_none_iff] at hf ⊢
        intro w hw
        rcases (mem_insertList_iff m.sorted).mp hw with heq | ⟨hm, _⟩
        · exact h (congrArg Prod.fst heq)
        · exact hf w hm

theorem find?_emplace (m : OrdMap κ ν) (k k' : κ) (v : ν) :
    (m.emplace k v).find? k' = (m.find? k').or (if k' = k then some v else none) := by
  rw [emplace]
  split
  · rename_i hsome
    by_cases hk : k' = k
    · obtain ⟨w, hw⟩ := Option.isSome_iff_exists.mp hsome
      rw [hk, hw]
      rfl
    · rw [if_neg hk, Option.or_none]
  · rename_i hnone
    rw [find?_insert]
    by_cases hk : k' = k
    · rw [if_pos hk, if_pos hk, hk, Option.not_isSome_iff_eq_none.mp hnone]
      rfl
    · rw [if_neg hk, if_neg hk, Option.or_none]

theorem find?_emplace_of_none {m : OrdMap κ ν} {k : κ} (v : ν) (h : m.find? k = none)
    (k' : κ) : (m.emplace k v).find? k' = if k' = k then some v else m.find? k' := by
  simp only [emplace, h, Option.isSome_none, Bool.false_eq_true, if_false]
  exact m.find?_insert k k' v

theorem find?_erase (m : OrdMap κ ν) (k k' : κ) :
    (m.erase k).find? k' = if k' = k then none else m.find? k' := by
  split
  · rename_i h
    subst h
    refine find?_eq_none_iff.mpr fun v hv => ?_
    simpa using (List.mem_filter.mp hv).2
  · rename_i h
    cases hf : m.find? k' with
    | some w =>
        have hm := find?_eq_some_iff.mp hf
        exact find?_eq_some_iff.mpr (List.mem_filter.mpr ⟨hm, by simpa using h⟩)
    | none =>
        rw [find?_eq_none_iff] at hf ⊢
        exact fun w hw => hf w (List.mem_filter.mp hw).1

theorem find?_modify (m : OrdMap κ ν) (k k' : κ) (f : ν → ν) :
    (m.modify k f).find? k' = if k' = k then (m.find? k).map f else m.find? k' := by
  obtain ⟨es, hs⟩ := m
  simp only [find?, modify]
  induction es with
  | nil => simp
  | cons d ds ih =>
      have ih := ih (List.pairwise_cons.mp hs).2
      simp only [List.map_cons, List.find?_cons]
      by_cases hdk : d.1 = k
      · by_cases hk : k' = k
        · subst hk
          simp [hdk]
        · have hdk' : ¬ d.1 = k' := fun h => hk (h.symm.trans hdk)
          have hkk : ¬ k = k' := fun h => hk h.symm
          simpa [hdk, hkk, hk] using ih
      · by_cases hdk' : d.1 = k'
        · have hk : ¬ k' = k := fun h => hdk (hdk'.trans h)
          simp [hdk', hk]
        · by_cases hk : k' = k
          · subst hk
            simpa [hdk] using ih
          · simpa [hdk, hdk', hk] using ih

@[simp] theorem keys_modify (m : OrdMap κ ν) (k : κ) (f : ν → ν) :
    (m.modify k f).entries.map Prod.fst = m.entries.map Prod.fst := by
  simp only [modify, List.map_map]
  apply List.map_congr_left
  intro e _
  simp only [Function.comp]
  split <;> rfl

theorem mem_keys_iff {m : OrdMap κ ν} {k : κ} :
    k ∈ m.entries.map Prod.fst ↔ (m.find? k).isSome := by
  rw [Option.isSome_iff_exists]
  constructor
  · intro h
    obtain ⟨⟨k', v⟩, he, rfl⟩ := List.mem_map.mp h
    exact ⟨v, find?_eq_some_iff.mpr he⟩
  · rintro ⟨v, hv⟩
    exact List.mem_map.mpr ⟨(k, v), find?_eq_some_iff.mp hv, rfl⟩

theorem keys_nodup (m : OrdMap κ ν) : (m.entries.map Prod.fst).Nodup :=
  List.pairwise_map.mpr (m.sorted.imp ne_of_lt)

/-- A map with all keys of a list without duplicates is as long as the list. -/
theorem length_le_of_keys {m : OrdMap κ ν} {ks : List κ} (hks : ks.Nodup)
    (h : ∀ k ∈ ks, (m.find? k).isSome) : ks.length ≤ m.entries.length := by
  have hsub : ks ⊆ m.entries.map Prod.fst := fun k hk => mem_keys_iff.mpr (h k hk)
  have hle := (List.subperm_of_subset hks hsub).length_le
  rwa [List.length_map] at hle

/-! ## Neighbours of a key -/

theorem eq_of_key_eq {m : OrdMap κ ν} {e e' : κ × ν} (h : e ∈ m.entries) (h' : e' ∈ m.entries)
    (hk : e.1 = e'.1) : e = e' := by
  have hv := find?_eq_some_iff.mpr h
  have hv' := find?_eq_some_iff.mpr h'
  rw [hk, hv'] at hv
  exact Prod.ext hk (Option.some.inj hv).symm

theorem upper?_eq_some {m : OrdMap κ ν} {k : κ} {e : κ × ν} (h : m.upper? k = some e) :
    e ∈ m.entries ∧ k < e.1 :=
  ⟨List.mem_of_find?_eq_some h, by simpa using List.find?_some h⟩

/-- Nothing lies between `k` and the entry `upper_bound` finds. -/
theorem upper?_le {m : OrdMap κ ν} {k : κ} {e : κ × ν} (h : m.upper? k = some e) :
    ∀ d ∈ m.entries, k < d.1 → e.1 ≤ d.1 := by
  obtain ⟨es, hs⟩ := m
  rw [upper?] at h
  dsimp only at h ⊢
  induction es with
  | nil => cases h
  | cons c cs ih =>
      obtain ⟨hc, hcs⟩ := List.pairwise_cons.mp hs
      rw [List.find?_cons] at h
      intro d hd hkd
      split at h
      · obtain rfl := Option.some.inj h
        rcases List.mem_cons.mp hd with rfl | hd
        · exact le_refl _
        · exact (hc d hd).le
      · rename_i hck
        rcases List.mem_cons.mp hd with rfl | hd
        · simp [hkd] at hck
        · exact ih hcs h d hd hkd

theorem upper?_eq_none {m : OrdMap κ ν} {k : κ} (h : m.upper? k = none) :
    ∀ d ∈ m.entries, d.1 ≤ k := by
  intro d hd
  have := List.find?_eq_none.mp h d hd
  simpa using this

/-- The prefix of the keys up to `k`. -/
theorem mem_takeWhile_le {m : OrdMap κ ν} {k : κ} {e : κ × ν} :
    e ∈ m.entries.takeWhile (fun e => decide (e.1 ≤ k)) ↔ e ∈ m.entries ∧ e.1 ≤ k := by
  obtain ⟨es, hs⟩ := m
  dsimp only
  induction es with
  | nil => simp
  | cons d ds ih =>
      obtain ⟨hd, hds⟩ := List.pairwise_cons.mp hs
      rw [List.takeWhile_cons]
      by_cases hdk : d.1 ≤ k
      · simp only [hdk, decide_true, if_true, List.mem_cons, ih hds]
        constructor
        · rintro (rfl | h)
          · exact ⟨.inl rfl, hdk⟩
          · exact ⟨.inr h.1, h.2⟩
        · rintro ⟨rfl | h, hk⟩
          · exact .inl rfl
          · exact .inr ⟨h, hk⟩
      · simp only [hdk, decide_false, Bool.false_eq_true, if_false, List.not_mem_nil,
          List.mem_cons, false_iff, not_and]
        rintro (rfl | h) hk
        · exact hdk hk
        · exact hdk ((hd e h).le.trans hk)

theorem floor?_eq_some {m : OrdMap κ ν} {k : κ} {e : κ × ν} (h : m.floor? k = some e) :
    e ∈ m.entries ∧ e.1 ≤ k ∧ ∀ d ∈ m.entries, d.1 ≤ k → d.1 ≤ e.1 := by
  have hmem := mem_takeWhile_le.mp (List.mem_of_getLast? h)
  refine ⟨hmem.1, hmem.2, fun d hd hdk => ?_⟩
  have hd' := mem_takeWhile_le.mpr ⟨hd, hdk⟩
  have hsorted := m.sorted.sublist (List.takeWhile_sublist fun e => decide (e.1 ≤ k))
  obtain ⟨init, hinit⟩ := List.getLast?_eq_some_iff.mp h
  rw [hinit] at hd' hsorted
  rcases List.mem_append.mp hd' with hd' | hd'
  · exact ((List.pairwise_append.mp hsorted).2.2 d hd' e (by simp)).le
  · exact (congrArg Prod.fst (List.mem_singleton.mp hd')).le

theorem mem_of_below? {m : OrdMap κ ν} {k : κ} {e : κ × ν} (h : m.below? k = some e) :
    e ∈ m.entries :=
  (List.takeWhile_sublist _).mem (List.mem_of_getLast? h)

theorem floor?_eq_none {m : OrdMap κ ν} {k : κ} (h : m.floor? k = none) :
    ∀ d ∈ m.entries, k < d.1 := by
  intro d hd
  by_contra hk
  have := mem_takeWhile_le.mpr ⟨hd, not_lt.mp hk⟩
  rw [List.getLast?_eq_none_iff.mp h] at this
  cases this

theorem sorted_from (m : OrdMap κ ν) (k : κ) :
    (m.from_ k).Pairwise fun a b => a.1 < b.1 :=
  m.sorted.sublist (List.dropWhile_sublist _)

theorem mem_from_ {m : OrdMap κ ν} {k : κ} {e : κ × ν} :
    e ∈ m.from_ k ↔ e ∈ m.entries ∧ k ≤ e.1 := by
  obtain ⟨es, hs⟩ := m
  simp only [from_]
  induction es with
  | nil => simp
  | cons d ds ih =>
      obtain ⟨hd, hds⟩ := List.pairwise_cons.mp hs
      rw [List.dropWhile_cons]
      by_cases hdk : d.1 < k
      · simp only [hdk, decide_true, if_true, ih hds, List.mem_cons]
        constructor
        · exact fun h => ⟨.inr h.1, h.2⟩
        · rintro ⟨rfl | h, hk⟩
          · exact absurd hdk (not_lt.mpr hk)
          · exact ⟨h, hk⟩
      · simp only [hdk, decide_false, Bool.false_eq_true, if_false, List.mem_cons]
        constructor
        · rintro (rfl | h)
          · exact ⟨.inl rfl, not_lt.mp hdk⟩
          · exact ⟨.inr h, (not_lt.mp hdk).trans (hd e h).le⟩
        · exact fun h => h.1

/-- Two lists in the order of their keys that have the same entries. -/
theorem sorted_ext {es ds : List (κ × ν)} (hes : es.Pairwise fun a b => a.1 < b.1)
    (hds : ds.Pairwise fun a b => a.1 < b.1) (h : ∀ e, e ∈ es ↔ e ∈ ds) : es = ds := by
  have hnodup : ∀ {l : List (κ × ν)}, l.Pairwise (fun a b => a.1 < b.1) → l.Nodup :=
    fun hl => hl.imp fun hab heq => (heq ▸ hab).false
  refine ((List.perm_ext_iff_of_nodup (hnodup hes) (hnodup hds)).mpr h).eq_of_pairwise ?_ hes hds
  intro a b _ _ hab hba
  exact absurd hab hba.asymm

theorem ext_find? {m m' : OrdMap κ ν} (h : ∀ k, m.find? k = m'.find? k) : m = m' := by
  have heq : m.entries = m'.entries := by
    refine sorted_ext m.sorted m'.sorted fun e => ?_
    have hmem := h e.1
    constructor
    · intro he
      rw [find?_eq_some_iff.mpr he] at hmem
      exact find?_eq_some_iff.mp hmem.symm
    · intro he
      rw [find?_eq_some_iff.mpr he] at hmem
      exact find?_eq_some_iff.mp hmem
  cases m
  cases m'
  cases heq
  rfl

/-- The entry of a key, and those from the next key on. -/
theorem from_eq_cons {m : OrdMap κ ν} {k k' : κ} {v : ν} (h : m.find? k = some v) (hk : k < k')
    (hgap : ∀ l w, m.find? l = some w → k < l → k' ≤ l) :
    m.from_ k = (k, v) :: m.from_ k' := by
  refine sorted_ext (m.sorted_from k) ?_ fun e => ?_
  · exact List.pairwise_cons.mpr
      ⟨fun e he => hk.trans_le (mem_from_.mp he).2, m.sorted_from k'⟩
  · rw [List.mem_cons, mem_from_, mem_from_]
    constructor
    · rintro ⟨he, hle⟩
      rcases hle.eq_or_lt with heq | hlt
      · have hfind := find?_eq_some_iff.mpr he
        rw [← heq, h] at hfind
        cases hfind
        exact .inl (Prod.ext heq.symm rfl)
      · exact .inr ⟨he, hgap e.1 e.2 (find?_eq_some_iff.mpr he) hlt⟩
    · rintro (rfl | ⟨he, hle⟩)
      · exact ⟨find?_eq_some_iff.mp h, le_rfl⟩
      · exact ⟨he, hk.le.trans hle⟩

theorem from_congr {m m' : OrdMap κ ν} {k : κ}
    (h : ∀ l, k ≤ l → m.find? l = m'.find? l) : m.from_ k = m'.from_ k := by
  refine sorted_ext (m.sorted_from k) (m'.sorted_from k) fun e => ?_
  rw [mem_from_, mem_from_, ← find?_eq_some_iff, ← find?_eq_some_iff]
  exact ⟨fun ⟨he, hk⟩ => ⟨h _ hk ▸ he, hk⟩, fun ⟨he, hk⟩ => ⟨h _ hk ▸ he, hk⟩⟩

theorem from_eq_filter (m : OrdMap κ ν) (k : κ) :
    m.from_ k = m.entries.filter fun e => decide (k ≤ e.1) := by
  refine sorted_ext (m.sorted_from k) (m.sorted.filter _) fun e => ?_
  rw [mem_from_, List.mem_filter, decide_eq_true_iff]

/-! ## Entries up to their order -/

/-- A write through an iterator replaces one entry. -/
theorem exists_perm_modify {m : OrdMap κ ν} {k : κ} {v : ν} (h : m.find? k = some v) :
    ∃ rest, m.entries.Perm ((k, v) :: rest) ∧
      ∀ f, (m.modify k f).entries.Perm ((k, f v) :: rest) := by
  have hmem := find?_eq_some_iff.mp h
  obtain ⟨es, hs⟩ := m
  simp only [modify] at hmem ⊢
  clear h
  induction es with
  | nil => cases hmem
  | cons d ds ih =>
      obtain ⟨hd, hds⟩ := List.pairwise_cons.mp hs
      rcases List.mem_cons.mp hmem with rfl | hmem
      · refine ⟨ds, .refl _, fun f => ?_⟩
        have heq : ds.map (fun e => if e.1 = k then (e.1, f e.2) else e) = ds := by
          conv_rhs => rw [← List.map_id ds]
          refine List.map_congr_left fun e he => ?_
          have hne : e.1 ≠ k := (hd e he).ne'
          simp [hne]
        simp [heq]
      · obtain ⟨rest, hp, hf⟩ := ih hds hmem
        have hne : d.1 ≠ k := (hd _ hmem).ne
        refine ⟨d :: rest, (hp.cons d).trans (.swap _ _ _), fun f => ?_⟩
        simp only [List.map_cons, hne, if_false]
        exact ((hf f).cons d).trans (.swap _ _ _)

theorem perm_insert_of_none {m : OrdMap κ ν} {k : κ} (v : ν) (h : m.find? k = none) :
    (m.insert k v).entries.Perm ((k, v) :: m.entries) := by
  have hmem := find?_eq_none_iff.mp h
  obtain ⟨es, hs⟩ := m
  simp only [insert] at hmem ⊢
  clear h hs
  induction es with
  | nil => simp [insertList]
  | cons d ds ih =>
      have ih := ih fun w hw => hmem w (by simp [hw])
      simp only [insertList]
      split
      · exact .refl _
      · split
        · exact (ih.cons d).trans (.swap _ _ _)
        · rename_i h1 h2
          have hk : k = d.1 := le_antisymm (not_lt.mp h2) (not_lt.mp h1)
          exact absurd (by simp [hk]) (hmem d.2)

/-- Writing the value that is there changes nothing. -/
theorem insert_of_find? {m : OrdMap κ ν} {k : κ} {v : ν} (h : m.find? k = some v) :
    m.insert k v = m := by
  have hmem := find?_eq_some_iff.mp h
  obtain ⟨es, hs⟩ := m
  simp only [insert, mk.injEq] at hmem ⊢
  clear h
  induction es with
  | nil => cases hmem
  | cons d ds ih =>
      obtain ⟨hd, hds⟩ := List.pairwise_cons.mp hs
      simp only [insertList]
      rcases List.mem_cons.mp hmem with rfl | hmem
      · simp
      · have hlt := hd _ hmem
        simp only [not_lt.mpr hlt.le, hlt, if_true, if_false, ih hds hmem]

/-! ## Sums over the entries -/

/-- The sum of `g` over all entries. -/
def sum (g : κ → ν → Nat) (m : OrdMap κ ν) : Nat :=
  (m.entries.map fun e => g e.1 e.2).sum

/-! ## An entry between others -/

section Middle

variable {m : OrdMap κ ν} {l r : List (κ × ν)} {k : κ} {v : ν}

theorem find?_middle (h : m.entries = l ++ (k, v) :: r) : m.find? k = some v :=
  find?_eq_some_iff.mpr (by rw [h]; simp)

theorem lt_middle (h : m.entries = l ++ (k, v) :: r) :
    (∀ e ∈ l, e.1 < k) ∧ ∀ e ∈ r, k < e.1 := by
  have hsorted := m.sorted
  rw [h, List.pairwise_append] at hsorted
  obtain ⟨-, hr, hcross⟩ := hsorted
  exact ⟨fun e he => hcross e he (k, v) (List.mem_cons_self ..), (List.pairwise_cons.mp hr).1⟩

theorem upper?_middle (h : m.entries = l ++ (k, v) :: r) : m.upper? k = r.head? := by
  obtain ⟨hl, hr⟩ := lt_middle h
  have hl' : l.find? (fun e => decide (k < e.1)) = none :=
    List.find?_eq_none.mpr fun e he => by simpa using (hl e he).le
  rw [upper?, h, List.find?_append, hl', Option.none_or, List.find?_cons_of_neg (by simp)]
  cases r with
  | nil => rfl
  | cons e r => exact List.find?_cons_of_pos (by simpa using hr e (List.mem_cons_self ..))

theorem below?_middle (h : m.entries = l ++ (k, v) :: r) : m.below? k = l.getLast? := by
  obtain ⟨hl, -⟩ := lt_middle h
  rw [below?, h, List.takeWhile_append_of_pos fun e he => by simpa using hl e he,
    List.takeWhile_cons_of_neg (by simp), List.append_nil]

theorem entries_erase_middle (h : m.entries = l ++ (k, v) :: r) :
    (m.erase k).entries = l ++ r := by
  obtain ⟨hl, hr⟩ := lt_middle h
  show m.entries.filter (fun e => decide (e.1 ≠ k)) = l ++ r
  rw [h, List.filter_append, List.filter_cons_of_neg (by simp),
    List.filter_eq_self.mpr fun e he => by simpa using (hl e he).ne,
    List.filter_eq_self.mpr fun e he => by simpa using (hr e he).ne']

theorem insertList_middle (hl : ∀ e ∈ l, e.1 < k) (hr : ∀ e ∈ r, k < e.1) :
    insertList k v (l ++ r) = l ++ (k, v) :: r := by
  induction l with
  | nil =>
      cases r with
      | nil => rfl
      | cons e r => rw [List.nil_append, insertList, if_pos (hr e (List.mem_cons_self ..))]; rfl
  | cons e l ih =>
      have hlt := hl e (List.mem_cons_self ..)
      rw [List.cons_append, insertList, if_neg (not_lt.mpr hlt.le), if_pos hlt,
        ih fun d hd => hl d (List.mem_cons_of_mem e hd)]
      rfl

/-- `emplace` of a key that is between those there are. -/
theorem entries_emplace_middle (h : m.entries = l ++ r) (hl : ∀ e ∈ l, e.1 < k)
    (hr : ∀ e ∈ r, k < e.1) (v : ν) : (m.emplace k v).entries = l ++ (k, v) :: r := by
  have hnone : m.find? k = none := by
    refine find?_eq_none_iff.mpr fun w hw => ?_
    rw [h] at hw
    rcases List.mem_append.mp hw with hw | hw
    · exact lt_irrefl k (hl _ hw)
    · exact lt_irrefl k (hr _ hw)
  rw [emplace, hnone]
  show insertList k v m.entries = _
  rw [h, insertList_middle hl hr]

end Middle

end OrdMap

end Ccbase.Lib

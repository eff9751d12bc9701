import Ccbase.Lib.Heap
import Ccbase.Lib.OrdMap
import Mathlib.Data.List.Nodup

/-!
# `ConnectionPool`

The pool maps destinations to connections and owns the connections in it:
`CloseConnection` closes one and destroys it. Destinations are compared and
nothing else, so their type is a parameter. A call of a method through a pointer
to a destroyed connection has no result.

`AddConnection` for a destination that has a connection closes the old one but
leaves its pointer in the map, because `emplace` does nothing on a key that is
present. So `FindConnection` does what it is for exactly in the runs that never
add a connection to a destination that still has one.
-/

namespace Ccbase.Net

open Ccbase.Lib

/-- What the pool reads and writes of a `Connection`. -/
structure Connection (κ : Type) where
  destination : κ
  socketFd : Nat
  deleted : Bool := false

structure ConnectionInfo (κ : Type) where
  socketFd : Nat
  source : κ
  target : κ
  hasCallback : Bool

/-- `exits` are the calls of `delete_callback` so far. -/
structure ConnectionPool (κ : Type) [LinearOrder κ] where
  conns : Heap (Connection κ)
  connections : OrdMap κ Nat := OrdMap.empty
  connInfos : OrdMap Nat (List (ConnectionInfo κ)) := OrdMap.empty
  doubleLink : Bool := false
  exits : List (κ × κ) := []

namespace ConnectionPool

variable {κ : Type} [LinearOrder κ]

def deleteConnInfoOfFd (fd : Nat) (s : ConnectionPool κ) : ConnectionPool κ :=
  match s.connInfos.find? fd with
  | none => s
  | some infos =>
      { s with
        exits := s.exits ++
          (infos.filter fun info => info.hasCallback).map fun info => (info.target, info.source)
        connInfos := s.connInfos.erase fd }

def deleteConnInfo (p : Nat) (conn : Connection κ) (s : ConnectionPool κ) : ConnectionPool κ :=
  if s.doubleLink then deleteConnInfoOfFd conn.socketFd s
  else
    deleteConnInfoOfFd conn.socketFd
      { s with conns := s.conns.modify p fun c => { c with deleted := true } }

def closeConnection (p : Nat) (s : ConnectionPool κ) : Option (ConnectionPool κ) := do
  let conn ← s.conns.get p
  let s := if !conn.deleted then deleteConnInfo p conn s else s
  some { s with conns := s.conns.delete p }

def findConnection (dstUrl : κ) (s : ConnectionPool κ) : Option Nat :=
  s.connections.find? dstUrl

def deleteConnection (dstUrl : κ) (s : ConnectionPool κ) : Option (ConnectionPool κ) :=
  match s.findConnection dstUrl with
  | none => some s
  | some p => closeConnection p { s with connections := s.connections.erase dstUrl }

def addConnection (p : Nat) (s : ConnectionPool κ) : Option (ConnectionPool κ) := do
  let conn ← s.conns.get p
  let s ← match s.findConnection conn.destination with
    | none => some s
    | some old => closeConnection old s
  some { s with connections := s.connections.emplace conn.destination p }

/-- A client makes a connection before it adds it. -/
inductive Op (κ : Type) where
  | add (p : Nat)
  | delete (dstUrl : κ)

def exec (s : ConnectionPool κ) : Op κ → Option (ConnectionPool κ)
  | .add p => addConnection p s
  | .delete dstUrl => deleteConnection dstUrl s

def execAll (s : ConnectionPool κ) (ops : List (Op κ)) : Option (ConnectionPool κ) :=
  ops.foldlM exec s

/-! ## What the pool is for -/

/-- How one operation changes the current connection of a destination. `dest` is
the destination of a connection. -/
def afterOp (dest : Nat → Option κ) (current : κ → Option Nat) : Op κ → κ → Option Nat
  | .add p, d => if dest p = some d then some p else current d
  | .delete dstUrl, d => if dstUrl = d then none else current d

/-- The connection that was added last to a destination, unless it has been
deleted since. -/
def latest (dest : Nat → Option κ) (ops : List (Op κ)) : κ → Option Nat :=
  ops.foldl (afterOp dest) fun _ => none

theorem latest_snoc (dest : Nat → Option κ) (ops : List (Op κ)) (op : Op κ) :
    latest dest (ops ++ [op]) = afterOp dest (latest dest ops) op := by
  simp [latest]

/-- The connections a client adds. -/
def added (ops : List (Op κ)) : List Nat :=
  ops.filterMap fun
    | .add p => some p
    | .delete _ => none

omit [LinearOrder κ] in
theorem added_snoc (ops : List (Op κ)) (op : Op κ) :
    added (ops ++ [op]) = added ops ++ added [op] := List.filterMap_append

/-- `FindConnection` answers the current connection of every destination, and it
has not been destroyed. -/
def FindsLatest (dest : Nat → Option κ) (ops : List (Op κ)) (s : ConnectionPool κ) : Prop :=
  ∀ d, s.findConnection d = latest dest ops d ∧
    ∀ p, s.findConnection d = some p → (s.conns.get p).isSome

/-- No connection is added to a destination that has one. -/
def FreshDestinations (dest : Nat → Option κ) (ops : List (Op κ)) : Prop :=
  ∀ pre p d, pre ++ [.add p] <+: ops → dest p = some d → latest dest pre d = none

/-! ## One operation -/

variable {s s' : ConnectionPool κ} {p : Nat} {conn : Connection κ}

theorem deleteConnInfoOfFd_conns (fd : Nat) (s : ConnectionPool κ) :
    (deleteConnInfoOfFd fd s).conns = s.conns ∧
      (deleteConnInfoOfFd fd s).connections = s.connections := by
  unfold deleteConnInfoOfFd
  split <;> exact ⟨rfl, rfl⟩

/-- Closing destroys one connection and leaves the map alone. -/
theorem closeConnection_eq (hp : s.conns.get p = some conn) :
    ∃ s', closeConnection p s = some s' ∧ s'.connections = s.connections ∧
      s'.conns.get p = none ∧
      ∀ q, q ≠ p → s'.conns.get q = s.conns.get q := by
  have hframe : ∀ q, q ≠ p → (deleteConnInfo p conn s).conns.get q = s.conns.get q := by
    intro q hq
    unfold deleteConnInfo
    split
    · rw [(deleteConnInfoOfFd_conns _ _).1]
    · rw [(deleteConnInfoOfFd_conns _ _).1, Heap.get_modify_ne _ _ hq]
  have hmap : (deleteConnInfo p conn s).connections = s.connections := by
    unfold deleteConnInfo
    split <;> rw [(deleteConnInfoOfFd_conns _ _).2]
  by_cases hdel : conn.deleted
  · refine ⟨{ s with conns := s.conns.delete p }, by simp [closeConnection, hp, hdel], rfl,
      Heap.get_delete_self _ _, fun q hq => Heap.get_delete_ne _ hq⟩
  · refine ⟨{ deleteConnInfo p conn s with conns := (deleteConnInfo p conn s).conns.delete p },
      by simp [closeConnection, hp, hdel], hmap, Heap.get_delete_self _ _, fun q hq => ?_⟩
    rw [← hframe q hq]
    exact Heap.get_delete_ne _ hq

/-- The state of a pool after operations that have all been harmless. -/
structure Inv (dest : Nat → Option κ) (ops : List (Op κ)) (s : ConnectionPool κ) : Prop where
  finds : ∀ d, s.connections.find? d = latest dest ops d
  dests : ∀ d p, latest dest ops d = some p → dest p = some d ∧ p ∈ added ops
  live : ∀ d p, latest dest ops d = some p → (s.conns.get p).isSome
  waiting : ∀ p d, p ∉ added ops → dest p = some d →
    ∃ conn, s.conns.get p = some conn ∧ conn.destination = d

variable {dest : Nat → Option κ} {ops : List (Op κ)}

theorem Inv.findsLatest (hi : Inv dest ops s) : FindsLatest dest ops s :=
  fun d => ⟨hi.finds d, fun p hp => hi.live d p ((hi.finds d).symm.trans hp)⟩

theorem Inv.add {d : κ} (hi : Inv dest ops s) (hnew : p ∉ added ops) (hd : dest p = some d)
    (hfresh : latest dest ops d = none) :
    ∃ s', addConnection p s = some s' ∧ Inv dest (ops ++ [.add p]) s' := by
  obtain ⟨conn, hconn, hdest⟩ := hi.waiting p d hnew hd
  have hnone : s.connections.find? d = none := (hi.finds d).trans hfresh
  refine ⟨{ s with connections := s.connections.emplace d p }, ?_, ?_⟩
  · simp [addConnection, hconn, hdest, findConnection, hnone]
  have hlatest : ∀ d', latest dest (ops ++ [.add p]) d' =
      if d' = d then some p else latest dest ops d' := by
    intro d'
    rw [latest_snoc]
    show (if dest p = some d' then some p else _) = _
    simp only [hd, Option.some.injEq, eq_comm]
  have hmem : ∀ q, q ∈ added (ops ++ [.add p]) ↔ q ∈ added ops ∨ q = p := by
    intro q
    rw [added_snoc, List.mem_append]
    exact or_congr_right List.mem_singleton
  refine ⟨fun d' => ?_, fun d' q hq => ?_, fun d' q hq => ?_, fun q d' hq hd' => ?_⟩
  · rw [hlatest, ← hi.finds]
    exact OrdMap.find?_emplace_of_none p hnone d'
  · rw [hlatest] at hq
    split at hq
    · rename_i heq
      cases hq
      exact ⟨heq ▸ hd, (hmem p).mpr (.inr rfl)⟩
    · exact ⟨(hi.dests d' q hq).1, (hmem q).mpr (.inl (hi.dests d' q hq).2)⟩
  · rw [hlatest] at hq
    split at hq
    · cases hq
      show (s.conns.get p).isSome
      rw [hconn]
      rfl
    · exact hi.live d' q hq
  · exact hi.waiting q d' (fun h => hq ((hmem q).mpr (.inl h))) hd'

theorem Inv.delete (hi : Inv dest ops s) (d : κ) :
    ∃ s', deleteConnection d s = some s' ∧ Inv dest (ops ++ [.delete d]) s' := by
  have hlatest : ∀ d', latest dest (ops ++ [.delete d]) d' =
      if d' = d then none else latest dest ops d' := by
    intro d'
    rw [latest_snoc]
    show (if d = d' then none else _) = _
    simp only [eq_comm]
  have hadded : added (ops ++ [.delete d]) = added ops := by
    rw [added_snoc]
    exact List.append_nil _
  cases hf : s.findConnection d with
  | none =>
      refine ⟨s, by simp [deleteConnection, hf], ?_⟩
      have hsame : ∀ d', latest dest (ops ++ [.delete d]) d' = latest dest ops d' := by
        intro d'
        rw [hlatest]
        split
        · rename_i heq
          rw [heq, ← hi.finds d]
          exact hf.symm
        · rfl
      exact ⟨fun d' => (hi.finds d').trans (hsame d').symm,
        fun d' q hq => hadded ▸ hi.dests d' q (hsame d' ▸ hq),
        fun d' q hq => hi.live d' q (hsame d' ▸ hq),
        fun q d' hq => hi.waiting q d' (hadded ▸ hq)⟩
  | some p =>
      have hp : latest dest ops d = some p := (hi.finds d).symm.trans hf
      obtain ⟨conn, hconn⟩ := Option.isSome_iff_exists.mp (hi.live d p hp)
      obtain ⟨s', hclose, hmap, -, hframe⟩ :=
        closeConnection_eq (s := { s with connections := s.connections.erase d }) hconn
      refine ⟨s', by simp only [deleteConnection, hf]; exact hclose, ?_⟩
      refine ⟨fun d' => ?_, fun d' q hq => ?_, fun d' q hq => ?_, fun q d' hq hd' => ?_⟩
      · rw [hlatest, hmap, OrdMap.find?_erase, hi.finds]
      · rw [hlatest] at hq
        split at hq
        · cases hq
        · exact hadded ▸ hi.dests d' q hq
      · rw [hlatest] at hq
        split at hq
        · cases hq
        · rename_i hne
          have hqp : q ≠ p := by
            rintro rfl
            have h1 := (hi.dests d' q hq).1
            rw [(hi.dests d q hp).1] at h1
            exact hne (Option.some.inj h1).symm
          rw [hframe q hqp]
          exact hi.live d' q hq
      · rw [hadded] at hq
        have hqp : q ≠ p := fun heq => hq (heq ▸ (hi.dests d p hp).2)
        rw [hframe q hqp]
        exact hi.waiting q d' hq hd'

/-- A connection that is added to a destination in use: the map keeps the old
one, which is destroyed. -/
theorem add_again {d : κ} {q : Nat} (hi : Inv dest ops s) (hnew : p ∉ added ops)
    (hd : dest p = some d) (hq : latest dest ops d = some q) :
    ∃ s', addConnection p s = some s' ∧ s'.findConnection d = some q ∧
      s'.conns.get q = none := by
  obtain ⟨conn, hconn, hdest⟩ := hi.waiting p d hnew hd
  obtain ⟨old, hold⟩ := Option.isSome_iff_exists.mp (hi.live d q hq)
  have hfind : s.connections.find? d = some q := (hi.finds d).trans hq
  obtain ⟨s', hclose, hmap, hgone, -⟩ := closeConnection_eq hold
  refine ⟨{ s' with connections := s'.connections.emplace d p }, ?_, ?_, hgone⟩
  · simp [addConnection, hconn, hdest, findConnection, hfind, hclose]
  · show (s'.connections.emplace d p).find? d = some q
    simp [OrdMap.emplace, hmap, hfind]

/-! ## Runs -/

/-- A pool with no connection yet. The connections that clients will add are
objects of the heap. -/
def init (conns : Heap (Connection κ)) : ConnectionPool κ := { conns }

/-- The destination of a connection a client has made. -/
def destOf (conns : Heap (Connection κ)) (p : Nat) : Option κ :=
  (conns.get p).map Connection.destination

theorem inv_init (conns : Heap (Connection κ)) : Inv (destOf conns) [] (init conns) where
  finds := fun _ => rfl
  dests := fun _ _ h => by cases h
  live := fun _ _ h => by cases h
  waiting := fun p d _ hd => by
    obtain ⟨conn, hconn, hdest⟩ := Option.map_eq_some_iff.mp hd
    exact ⟨conn, hconn, hdest⟩

theorem execAll_snoc (s : ConnectionPool κ) (ops : List (Op κ)) (op : Op κ) :
    s.execAll (ops ++ [op]) = (s.execAll ops).bind fun s => exec s op := by
  simp [execAll, List.foldlM_append]

theorem freshDestinations_nil (dest : Nat → Option κ) : FreshDestinations dest [] := by
  intro pre p d hpre
  have hlen := hpre.length_le
  simp at hlen

theorem FreshDestinations.snoc {op : Op κ} (hf : FreshDestinations dest ops)
    (hop : ∀ p d, op = .add p → dest p = some d → latest dest ops d = none) :
    FreshDestinations dest (ops ++ [op]) := by
  intro pre p d hpre hd
  rcases List.prefix_concat_iff.mp hpre with heq | hpre
  · obtain ⟨rfl, hone⟩ := List.append_inj' heq rfl
    exact hop p d (List.head_eq_of_cons_eq hone).symm hd
  · exact hf pre p d hpre hd

theorem FreshDestinations.init {op : Op κ} (hf : FreshDestinations dest (ops ++ [op])) :
    FreshDestinations dest ops :=
  fun pre p d hpre => hf pre p d (hpre.trans (List.prefix_append _ _))

/-- Every operation of the pool answers as it should. -/
def Meets (conns : Heap (Connection κ)) (ops : List (Op κ)) : Prop :=
  ∀ pre, pre <+: ops →
    ∃ s, (init conns).execAll pre = some s ∧ FindsLatest (destOf conns) pre s

theorem inv_of_fresh {conns : Heap (Connection κ)} {ops : List (Op κ)}
    (hnodup : (added ops).Nodup) (hmade : ∀ p ∈ added ops, (conns.get p).isSome)
    (hfresh : FreshDestinations (destOf conns) ops) :
    ∃ s, (init conns).execAll ops = some s ∧ Inv (destOf conns) ops s := by
  induction ops using List.reverseRecOn with
  | nil => exact ⟨_, rfl, inv_init conns⟩
  | append_singleton ops op ih =>
      rw [added_snoc] at hnodup hmade
      obtain ⟨s, hs, hi⟩ := ih (List.nodup_append.mp hnodup).1
        (fun p hp => hmade p (List.mem_append_left _ hp)) hfresh.init
      rw [execAll_snoc, hs]
      cases op with
      | add p =>
          obtain ⟨conn, hconn⟩ := Option.isSome_iff_exists.mp
            (hmade p (List.mem_append_right _ (List.mem_singleton.mpr rfl)))
          have hd : destOf conns p = some conn.destination := by simp [destOf, hconn]
          have hnew : p ∉ added ops := fun hmem =>
            (List.nodup_append.mp hnodup).2.2 p hmem p (List.mem_singleton.mpr rfl) rfl
          exact hi.add hnew hd (hfresh ops p _ (List.prefix_rfl) hd)
      | delete d => exact hi.delete d

/-- `FindConnection` answers the connection that was added last and not deleted
since, after every operation of a run, if and only if the run never adds a
connection to a destination that has one. -/
theorem finds_latest_iff (conns : Heap (Connection κ)) {ops : List (Op κ)}
    (hnodup : (added ops).Nodup) (hmade : ∀ p ∈ added ops, (conns.get p).isSome) :
    Meets conns ops ↔ FreshDestinations (destOf conns) ops := by
  constructor
  · intro hmeets
    induction ops using List.reverseRecOn with
    | nil => exact freshDestinations_nil _
    | append_singleton ops op ih =>
        have hadded := added_snoc ops op
        rw [hadded] at hnodup hmade
        have hnodup' := (List.nodup_append.mp hnodup).1
        have hmade' : ∀ p ∈ added ops, (conns.get p).isSome :=
          fun p hp => hmade p (List.mem_append_left _ hp)
        have hfresh := ih hnodup' hmade' fun pre hpre =>
          hmeets pre (hpre.trans (List.prefix_append _ _))
        refine hfresh.snoc fun p d hop hd => ?_
        subst hop
        by_contra hq
        obtain ⟨q, hq⟩ := Option.ne_none_iff_exists'.mp hq
        obtain ⟨s, hs, hi⟩ := inv_of_fresh hnodup' hmade' hfresh
        have hnew : p ∉ added ops := fun hmem =>
          (List.nodup_append.mp hnodup).2.2 p hmem p (List.mem_singleton.mpr rfl) rfl
        obtain ⟨s', hadd, hfind, hgone⟩ := add_again hi hnew hd hq
        obtain ⟨s'', hs'', hlatest⟩ := hmeets _ List.prefix_rfl
        rw [execAll_snoc, hs] at hs''
        have heq : s' = s'' := Option.some.inj (hadd.symm.trans hs'')
        have hlive := (hlatest d).2 q (heq ▸ hfind)
        rw [← heq, hgone] at hlive
        cases hlive
  · intro hfresh pre hpre
    obtain ⟨rest, rfl⟩ := hpre
    have hsplit : added (pre ++ rest) = added pre ++ added rest := List.filterMap_append
    rw [hsplit] at hnodup hmade
    obtain ⟨s, hs, hi⟩ := inv_of_fresh (List.nodup_append.mp hnodup).1
      (fun p hp => hmade p (List.mem_append_left _ hp))
      (fun pre' p d hpre' => hfresh pre' p d (hpre'.trans (List.prefix_append _ _)))
    exact ⟨s, hs, hi.findsLatest⟩

/-- Two connections to one destination. -/
def twoConns : Heap (Connection Nat) :=
  (Heap.empty.new { destination := 7, socketFd := 3 }).new { destination := 7, socketFd := 4 }

/-- The second connection is added after the first one has been deleted. -/
theorem finds_latest_iff_two :
    (added ([.add 0, .delete 7, .add 1] : List (Op Nat))).Nodup ∧
      (Meets twoConns [.add 0, .delete 7, .add 1] ↔
        FreshDestinations (destOf twoConns) [.add 0, .delete 7, .add 1]) ∧
      Meets twoConns [.add 0, .delete 7, .add 1] := by
  have hnodup : (added ([.add 0, .delete 7, .add 1] : List (Op Nat))).Nodup := by decide
  have hmade : ∀ p ∈ added ([.add 0, .delete 7, .add 1] : List (Op Nat)),
      (twoConns.get p).isSome := by decide
  have hiff := finds_latest_iff twoConns hnodup hmade
  have hfresh : FreshDestinations (destOf twoConns) [.add 0, .delete 7, .add 1] := by
    have hdest : ∀ p d, destOf twoConns p = some d → p < 2 → d = 7 := by
      intro p d hd hp
      match p with
      | 0 => exact (Option.some.inj hd).symm
      | 1 => exact (Option.some.inj hd).symm
    refine ((freshDestinations_nil _).snoc ?_ |>.snoc ?_).snoc ?_
    · rintro p d hop hd
      rfl
    · rintro p d hop
      cases hop
    · rintro p d hop hd
      cases hop
      rw [hdest 1 d hd (by omega)]
      rfl
  exact ⟨hnodup, hiff, hiff.mpr hfresh⟩

/-- The second connection is added while the pool has the first one: the map
keeps the first, which has been destroyed. -/
theorem replaced_connection_is_found :
    ¬ ∀ (conns : Heap (Connection Nat)) (ops : List (Op Nat)), (added ops).Nodup →
      (∀ p ∈ added ops, (conns.get p).isSome) → Meets conns ops := by
  intro hall
  obtain ⟨s, hs, hfinds⟩ := hall twoConns [.add 0, .add 1] (by decide) (by decide)
    [.add 0, .add 1] List.prefix_rfl
  have hfind : ((init twoConns).execAll [.add 0, .add 1]).map (findConnection 7) =
      some (some 0) := by decide
  rw [hs] at hfind
  have h0 : s.findConnection 7 = some 0 := Option.some.inj hfind
  have h1 : s.findConnection 7 = some 1 := (hfinds 7).1
  rw [h0] at h1
  cases h1

end ConnectionPool

end Ccbase.Net

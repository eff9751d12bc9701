import Ccbase.Libc.ConcurrentQueueAnswers

/-!
# Order of values and life of nodes in a `ConcurrentQueue`

The list behind the dummy is `c`. What a thread knows of it from its own reads stays
true because the others that could change it are kept out by a mutex: enqueuers only
touch the last node, and dequeuers only the first ones. The nodes that a thread has
for itself, new ones and old dummies, are in no list and no other thread has them.

Between its two writes an enqueuer leaves `tail` behind, at a node that may already
have been freed; it does not look at it again.
-/

namespace Ccbase.Libc

open Ccbase.Lib

variable {n : Nat} {D : Type}

namespace Pc

/-- Under `tail_mutex`. -/
def inTail : Pc D → Bool
  | .readTail .. | .writeNext .. | .writeTail .. | .unlockTail _ => true
  | _ => false

/-- Under `head_mutex`. -/
def inHead : Pc D → Bool
  | .readHead _ | .testNext .. | .wait | .unlockEmpty | .readDummy _ | .readNext .. | .readData ..
  | .writeHead .. | .unlockHead .. => true
  | _ => false

/-- The node that no other thread has. -/
def owned : Pc D → Option Nat
  | .lockTail node _ | .readTail node _ | .writeNext node _ _ => some node
  | .unlockHead _ dummy _ | .freeDummy _ dummy _ => some dummy
  | _ => none

/-- Between the two writes of an enqueuer. -/
def isWriteTail : Pc D → Bool
  | .writeTail .. => true
  | _ => false

end Pc

namespace ConcurrentQueue

variable {q q₁ : ConcurrentQueue n D} {c c' : List Nat} {t : Fin n}

def next (q : ConcurrentQueue n D) (i : Nat) : Option Nat := (q.heap.get i).bind Node.next

def data (q : ConcurrentQueue n D) (i : Nat) : Option D := (q.heap.get i).map Node.data

/-- The list from `head`, and the values in it. -/
structure ListOk (q : ConcurrentQueue n D) (c : List Nat) : Prop where
  links : Links q.next q.head c none
  nodup : (q.head :: c).Nodup
  live : ∀ i ∈ q.head :: c, (q.heap.get i).isSome
  values : ∃ rest, q.enqueued = q.dequeued ++ rest ∧ c.map q.data = rest.map some

/-- What holds where thread `t` stands. -/
def LocalOk (q : ConcurrentQueue n D) (c : List Nat) (t : Fin n) : Pc D → Prop
  | .lockTail node data => q.heap.get node = some ⟨data, none⟩
  | .readTail node data => q.tailMutex = some t ∧ q.heap.get node = some ⟨data, none⟩
  | .writeNext node data tail =>
      q.tailMutex = some t ∧ q.heap.get node = some ⟨data, none⟩ ∧ tail = c.getLastD q.head
  | .writeTail node _ => q.tailMutex = some t ∧ node = c.getLastD q.head
  | .unlockTail _ => q.tailMutex = some t
  | .readHead _ | .wait | .unlockEmpty | .unlockHead .. => q.headMutex = some t
  | .testNext _ head => q.headMutex = some t ∧ head = q.head
  | .readDummy _ => q.headMutex = some t ∧ c ≠ []
  | .readNext _ dummy => q.headMutex = some t ∧ dummy = q.head ∧ c ≠ []
  | .readData _ dummy resultNode =>
      q.headMutex = some t ∧ dummy = q.head ∧ c.head? = some resultNode
  | .writeHead _ dummy resultNode result =>
      q.headMutex = some t ∧ dummy = q.head ∧ c.head? = some resultNode ∧
        q.data resultNode = some result
  | _ => True

structure Inv (q : ConcurrentQueue n D) (c : List Nat) : Prop where
  list : ListOk q c
  locals : ∀ t, LocalOk q c t (q.pc t)
  tail : (∀ t, (q.pc t).isWriteTail = false) → q.tail = c.getLastD q.head
  owned : ∀ t i, (q.pc t).owned = some i → i ∉ q.head :: c ∧ (q.heap.get i).isSome
  distinct : ∀ t u i, (q.pc t).owned = some i → (q.pc u).owned = some i → t = u
  safe : q.fault = false

theorem LocalOk.inTail {p : Pc D} (h : LocalOk q c t p) (hp : p.inTail = true) :
    q.tailMutex = some t := by
  cases p with
  | readTail | writeNext | writeTail => exact h.1
  | unlockTail => exact h
  | _ => cases hp

theorem LocalOk.inHead {p : Pc D} (h : LocalOk q c t p) (hp : p.inHead = true) :
    q.headMutex = some t := by
  cases p with
  | readHead | wait | unlockEmpty | unlockHead => exact h
  | testNext | readDummy | readNext | readData | writeHead => exact h.1
  | _ => cases hp

/-- What a change must keep for a thread. -/
structure Keeps (q q₁ : ConcurrentQueue n D) (c c' : List Nat) (p : Pc D) : Prop where
  tail : p.inTail = true →
    q₁.tailMutex = q.tailMutex ∧ c'.getLastD q₁.head = c.getLastD q.head
  head : p.inHead = true →
    q₁.headMutex = q.headMutex ∧ q₁.head = q.head ∧
      (c ≠ [] → c'.head? = c.head?) ∧ ∀ r, c.head? = some r → q₁.data r = q.data r
  own : ∀ i, p.owned = some i → q₁.heap.get i = q.heap.get i

theorem LocalOk.keep {p : Pc D} (h : LocalOk q c t p) (hk : Keeps q q₁ c c' p) :
    LocalOk q₁ c' t p := by
  have hne : ∀ r, c.head? = some r → c ≠ [] := by
    intro r hr hc
    rw [hc] at hr
    cases hr
  cases p with
  | idle | signal | lockHead | waiting | woken | freeDummy => trivial
  | lockTail node data => exact (hk.own node rfl).trans h
  | readTail node data => exact ⟨(hk.tail rfl).1.trans h.1, (hk.own node rfl).trans h.2⟩
  | writeNext node data tail =>
      exact ⟨(hk.tail rfl).1.trans h.1, (hk.own node rfl).trans h.2.1,
        h.2.2.trans (hk.tail rfl).2.symm⟩
  | writeTail node v => exact ⟨(hk.tail rfl).1.trans h.1, h.2.trans (hk.tail rfl).2.symm⟩
  | unlockTail => exact (hk.tail rfl).1.trans h
  | readHead | wait | unlockEmpty | unlockHead => exact (hk.head rfl).1.trans h
  | testNext b head => exact ⟨(hk.head rfl).1.trans h.1, h.2.trans (hk.head rfl).2.1.symm⟩
  | readDummy =>
      obtain ⟨hm, -, hfirst, -⟩ := hk.head rfl
      refine ⟨hm.trans h.1, fun hc' => h.2 ?_⟩
      rw [← List.head?_eq_none_iff, ← hfirst h.2, hc']
      rfl
  | readNext b dummy =>
      obtain ⟨hm, hhead, hfirst, -⟩ := hk.head rfl
      refine ⟨hm.trans h.1, h.2.1.trans hhead.symm, fun hc' => h.2.2 ?_⟩
      rw [← List.head?_eq_none_iff, ← hfirst h.2.2, hc']
      rfl
  | readData b dummy r =>
      obtain ⟨hm, hhead, hfirst, -⟩ := hk.head rfl
      exact ⟨hm.trans h.1, h.2.1.trans hhead.symm, (hfirst (hne r h.2.2)).trans h.2.2⟩
  | writeHead b dummy r result =>
      obtain ⟨hm, hhead, hfirst, hdata⟩ := hk.head rfl
      exact ⟨hm.trans h.1, h.2.1.trans hhead.symm, (hfirst (hne r h.2.2.1)).trans h.2.2.1,
        (hdata r h.2.2.1).trans h.2.2.2⟩

/-- The rule for an event: thread `t` goes on to `p` and changes the shared fields. -/
theorem Inv.goto (hinv : Inv q c) {p : Pc D} (hlist : ListOk q₁ c')
    (hlocal : LocalOk q₁ c' t p) (hkeeps : ∀ u, u ≠ t → Keeps q q₁ c c' (q.pc u))
    (htail : p.isWriteTail = false → (∀ u, u ≠ t → (q.pc u).isWriteTail = false) →
      q₁.tail = c'.getLastD q₁.head)
    (hown : ∀ i, p.owned = some i → (i ∉ q₁.head :: c' ∧ (q₁.heap.get i).isSome) ∧
      ∀ u, u ≠ t → (q.pc u).owned ≠ some i)
    (hothers : ∀ u, u ≠ t → ∀ i, (q.pc u).owned = some i →
      i ∉ q₁.head :: c' ∧ (q₁.heap.get i).isSome)
    (hsafe : q₁.fault = false) (hpc : q₁.pc = q.pc) : Inv (q₁.goto t p) c' := by
  have hself : (q₁.goto t p).pc t = p := q₁.goto_pc_self t p
  have hother : ∀ {u : Fin n}, u ≠ t → (q₁.goto t p).pc u = q.pc u := by
    intro u hu
    rw [q₁.goto_pc_of_ne hu, hpc]
  have hlocals : ∀ u p', LocalOk q₁ c' u p' → LocalOk (q₁.goto t p) c' u p' := by
    intro u p' h
    cases p' <;> exact h
  refine ⟨⟨hlist.links, hlist.nodup, hlist.live, hlist.values⟩, ?_, ?_, ?_, ?_, hsafe⟩
  · intro u
    by_cases hu : u = t
    · rw [hu, hself]
      exact hlocals t p hlocal
    · rw [hother hu]
      exact hlocals u _ ((hinv.locals u).keep (hkeeps u hu))
  · intro hall
    refine htail (hself ▸ hall t) fun u hu => ?_
    rw [← hother hu]
    exact hall u
  · intro u i hi
    by_cases hu : u = t
    · rw [hu, hself] at hi
      exact (hown i hi).1
    · rw [hother hu] at hi
      exact hothers u hu i hi
  · intro u v i hi hi'
    by_cases hu : u = t
    · by_cases hv : v = t
      · rw [hu, hv]
      · rw [hu, hself] at hi
        rw [hother hv] at hi'
        exact absurd hi' ((hown i hi).2 v hv)
    · rw [hother hu] at hi
      by_cases hv : v = t
      · rw [hv, hself] at hi'
        exact absurd hi ((hown i hi').2 u hu)
      · rw [hother hv] at hi'
        exact hinv.distinct u v i hi hi'

/-! ## The events -/

/-- Only one thread is under `tail_mutex`. -/
theorem Inv.not_inTail (hinv : Inv q c) {u : Fin n} (hu : u ≠ t)
    (hmutex : q.tailMutex = none ∨ q.tailMutex = some t) : (q.pc u).inTail ≠ true := by
  intro hin
  have htail := (hinv.locals u).inTail hin
  rcases hmutex with hmutex | hmutex
  · cases hmutex.symm.trans htail
  · cases hmutex.symm.trans htail
    exact hu rfl

theorem Inv.not_inHead (hinv : Inv q c) {u : Fin n} (hu : u ≠ t)
    (hmutex : q.headMutex = none ∨ q.headMutex = some t) : (q.pc u).inHead ≠ true := by
  intro hin
  have hhead := (hinv.locals u).inHead hin
  rcases hmutex with hmutex | hmutex
  · cases hmutex.symm.trans hhead
  · cases hmutex.symm.trans hhead
    exact hu rfl

/-- An event that changes nothing but a mutex that is free or that `t` has. -/
theorem Inv.move (hinv : Inv q c) {x y : Option (Fin n)} {p : Pc D}
    (hx : x = q.headMutex ∨ q.headMutex = none ∨ q.headMutex = some t)
    (hy : y = q.tailMutex ∨ q.tailMutex = none ∨ q.tailMutex = some t)
    (hlocal : LocalOk { q with headMutex := x, tailMutex := y } c t p)
    (hown : p.owned = none ∨ p.owned = (q.pc t).owned)
    (hwrite : (q.pc t).isWriteTail = false) :
    Inv ({ q with headMutex := x, tailMutex := y }.goto t p) c := by
  refine hinv.goto ⟨hinv.list.links, hinv.list.nodup, hinv.list.live, hinv.list.values⟩
    hlocal ?_ ?_ ?_ (fun u _ => hinv.owned u) hinv.safe rfl
  · intro u hu
    refine ⟨fun hin => ?_, fun hin => ?_, fun _ _ => rfl⟩
    · rcases hy with hy | hy
      · exact ⟨hy, rfl⟩
      · exact absurd hin (hinv.not_inTail hu hy)
    · rcases hx with hx | hx
      · exact ⟨hx, rfl, fun _ => rfl, fun _ _ => rfl⟩
      · exact absurd hin (hinv.not_inHead hu hx)
  · intro _ hall
    refine hinv.tail fun u => ?_
    by_cases hu : u = t
    · rw [hu]
      exact hwrite
    · exact hall u hu
  · intro i hi
    rcases hown with hown | hown
    · rw [hown] at hi
      cases hi
    · rw [hown] at hi
      exact ⟨hinv.owned t i hi, fun u hu hi' => hu (hinv.distinct u t i hi' hi)⟩

theorem get_new_of_live {h : Heap (Node D)} {x : Node D} {i : Nat} (hi : (h.get i).isSome) :
    (h.new x).get i = h.get i := by
  obtain ⟨y, hy⟩ := Option.isSome_iff_exists.mp hi
  rw [Heap.get_new, if_neg (Heap.ne_next hy)]

/-- A list is the same where its nodes are. -/
theorem ListOk.congr (h : ListOk q c) (hhead : q₁.head = q.head)
    (henq : q₁.enqueued = q.enqueued) (hdeq : q₁.dequeued = q.dequeued)
    (hheap : ∀ i ∈ q.head :: c, q₁.heap.get i = q.heap.get i) : ListOk q₁ c := by
  refine ⟨?_, by rw [hhead]; exact h.nodup, ?_, ?_⟩
  · rw [hhead]
    refine h.links.congr fun i hi => ?_
    rw [next, next, hheap i hi]
  · intro i hi
    rw [hhead] at hi
    rw [hheap i hi]
    exact h.live i hi
  · obtain ⟨rest, hrest, hvalues⟩ := h.values
    refine ⟨rest, by rw [henq, hdeq, hrest], hvalues ▸ ?_⟩
    refine List.map_congr_left fun i hi => ?_
    rw [data, data, hheap i (List.mem_cons_of_mem _ hi)]

theorem head?_mem_cons {r a : Nat} (h : c.head? = some r) : r ∈ a :: c := by
  cases c with
  | nil => cases h
  | cons b c =>
      cases h
      simp

/-- `concurrent_queue_enqueue` makes its node. -/
theorem Inv.new_node (hinv : Inv q c) (v : D) (hidle : (q.pc t).isWriteTail = false) :
    Inv ({ q with heap := q.heap.new ⟨v, none⟩ }.goto t (.lockTail q.heap.next v)) c := by
  have hnew : q.heap.get q.heap.next = none := q.heap.get_next
  have hfresh : ∀ {i : Nat}, (q.heap.get i).isSome → i ≠ q.heap.next := by
    rintro i hi rfl
    rw [hnew] at hi
    cases hi
  refine hinv.goto (hinv.list.congr rfl rfl rfl fun i hi =>
    get_new_of_live (hinv.list.live i hi)) (Heap.get_new_self ..) ?_ ?_ ?_ ?_ hinv.safe rfl
  · intro u _
    refine ⟨fun _ => ⟨rfl, rfl⟩, fun _ => ⟨rfl, rfl, fun _ => rfl, fun r hr => ?_⟩, fun i hi =>
      get_new_of_live (hinv.owned u i hi).2⟩
    show ((q.heap.new _).get r).map _ = (q.heap.get r).map _
    rw [get_new_of_live (hinv.list.live r (head?_mem_cons hr))]
  · intro _ hall
    refine hinv.tail fun u => ?_
    by_cases hu : u = t
    · rw [hu]
      exact hidle
    · exact hall u hu
  · intro i hi
    cases hi
    refine ⟨⟨fun hmem => hfresh (hinv.list.live _ hmem) rfl, ?_⟩, fun u _ hi => ?_⟩
    · show ((q.heap.new _).get _).isSome
      rw [Heap.get_new_self]
      rfl
    · exact hfresh (hinv.owned u _ hi).2 rfl
  · intro u _ i hi
    refine ⟨(hinv.owned u i hi).1, ?_⟩
    show ((q.heap.new _).get i).isSome
    rw [get_new_of_live (hinv.owned u i hi).2]
    exact (hinv.owned u i hi).2

/-- The first write of an enqueuer: its node is linked behind the last one. -/
theorem Inv.write_next (hinv : Inv q c) {node : Nat} {v : D}
    (hpc : q.pc t = .writeNext node v (c.getLastD q.head)) :
    Inv ({ q with
      heap := q.heap.modify (c.getLastD q.head) fun x => { x with next := some node }
      enqueued := q.enqueued ++ [v] }.goto t (.writeTail node v)) (c ++ [node]) := by
  have hlocal := hinv.locals t
  rw [hpc] at hlocal
  obtain ⟨hmutex, hnode, -⟩ := hlocal
  have howned : (q.pc t).owned = some node := by rw [hpc]; rfl
  have hnot : node ∉ q.head :: c := (hinv.owned t node howned).1
  have hlastMem : c.getLastD q.head ∈ q.head :: c := Links.getLastD_mem
  obtain ⟨x, hx⟩ := Option.isSome_iff_exists.mp (hinv.list.live _ hlastMem)
  generalize hz : c.getLastD q.head = z at hlastMem hx
  have hother : ∀ {i : Nat}, i ≠ z →
      (q.heap.modify z fun x => { x with next := some node }).get i = q.heap.get i :=
    fun hi => Heap.get_modify_ne _ _ hi
  have hself : (q.heap.modify z fun x => { x with next := some node }).get z =
      some { x with next := some node } := by
    rw [Heap.get_modify_self, hx]
    rfl
  have hlive : ∀ {i : Nat}, (q.heap.get i).isSome →
      ((q.heap.modify z fun x => { x with next := some node }).get i).isSome := by
    intro i hi
    by_cases hiz : i = z
    · rw [hiz, hself]
      rfl
    · rw [hother hiz]
      exact hi
  have hdata : ∀ i, ((q.heap.modify z fun x => { x with next := some node }).get i).map Node.data =
      (q.heap.get i).map Node.data := by
    intro i
    by_cases hiz : i = z
    · rw [hiz, hself, hx]
      rfl
    · rw [hother hiz]
  have hnz : node ≠ z := by
    rintro rfl
    exact hnot hlastMem
  refine hinv.goto ⟨?_, ?_, ?_, ?_⟩ ⟨hmutex, by rw [List.getLastD_concat]⟩ ?_
    (fun h => absurd h (by simp [Pc.isWriteTail])) (fun i hi => absurd hi (by simp [Pc.owned]))
    ?_ hinv.safe rfl
  · -- the node becomes the last one of the list
    refine hinv.list.links.push hinv.list.nodup ?_ ?_ fun i _ hi => ?_
    · show ((q.heap.modify z _).get _).bind _ = _
      rw [hz, hself]
      rfl
    · show ((q.heap.modify z _).get _).bind _ = _
      rw [hother hnz, hnode]
      rfl
    · show ((q.heap.modify z _).get _).bind _ = (q.heap.get i).bind _
      rw [hother (by rw [← hz]; exact hi)]
  · rw [← List.cons_append]
    refine List.nodup_append.mpr ⟨hinv.list.nodup, List.nodup_singleton node, fun i hi j hj => ?_⟩
    rw [List.mem_singleton.mp hj]
    rintro rfl
    exact hnot hi
  · intro i hi
    rw [← List.cons_append] at hi
    rcases List.mem_append.mp hi with hi | hi
    · exact hlive (hinv.list.live i hi)
    · rw [List.mem_singleton.mp hi]
      exact hlive (by rw [hnode]; rfl)
  · -- and its value the last one enqueued
    obtain ⟨rest, hrest, hvalues⟩ := hinv.list.values
    refine ⟨rest ++ [v], ?_, ?_⟩
    · show q.enqueued ++ [v] = q.dequeued ++ (rest ++ [v])
      rw [hrest, List.append_assoc]
    · rw [List.map_append, List.map_append, ← hvalues]
      congr 1
      · exact List.map_congr_left fun i _ => hdata i
      · show [((q.heap.modify z _).get node).map _] = [some v]
        rw [hdata, hnode]
        rfl
  · intro u hu
    refine ⟨fun hin => absurd hin (hinv.not_inTail hu (Or.inr hmutex)), fun _ =>
      ⟨rfl, rfl, fun hc => ?_, fun r _ => hdata r⟩, fun i hi => hother ?_⟩
    · cases c with
      | nil => exact absurd rfl hc
      | cons a c => rfl
    · rintro rfl
      exact (hinv.owned u _ hi).1 hlastMem
  · -- the nodes of other threads are other nodes
    intro u hu i hi
    obtain ⟨hmem, hsome⟩ := hinv.owned u i hi
    refine ⟨?_, hlive hsome⟩
    show i ∉ q.head :: (c ++ [node])
    rw [← List.cons_append, List.mem_append, List.mem_singleton, not_or]
    refine ⟨hmem, ?_⟩
    rintro rfl
    exact hu (hinv.distinct u t _ hi howned)

/-- The second write of an enqueuer. -/
theorem Inv.write_tail (hinv : Inv q c) {node : Nat} {v : D} (hpc : q.pc t = .writeTail node v) :
    Inv ({ q with tail := node }.goto t (.unlockTail v)) c := by
  have hlocal := hinv.locals t
  rw [hpc] at hlocal
  exact hinv.goto ⟨hinv.list.links, hinv.list.nodup, hinv.list.live, hinv.list.values⟩
    hlocal.1 (fun u _ => ⟨fun _ => ⟨rfl, rfl⟩, fun _ => ⟨rfl, rfl, fun _ => rfl, fun _ _ => rfl⟩,
      fun _ _ => rfl⟩) (fun _ _ => hlocal.2) (fun i hi => absurd hi (by simp [Pc.owned]))
    (fun u _ => hinv.owned u) hinv.safe rfl

/-- A dequeuer makes the first node the dummy. -/
theorem Inv.write_head (hinv : Inv q c) {b : Bool} {dummy resultNode : Nat} {v : D}
    (hpc : q.pc t = .writeHead b dummy resultNode v) :
    ∃ c', Inv ({ q with head := resultNode, dequeued := q.dequeued ++ [v] }.goto t
      (.unlockHead b dummy v)) c' := by
  have hlocal := hinv.locals t
  rw [hpc] at hlocal
  obtain ⟨hmutex, rfl, hfirst, hdata⟩ := hlocal
  cases c with
  | nil => cases hfirst
  | cons r c =>
      cases hfirst
      have hnodup := List.nodup_cons.mp hinv.list.nodup
      refine ⟨c, hinv.goto ⟨hinv.list.links.2, hnodup.2, fun i hi =>
        hinv.list.live i (List.mem_cons_of_mem _ hi), ?_⟩ hmutex ?_ ?_ ?_ ?_ hinv.safe rfl⟩
      · obtain ⟨rest, hrest, hvalues⟩ := hinv.list.values
        cases rest with
        | nil => cases hvalues
        | cons w rest =>
            rw [List.map_cons, List.map_cons, hdata] at hvalues
            obtain ⟨hvw, hrestValues⟩ := List.cons.inj hvalues
            cases hvw
            refine ⟨rest, ?_, hrestValues⟩
            show q.enqueued = q.dequeued ++ [v] ++ rest
            rw [hrest, List.append_assoc]
            rfl
      · intro u hu
        exact ⟨fun _ => ⟨rfl, (List.getLastD_cons ..).symm⟩,
          fun hin => absurd hin (hinv.not_inHead hu (Or.inr hmutex)), fun _ _ => rfl⟩
      · intro _ hall
        refine (hinv.tail fun u => ?_).trans (List.getLastD_cons ..)
        by_cases hu : u = t
        · rw [hu, hpc]
          rfl
        · exact hall u hu
      · intro i hi
        cases hi
        refine ⟨⟨hnodup.1, hinv.list.live _ List.mem_cons_self⟩, fun u _ hi => ?_⟩
        exact (hinv.owned u _ hi).1 List.mem_cons_self
      · intro u _ i hi
        obtain ⟨hmem, hsome⟩ := hinv.owned u i hi
        exact ⟨fun h => hmem (List.mem_cons_of_mem _ h), hsome⟩

/-- A dequeuer frees the old dummy. -/
theorem Inv.free_dummy (hinv : Inv q c) {b : Bool} {dummy : Nat} {v : D}
    (hpc : q.pc t = .freeDummy b dummy v) :
    Inv ({ q with heap := q.heap.delete dummy }.goto t .idle) c := by
  have howned : (q.pc t).owned = some dummy := by rw [hpc]; rfl
  have hnot := (hinv.owned t dummy howned).1
  have hlist : ∀ {i : Nat}, i ∈ q.head :: c → (q.heap.delete dummy).get i = q.heap.get i := by
    intro i hi
    refine Heap.get_delete_ne _ ?_
    rintro rfl
    exact hnot hi
  have hother : ∀ {u : Fin n}, u ≠ t → ∀ {i : Nat}, (q.pc u).owned = some i →
      (q.heap.delete dummy).get i = q.heap.get i := by
    intro u hu i hi
    refine Heap.get_delete_ne _ ?_
    rintro rfl
    exact hu (hinv.distinct u t _ hi howned)
  refine hinv.goto (hinv.list.congr rfl rfl rfl fun i hi => hlist hi) trivial ?_ ?_
    (fun i hi => absurd hi (by simp [Pc.owned])) ?_ hinv.safe rfl
  · intro u hu
    refine ⟨fun _ => ⟨rfl, rfl⟩, fun _ => ⟨rfl, rfl, fun _ => rfl, fun r hr => ?_⟩, fun i hi =>
      hother hu hi⟩
    show ((q.heap.delete dummy).get r).map _ = (q.heap.get r).map _
    rw [hlist (head?_mem_cons hr)]
  · intro _ hall
    refine hinv.tail fun u => ?_
    by_cases hu : u = t
    · rw [hu, hpc]
      rfl
    · exact hall u hu
  · intro u hu i hi
    obtain ⟨hmem, hsome⟩ := hinv.owned u i hi
    refine ⟨hmem, ?_⟩
    show ((q.heap.delete dummy).get i).isSome
    rw [hother hu hi]
    exact hsome

/-- What has been returned is not looked at. -/
theorem Inv.history (hinv : Inv q c) (finished : List D) (answers : List (Answer D)) :
    Inv { q with finished := finished, answers := answers } c where
  list := ⟨hinv.list.links, hinv.list.nodup, hinv.list.live, hinv.list.values⟩
  locals := fun u => by
    have hlocal := hinv.locals u
    show LocalOk _ c u (q.pc u)
    cases hpc : q.pc u <;> rw [hpc] at hlocal <;> exact hlocal
  tail := hinv.tail
  owned := hinv.owned
  distinct := hinv.distinct
  safe := hinv.safe

/-! ## What a thread does next -/

theorem Inv.run_lockTail (hinv : Inv q c) {node : Nat} {v : D} (hpc : q.pc t = .lockTail node v)
    (h : q.run t = some q₁) : ∃ c', Inv q₁ c' := by
  have hlocal := hinv.locals t
  rw [hpc] at hlocal
  simp only [ConcurrentQueue.run, hpc] at h
  split at h
  · rename_i hfree
    cases h
    exact ⟨c, hinv.move (Or.inl rfl) (Or.inr (Or.inl hfree)) ⟨rfl, hlocal⟩
      (Or.inr (by rw [hpc]; rfl)) (by rw [hpc]; rfl)⟩
  · cases h

theorem Inv.run_readTail (hinv : Inv q c) {node : Nat} {v : D} (hpc : q.pc t = .readTail node v)
    (h : q.run t = some q₁) : ∃ c', Inv q₁ c' := by
  have hlocal := hinv.locals t
  rw [hpc] at hlocal
  simp only [ConcurrentQueue.run, hpc, Option.some.injEq] at h
  subst h
  -- no other thread is between its two writes
  have htail : q.tail = c.getLastD q.head := by
    refine hinv.tail fun u => ?_
    by_cases hu : u = t
    · rw [hu, hpc]
      rfl
    · cases hw : (q.pc u).isWriteTail with
      | false => rfl
      | true =>
          refine absurd ?_ (hinv.not_inTail hu (Or.inr hlocal.1))
          cases hpu : q.pc u <;> rw [hpu] at hw <;> first | rfl | cases hw
  exact ⟨c, hinv.move (Or.inl rfl) (Or.inl rfl) ⟨hlocal.1, hlocal.2, htail⟩
    (Or.inr (by rw [hpc]; rfl)) (by rw [hpc]; rfl)⟩

theorem Inv.run_writeNext (hinv : Inv q c) {node tail : Nat} {v : D}
    (hpc : q.pc t = .writeNext node v tail) (h : q.run t = some q₁) : ∃ c', Inv q₁ c' := by
  have hlocal := hinv.locals t
  rw [hpc] at hlocal
  obtain ⟨-, -, rfl⟩ := hlocal
  obtain ⟨x, hx⟩ := Option.isSome_iff_exists.mp (hinv.list.live _ Links.getLastD_mem)
  simp only [ConcurrentQueue.run, hpc, hx, Option.some.injEq] at h
  subst h
  exact ⟨_, hinv.write_next hpc⟩

theorem Inv.run_unlockTail (hinv : Inv q c) {v : D} (hpc : q.pc t = .unlockTail v)
    (h : q.run t = some q₁) : ∃ c', Inv q₁ c' := by
  have hlocal := hinv.locals t
  rw [hpc] at hlocal
  simp only [ConcurrentQueue.run, hpc, Option.some.injEq] at h
  subst h
  exact ⟨c, hinv.move (Or.inl rfl) (Or.inr (Or.inr hlocal)) trivial (Or.inl rfl)
    (by rw [hpc]; rfl)⟩

/-- A dequeuer gets `head_mutex`, at first or after its wait. -/
theorem Inv.lock_head (hinv : Inv q c) (b : Bool) (hfree : q.headMutex = none)
    (hwrite : (q.pc t).isWriteTail = false) :
    Inv ({ q with headMutex := some t }.goto t (.readHead b)) c :=
  hinv.move (Or.inr (Or.inl hfree)) (Or.inl rfl) rfl (Or.inl rfl) hwrite

theorem Inv.run_readHead (hinv : Inv q c) {b : Bool} (hpc : q.pc t = .readHead b)
    (h : q.run t = some q₁) : ∃ c', Inv q₁ c' := by
  have hlocal := hinv.locals t
  rw [hpc] at hlocal
  simp only [ConcurrentQueue.run, hpc, Option.some.injEq] at h
  subst h
  exact ⟨c, hinv.move (Or.inl rfl) (Or.inl rfl) ⟨hlocal, rfl⟩ (Or.inl rfl) (by rw [hpc]; rfl)⟩

theorem Inv.run_testNext (hinv : Inv q c) {b : Bool} {head : Nat} (hpc : q.pc t = .testNext b head)
    (h : q.run t = some q₁) : ∃ c', Inv q₁ c' := by
  have hlocal := hinv.locals t
  rw [hpc] at hlocal
  obtain ⟨hmutex, rfl⟩ := hlocal
  obtain ⟨x, hx⟩ := Option.isSome_iff_exists.mp (hinv.list.live _ List.mem_cons_self)
  simp only [ConcurrentQueue.run, hpc, hx] at h
  have hfirst : x.next = c.head?.or none := by
    have := hinv.list.links.first
    rwa [next, hx] at this
  cases hnext : x.next with
  | none =>
      rw [hnext] at h
      cases h
      refine ⟨c, hinv.move (Or.inl rfl) (Or.inl rfl) ?_ ?_ (by rw [hpc]; rfl)⟩
      · cases b <;> exact hmutex
      · cases b <;> exact Or.inl rfl
  | some i =>
      rw [hnext] at h
      cases h
      refine ⟨c, hinv.move (Or.inl rfl) (Or.inl rfl) ⟨hmutex, ?_⟩ (Or.inl rfl)
        (by rw [hpc]; rfl)⟩
      rintro rfl
      rw [hnext] at hfirst
      cases hfirst

/-- `head_mutex` is released, and nothing is kept. -/
theorem Inv.unlock_head (hinv : Inv q c) {p : Pc D} (hmutex : q.headMutex = some t)
    (hp : LocalOk { q with headMutex := none } c t p)
    (hown : p.owned = none ∨ p.owned = (q.pc t).owned) (hwrite : (q.pc t).isWriteTail = false) :
    Inv ({ q with headMutex := none }.goto t p) c :=
  hinv.move (Or.inr (Or.inr hmutex)) (Or.inl rfl) hp hown hwrite

theorem Inv.run_readDummy (hinv : Inv q c) {b : Bool} (hpc : q.pc t = .readDummy b)
    (h : q.run t = some q₁) : ∃ c', Inv q₁ c' := by
  have hlocal := hinv.locals t
  rw [hpc] at hlocal
  simp only [ConcurrentQueue.run, hpc, Option.some.injEq] at h
  subst h
  exact ⟨c, hinv.move (Or.inl rfl) (Or.inl rfl) ⟨hlocal.1, rfl, hlocal.2⟩ (Or.inl rfl)
    (by rw [hpc]; rfl)⟩

theorem Inv.run_readNext (hinv : Inv q c) {b : Bool} {dummy : Nat}
    (hpc : q.pc t = .readNext b dummy) (h : q.run t = some q₁) : ∃ c', Inv q₁ c' := by
  have hlocal := hinv.locals t
  rw [hpc] at hlocal
  obtain ⟨hmutex, rfl, hc⟩ := hlocal
  cases c with
  | nil => exact absurd rfl hc
  | cons r c =>
      have hnext : (q.heap.get q.head).bind Node.next = some r := hinv.list.links.1
      simp only [ConcurrentQueue.run, hpc, hnext, Option.some.injEq] at h
      subst h
      exact ⟨_, hinv.move (Or.inl rfl) (Or.inl rfl) ⟨hmutex, rfl, rfl⟩ (Or.inl rfl)
        (by rw [hpc]; rfl)⟩

theorem Inv.run_readData (hinv : Inv q c) {b : Bool} {dummy r : Nat}
    (hpc : q.pc t = .readData b dummy r) (h : q.run t = some q₁) : ∃ c', Inv q₁ c' := by
  have hlocal := hinv.locals t
  rw [hpc] at hlocal
  obtain ⟨hmutex, hdummy, hfirst⟩ := hlocal
  obtain ⟨x, hx⟩ := Option.isSome_iff_exists.mp (hinv.list.live r (head?_mem_cons hfirst))
  simp only [ConcurrentQueue.run, hpc, hx, Option.some.injEq] at h
  subst h
  refine ⟨c, hinv.move (Or.inl rfl) (Or.inl rfl) ⟨hmutex, hdummy, hfirst, ?_⟩ (Or.inl rfl)
    (by rw [hpc]; rfl)⟩
  show (q.heap.get r).map Node.data = some x.data
  rw [hx]
  rfl

theorem Inv.run_freeDummy (hinv : Inv q c) {b : Bool} {dummy : Nat} {v : D}
    (hpc : q.pc t = .freeDummy b dummy v) (h : q.run t = some q₁) : ∃ c', Inv q₁ c' := by
  obtain ⟨x, hx⟩ := Option.isSome_iff_exists.mp (hinv.owned t dummy (by rw [hpc]; rfl)).2
  simp only [ConcurrentQueue.run, hpc, hx, Option.some.injEq] at h
  subst h
  exact ⟨c, (hinv.free_dummy hpc).history q.finished _⟩

/-- What a thread does next keeps the invariant, and does not fault. -/
theorem Inv.run (hinv : Inv q c) (h : q.run t = some q₁) : ∃ c', Inv q₁ c' := by
  have hlocal := hinv.locals t
  cases hpc : q.pc t with
  | idle | signal | waiting => simp only [ConcurrentQueue.run, hpc, reduceCtorEq] at h
  | lockTail node v => exact hinv.run_lockTail hpc h
  | readTail node v => exact hinv.run_readTail hpc h
  | writeNext node v tail => exact hinv.run_writeNext hpc h
  | writeTail node v =>
      simp only [ConcurrentQueue.run, hpc, Option.some.injEq] at h
      subst h
      exact ⟨c, hinv.write_tail hpc⟩
  | unlockTail v => exact hinv.run_unlockTail hpc h
  | lockHead b =>
      simp only [ConcurrentQueue.run, hpc] at h
      split at h
      · rename_i hfree
        cases h
        exact ⟨c, hinv.lock_head b hfree (by rw [hpc]; rfl)⟩
      · cases h
  | readHead b => exact hinv.run_readHead hpc h
  | testNext b head => exact hinv.run_testNext hpc h
  | wait =>
      rw [hpc] at hlocal
      simp only [ConcurrentQueue.run, hpc, Option.some.injEq] at h
      subst h
      exact ⟨c, hinv.unlock_head hlocal trivial (Or.inl rfl) (by rw [hpc]; rfl)⟩
  | woken =>
      simp only [ConcurrentQueue.run, hpc] at h
      split at h
      · rename_i hfree
        cases h
        exact ⟨c, hinv.lock_head true hfree (by rw [hpc]; rfl)⟩
      · cases h
  | unlockEmpty =>
      rw [hpc] at hlocal
      simp only [ConcurrentQueue.run, hpc, Option.some.injEq] at h
      subst h
      have hunlocked := hinv.unlock_head (p := .idle) hlocal trivial (Or.inl rfl)
        (by rw [hpc]; rfl)
      exact ⟨c, hunlocked.history q.finished _⟩
  | readDummy b => exact hinv.run_readDummy hpc h
  | readNext b dummy => exact hinv.run_readNext hpc h
  | readData b dummy r => exact hinv.run_readData hpc h
  | writeHead b dummy r v =>
      simp only [ConcurrentQueue.run, hpc, Option.some.injEq] at h
      subst h
      exact hinv.write_head hpc
  | unlockHead b dummy v =>
      rw [hpc] at hlocal
      simp only [ConcurrentQueue.run, hpc, Option.some.injEq] at h
      subst h
      exact ⟨c, hinv.unlock_head hlocal trivial (Or.inr (by rw [hpc]; rfl)) (by rw [hpc]; rfl)⟩
  | freeDummy b dummy v => exact hinv.run_freeDummy hpc h

/-! ## Runs -/

/-- A thread that waits wakes up. -/
theorem Inv.wake (hinv : Inv q c) (hwait : (q.pc t).isWaiting = true) :
    Inv (q.goto t .woken) c := by
  refine hinv.move (Or.inl rfl) (Or.inl rfl) trivial (Or.inl rfl) ?_
  cases hpc : q.pc t <;> rw [hpc] at hwait <;> first | rfl | cases hwait

/-- A call of `concurrent_queue_enqueue` returns. -/
theorem Inv.finish (hinv : Inv q c) {v : D} (hwrite : (q.pc t).isWriteTail = false) :
    Inv (q.finish t v) c := by
  have hidle : Inv (q.goto t .idle) c :=
    hinv.move (Or.inl rfl) (Or.inl rfl) trivial (Or.inl rfl) hwrite
  exact hidle.history _ q.answers

theorem Inv.step {e : Event n D} (hinv : Inv q c) (h : q.step e = some q₁) : ∃ c', Inv q₁ c' := by
  cases e with
  | enqueue t v =>
      rw [ConcurrentQueue.step] at h
      split at h
      · rename_i hpc
        cases h
        exact ⟨c, hinv.new_node v (by rw [hpc]; rfl)⟩
      · cases h
  | dequeue t =>
      rw [ConcurrentQueue.step] at h
      split at h
      · rename_i hpc
        cases h
        exact ⟨c, hinv.move (Or.inl rfl) (Or.inl rfl) trivial (Or.inl rfl) (by rw [hpc]; rfl)⟩
      · cases h
  | tryDequeue t =>
      rw [ConcurrentQueue.step] at h
      split at h
      · rename_i hpc
        cases h
        exact ⟨c, hinv.move (Or.inl rfl) (Or.inl rfl) trivial (Or.inl rfl) (by rw [hpc]; rfl)⟩
      · cases h
  | run t => exact hinv.run h
  | signal t wakes =>
      cases hpc : q.pc t with
      | signal v =>
          simp only [ConcurrentQueue.step, hpc] at h
          cases wakes with
          | some u =>
              dsimp only at h
              split at h
              · rename_i hwait
                cases h
                have hne : t ≠ u := by
                  rintro rfl
                  rw [hpc] at hwait
                  cases hwait
                exact ⟨c, (hinv.wake hwait).finish (by rw [q.goto_pc_of_ne hne, hpc]; rfl)⟩
              · cases h
          | none =>
              dsimp only at h
              split at h
              · cases h
                exact ⟨c, hinv.finish (by rw [hpc]; rfl)⟩
              · cases h
      | _ =>
          simp only [ConcurrentQueue.step, hpc] at h
          cases h
  | spurious t =>
      rw [ConcurrentQueue.step] at h
      split at h
      · rename_i hwait
        cases h
        exact ⟨c, hinv.wake hwait⟩
      · cases h

theorem init_inv (n : Nat) (null : D) : Inv (init n null) [] := by
  refine ⟨⟨rfl, List.nodup_singleton 0, ?_, [], rfl, rfl⟩, fun _ => trivial, fun _ => rfl, ?_, ?_,
    rfl⟩
  · intro i hi
    rw [List.mem_singleton.mp hi]
    rfl
  · intro t i hi
    cases hi
  · intro t u i hi
    cases hi

theorem run_inv {null : D} {es : List (Event n D)}
    (h : Run (fun q e q' => q.step e = some q') (init n null) es q) : ∃ c, Inv q c :=
  h.state_inv (I := fun q => ∃ c, Inv q c) ⟨[], init_inv n null⟩
    fun _ _ _ ⟨_, hinv⟩ hstep => hinv.step hstep

end ConcurrentQueue

/-- In every interleaving the values dequeued are the first ones enqueued, the others are in
the list, every value brought and every value returned is one of them, once, and no node is used
after it was freed. -/
theorem concurrentQueue_fifo {null : D} {es : List (Event n D)} {q : ConcurrentQueue n D}
    (h : Run (fun q e q' => q.step e = some q') (ConcurrentQueue.init n null) es q) :
    q.dequeued <+: q.enqueued ∧
    (∃ c rest, Links q.next q.head c none ∧ c.map q.data = rest.map some ∧
      q.enqueued = q.dequeued ++ rest) ∧
    q.Answered es ∧ q.fault = false := by
  obtain ⟨c, hinv⟩ := ConcurrentQueue.run_inv h
  obtain ⟨rest, hrest, hvalues⟩ := hinv.list.values
  exact ⟨⟨rest, hrest.symm⟩, ⟨c, rest, hinv.list.links, hvalues, hrest⟩,
    ConcurrentQueue.run_answered h, hinv.safe⟩

/-- Thread 1 takes the value and frees the old dummy while thread 0 is between its two
writes. Then the queue is empty. -/
theorem concurrentQueue_fifo_overlap :
    ∃ q : ConcurrentQueue 2 Nat,
      Run (fun q e q' => q.step e = some q') (ConcurrentQueue.init 2 0)
        [.enqueue 0 7, .run 0, .run 0, .run 0, .dequeue 1, .run 1, .run 1, .run 1, .run 1, .run 1,
          .run 1, .run 1, .run 1, .run 1, .run 0, .run 0, .signal 0 none, .tryDequeue 0, .run 0,
          .run 0, .run 0, .run 0] q ∧
      q.enqueued = [7] ∧ q.finished = [7] ∧ q.answers = [.value 7, .empty] ∧
      q.dequeued <+: q.enqueued ∧
      (∃ c rest, Links q.next q.head c none ∧ c.map q.data = rest.map some ∧
        q.enqueued = q.dequeued ++ rest) ∧
      q.Answered [.enqueue 0 7, .run 0, .run 0, .run 0, .dequeue 1, .run 1, .run 1, .run 1, .run 1,
        .run 1, .run 1, .run 1, .run 1, .run 1, .run 0, .run 0, .signal 0 none, .tryDequeue 0,
        .run 0, .run 0, .run 0, .run 0] ∧ q.fault = false := by
  have hexec : ((Run.exec (fun (q : ConcurrentQueue 2 Nat) e => q.step e) (fun _ _ => True)
      (ConcurrentQueue.init 2 0)
      [.enqueue 0 7, .run 0, .run 0, .run 0, .dequeue 1, .run 1, .run 1, .run 1, .run 1, .run 1,
        .run 1, .run 1, .run 1, .run 1, .run 0, .run 0, .signal 0 none, .tryDequeue 0, .run 0,
        .run 0, .run 0, .run 0]).map fun q => (q.enqueued, q.finished, q.answers)) =
      some ([7], [7], [.value 7, .empty]) := by
    decide +kernel
  obtain ⟨q, hq, hres⟩ := Option.map_eq_some_iff.mp hexec
  obtain ⟨henqueued, hres⟩ := Prod.mk.inj hres
  obtain ⟨hfinished, hanswers⟩ := Prod.mk.inj hres
  have hrun := (Run.of_exec hq).imp fun _ _ _ h => h.1
  exact ⟨q, hrun, henqueued, hfinished, hanswers, concurrentQueue_fifo hrun⟩

end Ccbase.Libc

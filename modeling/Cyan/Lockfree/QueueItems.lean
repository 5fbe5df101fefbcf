import Cyan.Lockfree.QueueEffect

/-!
# Where every enqueued item is

An item is a call of `enqueue` or `emplace`, identified by its number.  At any
moment an item is in exactly one place: still with its call, in a constructed
node, with the dequeue that took it, or returned.  `Places` states this with a
function from items to places, so that uniqueness needs no separate proof, and
`Places.effect` shows that every step moves at most one item.
-/

namespace Cyan
namespace Lockfree
namespace Queue

variable {Thread P T : Type*}

/-! ## What the trace says about items -/

/-- The item and value of a call. -/
def Event.called : Event T → Option (Nat × T)
  | .callEnqueue op value => some (op, value)
  | _ => none

/-- The item and value of a successful return of `try_dequeue`. -/
def Event.delivered : Event T → Option (Nat × T)
  | .retDequeue _ (some item) value => some (item, value)
  | _ => none

/-- The calls of `enqueue` and `emplace`, newest first. -/
def calls (tr : List (Event T)) : List (Nat × T) :=
  tr.filterMap Event.called

/-- The values that successful calls of `try_dequeue` have returned. -/
def deliveries (tr : List (Event T)) : List (Nat × T) :=
  tr.filterMap Event.delivered

theorem calls_cons (e : Event T) (tr : List (Event T)) :
    calls (e :: tr) = e.called.toList ++ calls tr := by
  cases h : e.called with
  | none => exact List.filterMap_cons_none h
  | some x => exact List.filterMap_cons_some h

theorem deliveries_cons (e : Event T) (tr : List (Event T)) :
    deliveries (e :: tr) = e.delivered.toList ++ deliveries tr := by
  cases h : e.delivered with
  | none => exact List.filterMap_cons_none h
  | some x => exact List.filterMap_cons_some h

/-- Every call is numbered by the length of the trace in front of it. -/
def Numbered : List (Event T) → Prop
  | [] => True
  | e :: tr => (∀ x, e.called = some x → x.1 = tr.length) ∧ Numbered tr

theorem Numbered.lt {tr : List (Event T)} (h : Numbered tr) {x : Nat × T}
    (hmem : x ∈ calls tr) : x.1 < tr.length := by
  induction tr with
  | nil => cases hmem
  | cons e tr ih =>
      obtain ⟨hop, htr⟩ := h
      rw [calls_cons] at hmem
      rcases List.mem_append.mp hmem with hnew | hold
      · rw [hop x (Option.mem_toList.mp hnew)]
        exact Nat.lt_succ_self _
      · exact Nat.lt_succ_of_lt (ih htr hold)

/-- No two calls have the same number. -/
theorem Numbered.nodup {tr : List (Event T)} (h : Numbered tr) :
    ((calls tr).map Prod.fst).Nodup := by
  induction tr with
  | nil => exact List.nodup_nil
  | cons e tr ih =>
      obtain ⟨hop, htr⟩ := h
      rw [calls_cons]
      cases he : e.called with
      | none => exact ih htr
      | some x =>
          refine List.nodup_cons.mpr ⟨fun hmem => ?_, ih htr⟩
          obtain ⟨y, hy, hyx⟩ := List.mem_map.mp hmem
          have hlt := htr.lt hy
          rw [hyx, hop x he] at hlt
          exact Nat.lt_irrefl _ hlt

/-- A call has one value. -/
theorem Numbered.value_unique {tr : List (Event T)} (h : Numbered tr) {op : Nat}
    {v w : T} (hv : (op, v) ∈ calls tr) (hw : (op, w) ∈ calls tr) : v = w := by
  have := List.inj_on_of_nodup_map h.nodup hv hw rfl
  exact (Prod.mk.inj this).2

/-! ## Places -/

/-- Where an item is. -/
inductive Place (Thread P : Type*)
  | absent
  | asked (t : Thread)
  | node (p : P)
  | taken (t : Thread)
  | returned

/-- The node carries an item: it has been constructed and is not the dummy. -/
def Carries (s : State Thread P T) (sh : Shape Thread P) (p : P) : Prop :=
  (∃ o, sh.loc p = .linked o) ∧ s.head.ptr ≠ some p

/-- The enqueue still has the item to itself. -/
def Phase.Asking (op : Nat) : Phase P T → Prop
  | .asking op' _ => op' = op
  | .raw op' _ _ => op' = op
  | _ => False

/-- The dequeue has taken the item and not returned yet. -/
def Phase.Holding (op : Nat) : Phase P T → Prop
  | .won _ _ item _ => item = op
  | _ => False

/-- Item `op` is at a place. -/
def ItemAt (s : State Thread P T) (sh : Shape Thread P) (op : Nat) :
    Place Thread P → Prop
  | .absent => ∀ v, (op, v) ∉ calls s.trace
  | .asked t => (phases s t).Asking op
  | .node p => Carries s sh p ∧ (s.heap p).op = op
  | .taken t => (phases s t).Holding op
  | .returned => op ∈ (deliveries s.trace).map Prod.fst

/-- Every item is where `place` says, and nowhere else. -/
structure Places (s : State Thread P T) (sh : Shape Thread P)
    (place : Nat → Place Thread P) : Prop where
  numbered : Numbered s.trace
  itemAt : ∀ op pl, place op = pl ↔ ItemAt s sh op pl
  once : ((deliveries s.trace).map Prod.fst).Nodup

variable [DecidableEq Thread] [DecidableEq P]
variable {s s' : State Thread P T} {sh sh' : Shape Thread P}

section

omit [DecidableEq Thread] [DecidableEq P]

/-- A constructed node of a chain that is not first on the chain of `head_`
carries an item. -/
theorem Inv.carries_iff (hinv : Inv s sh) {p : P} :
    Carries s sh p ↔ (∃ o, p ∈ sh.chain o) ∧ s.head.ptr ≠ some p := by
  unfold Carries
  simp only [hinv.global.mem_chain]

/-- The second node of the queue carries an item. -/
theorem Inv.carries_second (hinv : Inv s sh) {h x : P} {rest : List P}
    (hchain : sh.chain none = h :: x :: rest) : Carries s sh x := by
  have hpath := hinv.global.path none
  have hnodup := hpath.nodup
  rw [hchain] at hpath hnodup
  refine hinv.carries_iff.mpr ⟨⟨none, by rw [hchain]; simp⟩, ?_⟩
  rw [show s.head.ptr = some h from hpath.1]
  rintro heq
  cases heq
  exact (List.nodup_cons.mp hnodup).1 List.mem_cons_self

end

/-- The step does not touch any item: it neither starts nor returns one, and no
thread gets or gives up one. -/
structure Steady (s s' : State Thread P T) : Prop where
  numbered : Numbered s.trace → Numbered s'.trace
  calls : calls s'.trace = calls s.trace
  deliveries : deliveries s'.trace = deliveries s.trace
  asking : ∀ u op, (phases s' u).Asking op ↔ (phases s u).Asking op
  holding : ∀ u op, (phases s' u).Holding op ↔ (phases s u).Holding op

omit [DecidableEq P] in
/-- A step of one thread between phases with the same claim to an item, which
appends only events that concern no item, is steady. -/
theorem Steady.of_phase {t : Thread} {k k' : Phase P T} {l : List (Event T)}
    (hphase : phases s t = k)
    (hphases : phases s' = Function.update (phases s) t k')
    (hask : ∀ op, k'.Asking op ↔ k.Asking op)
    (hhold : ∀ op, k'.Holding op ↔ k.Holding op)
    (htrace : s'.trace = l ++ s.trace)
    (htr : ∀ e ∈ l, e.called = none ∧ e.delivered = none) : Steady s s' := by
  have hitems : (Numbered s.trace → Numbered s'.trace) ∧
      Queue.calls s'.trace = Queue.calls s.trace ∧
      Queue.deliveries s'.trace = Queue.deliveries s.trace := by
    rw [htrace]
    clear htrace
    induction l with
    | nil => exact ⟨id, rfl, rfl⟩
    | cons e l ih =>
        obtain ⟨h₁, h₂, h₃⟩ := ih fun e he => htr e (List.mem_cons_of_mem _ he)
        obtain ⟨hc, hd⟩ := htr e List.mem_cons_self
        refine ⟨fun h => ⟨fun x hx => ?_, h₁ h⟩, ?_, ?_⟩
        · rw [hc] at hx
          cases hx
        · rw [List.cons_append, calls_cons, hc, h₂]
          rfl
        · rw [List.cons_append, deliveries_cons, hd, h₃]
          rfl
  refine ⟨hitems.1, hitems.2.1, hitems.2.2, fun u op => ?_, fun u op => ?_⟩
  · rw [hphases]
    by_cases hu : u = t
    · subst hu
      rw [Function.update_self, hphase]
      exact hask op
    · rw [Function.update_of_ne hu]
  · rw [hphases]
    by_cases hu : u = t
    · subst hu
      rw [Function.update_self, hphase]
      exact hhold op
    · rw [Function.update_of_ne hu]

omit [DecidableEq Thread] [DecidableEq P] in
theorem carries_congr (hloc : ∀ p, (∃ o, sh'.loc p = .linked o) ↔
    ∃ o, sh.loc p = .linked o) (hhead : s'.head = s.head) (p : P) :
    Carries s' sh' p ↔ Carries s sh p := by
  rw [Carries, Carries, hhead, hloc]

omit [DecidableEq Thread] in
/-- A node that goes from one place outside the chains to another is as little
linked as before. -/
theorem linked_update {loc : P → Loc Thread} {n : P} {l : Loc Thread}
    (hold : ∀ o, loc n ≠ .linked o) (hnew : ∀ o, l ≠ .linked o) (p : P) :
    (∃ o, Function.update loc n l p = .linked o) ↔ ∃ o, loc p = .linked o := by
  by_cases hp : p = n
  · subst hp
    rw [Function.update_self]
    constructor
    · rintro ⟨o, ho⟩
      exact absurd ho (hnew o)
    · rintro ⟨o, ho⟩
      exact absurd ho (hold o)
  · rw [Function.update_of_ne hp]

/-- Linking a chain behind another one does not change which nodes are
linked. -/
theorem linked_link (hinv : Inv s sh) (t : Thread) (o : Option Thread) (p : P) :
    (∃ o', (sh.link t o).loc p = .linked o') ↔ ∃ o', sh.loc p = .linked o' := by
  by_cases hp : p ∈ sh.chain (some t)
  · have h₁ : (sh.link t o).loc p = .linked o := if_pos hp
    have h₂ := (hinv.global.mem_chain _ p).mp hp
    exact ⟨fun _ => ⟨_, h₂⟩, fun _ => ⟨_, h₁⟩⟩
  · rw [show (sh.link t o).loc p = sh.loc p from if_neg hp]

section

omit [DecidableEq Thread] [DecidableEq P]

/-- A steady step that leaves the constructed nodes and their marks alone keeps
all places. -/
theorem Places.steady {place : Nat → Place Thread P} (h : Places s sh place)
    (hsteady : Steady s s')
    (hloc : ∀ p, (∃ o, sh'.loc p = .linked o) ↔ ∃ o, sh.loc p = .linked o)
    (hhead : s'.head = s.head) (hop : ∀ p, (s'.heap p).op = (s.heap p).op) :
    ∃ place', Places s' sh' place' := by
  refine ⟨place, hsteady.numbered h.numbered, fun op pl => ?_, ?_⟩
  · rw [h.itemAt]
    cases pl with
    | absent => rw [ItemAt, ItemAt, hsteady.calls]
    | asked t => exact (hsteady.asking t op).symm
    | node p => rw [ItemAt, ItemAt, carries_congr hloc hhead, hop]
    | taken t => exact (hsteady.holding t op).symm
    | returned => rw [ItemAt, ItemAt, hsteady.deliveries]
  · rw [hsteady.deliveries]
    exact h.once

/-- A step that moves one item and nothing else. -/
theorem Places.move {place : Nat → Place Thread P} {i : Nat}
    {q : Place Thread P} (h : Places s sh place)
    (hnumbered : Numbered s'.trace)
    (honce : ((deliveries s'.trace).map Prod.fst).Nodup)
    (hother : ∀ op', op' ≠ i → ∀ pl', ItemAt s' sh' op' pl' ↔ ItemAt s sh op' pl')
    (hitem : ∀ pl', ItemAt s' sh' i pl' ↔ pl' = q) :
    ∃ place', Places s' sh' place' := by
  refine ⟨Function.update place i q, hnumbered, fun op' pl' => ?_, honce⟩
  by_cases hop : op' = i
  · subst hop
    rw [Function.update_self, hitem]
    exact eq_comm
  · rw [Function.update_of_ne hop, hother op' hop, h.itemAt]

/-- An item that is at one place is at no other. -/
theorem Places.unique {place : Nat → Place Thread P} (h : Places s sh place)
    {i : Nat} {q r : Place Thread P} (hq : ItemAt s sh i q)
    (hr : ItemAt s sh i r) : q = r := by
  rw [← h.itemAt] at hq hr
  exact hq.symm.trans hr

end

/-- A write that keeps one field of a node keeps that field of all nodes. -/
theorem field_update {A : Type*} (f : Node P T → A) {heap : P → Node P T} {p : P}
    {node : Node P T} (hnode : f node = f (heap p)) (q : P) :
    f (Function.update heap p node q) = f (heap q) := by
  by_cases hq : q = p
  · subst hq
    rw [Function.update_self]
    exact hnode
  · rw [Function.update_of_ne hq]

section

omit [DecidableEq P]

/-- What the step does not lead to is seen of another thread. -/
theorem other_of_update {A : Type*} (f : Phase P T → A) {ks : Thread → Phase P T}
    {t u : Thread} {k : Phase P T} {a : A} (hu : f (Function.update ks t k u) = a)
    (hk : f k ≠ a) : u ≠ t ∧ f (ks u) = a := by
  have hut : u ≠ t := by
    rintro rfl
    rw [Function.update_self] at hu
    exact hk hu
  rw [Function.update_of_ne hut] at hu
  exact ⟨hut, hu⟩

/-- A call starts out with its own item. -/
theorem Places.callEnqueue {t : Thread} {value : T}
    {place : Nat → Place Thread P} (h : Places s sh place)
    (hphase : phases s t = .idle)
    (hphases : phases s' =
      Function.update (phases s) t (.asking s.trace.length value))
    (hheap : s'.heap = s.heap) (hhead : s'.head = s.head)
    (htrace : s'.trace = .callEnqueue s.trace.length value :: s.trace) :
    ∃ place', Places s' sh place' := by
  set op := s.trace.length with hop
  have habsent : ItemAt s sh op .absent := by
    intro v hv
    have := h.numbered.lt hv
    omega
  have hcalls : calls s'.trace = (op, value) :: calls s.trace := by
    rw [htrace, calls_cons]
    rfl
  have hdel : deliveries s'.trace = deliveries s.trace := by
    rw [htrace, deliveries_cons]
    rfl
  have hself : phases s' t = .asking op value := by
    rw [hphases, Function.update_self]
  have hothers : ∀ u, u ≠ t → phases s' u = phases s u := fun u hu => by
    rw [hphases, Function.update_of_ne hu]
  have hcarries : ∀ p, Carries s' sh p ↔ Carries s sh p :=
    carries_congr (fun _ => Iff.rfl) hhead
  refine h.move (i := op) (q := .asked t) ?_ (by rw [hdel]; exact h.once) ?_ ?_
  · rw [htrace]
    refine ⟨fun x hx => ?_, h.numbered⟩
    cases hx
    rfl
  · intro op' hne pl'
    cases pl' with
    | absent =>
        simp only [ItemAt, hcalls, List.mem_cons, Prod.mk.injEq, hne, false_and,
          false_or]
    | asked u =>
        by_cases hu : u = t
        · subst hu
          simp only [ItemAt, hself, hphase, Phase.Asking, iff_false]
          exact fun h => hne h.symm
        · rw [ItemAt, ItemAt, hothers u hu]
    | node p => rw [ItemAt, ItemAt, hcarries, hheap]
    | taken u =>
        by_cases hu : u = t
        · subst hu
          simp only [ItemAt, hself, hphase, Phase.Holding]
        · rw [ItemAt, ItemAt, hothers u hu]
    | returned => rw [ItemAt, ItemAt, hdel]
  · intro pl'
    have hgone : ∀ {q}, ItemAt s sh op q → q = .absent :=
      fun h' => h.unique h' habsent
    cases pl' with
    | absent =>
        simp only [ItemAt, hcalls, reduceCtorEq, iff_false]
        intro hnot
        exact hnot value List.mem_cons_self
    | asked u =>
        by_cases hu : u = t
        · subst hu
          simp only [ItemAt, hself, Phase.Asking]
        · rw [ItemAt, hothers u hu]
          constructor
          · intro hask
            cases hgone (q := .asked u) hask
          · rintro ⟨⟩
            exact absurd rfl hu
    | node p =>
        rw [ItemAt, hcarries, hheap]
        constructor
        · intro hnode
          cases hgone (q := .node p) hnode
        · rintro ⟨⟩
    | taken u =>
        by_cases hu : u = t
        · subst hu
          simp [ItemAt, hself, Phase.Holding]
        · rw [ItemAt, hothers u hu]
          constructor
          · intro hhold
            cases hgone (q := .taken u) hhold
          · rintro ⟨⟩
    | returned =>
        rw [ItemAt, hdel]
        constructor
        · intro hret
          cases hgone (q := .returned) hret
        · rintro ⟨⟩

/-- A step of thread `t` that takes item `op` from one place to the next: the
item leaves every place it was at and shows up at `pl` only. -/
theorem Places.handOver {t : Thread} {k k' : Phase P T} {i : Nat}
    {o q : Place Thread P} {place : Nat → Place Thread P}
    (h : Places s sh place) (hold : ItemAt s sh i o)
    (hphase : phases s t = k)
    (hphases : phases s' = Function.update (phases s) t k')
    (hnumbered : Numbered s'.trace) (hcalls : calls s'.trace = calls s.trace)
    (honce : ((deliveries s'.trace).map Prod.fst).Nodup)
    (hmine : ∀ u, o = .asked u ∨ o = .taken u → u = t)
    (hlive : o ≠ .absent ∧ o ≠ .returned)
    (hpl : q ≠ .absent ∧ ∀ u, q = .asked u ∨ q = .taken u → u = t)
    (hask : ∀ op', k'.Asking op' ↔ k.Asking op' ∧ op' ≠ i ∨
      op' = i ∧ q = .asked t)
    (hholding : ∀ op', k'.Holding op' ↔ k.Holding op' ∧ op' ≠ i ∨
      op' = i ∧ q = .taken t)
    (hnode : ∀ op' p, ItemAt s' sh' op' (.node p) ↔
      ItemAt s sh op' (.node p) ∧ op' ≠ i ∨ op' = i ∧ q = .node p)
    (hreturned : ∀ op', op' ∈ (deliveries s'.trace).map Prod.fst ↔
      op' ∈ (deliveries s.trace).map Prod.fst ∨ op' = i ∧ q = .returned) :
    ∃ place', Places s' sh' place' := by
  have hself : phases s' t = k' := by rw [hphases, Function.update_self]
  have hothers : ∀ u, u ≠ t → phases s' u = phases s u := fun u hu => by
    rw [hphases, Function.update_of_ne hu]
  refine h.move (i := i) (q := q) hnumbered honce ?_ ?_
  · intro op' hne pl'
    cases pl' with
    | absent => rw [ItemAt, ItemAt, hcalls]
    | asked u =>
        by_cases hu : u = t
        · subst hu
          rw [ItemAt, ItemAt, hself, hphase, hask]
          simp [hne]
        · rw [ItemAt, ItemAt, hothers u hu]
    | node p =>
        rw [hnode]
        simp [hne]
    | taken u =>
        by_cases hu : u = t
        · subst hu
          rw [ItemAt, ItemAt, hself, hphase, hholding]
          simp [hne]
        · rw [ItemAt, ItemAt, hothers u hu]
    | returned =>
        rw [ItemAt, ItemAt, hreturned]
        simp [hne]
  · intro pl'
    cases pl' with
    | absent =>
        constructor
        · intro habsent
          rw [ItemAt, hcalls] at habsent
          exact absurd (h.unique (r := .absent) hold habsent) hlive.1
        · intro habsent
          exact absurd habsent.symm hpl.1
    | asked u =>
        by_cases hu : u = t
        · subst hu
          rw [ItemAt, hself, hask]
          simp [eq_comm]
        · rw [ItemAt, hothers u hu]
          constructor
          · intro hasked
            have := h.unique (r := .asked u) hold hasked
            exact absurd (hmine u (.inl this)) hu
          · intro heq
            exact absurd (hpl.2 u (.inl heq.symm)) hu
    | node p =>
        rw [hnode]
        simp [eq_comm]
    | taken u =>
        by_cases hu : u = t
        · subst hu
          rw [ItemAt, hself, hholding]
          simp [eq_comm]
        · rw [ItemAt, hothers u hu]
          constructor
          · intro htaken
            have := h.unique (r := .taken u) hold htaken
            exact absurd (hmine u (.inr this)) hu
          · intro heq
            exact absurd (hpl.2 u (.inr heq.symm)) hu
    | returned =>
        rw [ItemAt, hreturned]
        constructor
        · rintro (hret | ⟨-, heq⟩)
          · exact absurd (h.unique (r := .returned) hold hret) hlive.2
          · exact heq.symm
        · intro heq
          exact .inr ⟨rfl, heq.symm⟩

end

omit [DecidableEq Thread] [DecidableEq P] in
/-- A node that a step neither fills, nor takes, nor moves keeps whatever item it
carries, and the item of the step stays off it. -/
theorem Places.kept {place : Nat → Place Thread P} (h : Places s sh place) {i op : Nat}
    {o : Place Thread P} {p : P} (hold : ItemAt s sh i o) (ho : o ≠ .node p)
    (hcarries : Carries s' sh' p ↔ Carries s sh p)
    (hop : (s'.heap p).op = (s.heap p).op) :
    ItemAt s' sh' op (.node p) ↔ ItemAt s sh op (.node p) ∧ op ≠ i := by
  have hne : ItemAt s sh op (.node p) → op ≠ i := by
    rintro hat rfl
    exact ho (h.unique hold hat)
  simp only [ItemAt] at hne ⊢
  rw [hcarries, hop]
  exact ⟨fun hat => ⟨hat, hne hat⟩, fun hat => hat.1⟩

omit [DecidableEq P] in
/-- A thread moves on and leaves the memory alone. -/
theorem Places.alone {t : Thread} {k k' : Phase P T} {l : List (Event T)}
    {place : Nat → Place Thread P} (h : Places s sh place) (hphase : phases s t = k)
    (hphases : phases s' = Function.update (phases s) t k')
    (hask : ∀ op, k'.Asking op ↔ k.Asking op) (hhold : ∀ op, k'.Holding op ↔ k.Holding op)
    (htrace : s'.trace = l ++ s.trace)
    (htr : ∀ e ∈ l, e.called = none ∧ e.delivered = none) (hhead : s'.head = s.head)
    (hheap : s'.heap = s.heap) : ∃ place', Places s' sh place' :=
  h.steady (.of_phase hphase hphases hask hhold htrace htr) (fun _ => Iff.rfl) hhead
    fun p => by rw [hheap]

/-- The constructor hands its item over to the node. -/
theorem Places.construct {t : Thread} {op : Nat} {value : T} {n : P}
    {place : Nat → Place Thread P} (h : Places s sh place) (hinv : Inv s sh)
    (hphase : phases s t = .raw op value n)
    (hphases : phases s' = Function.update (phases s) t (.filling op value n))
    (hheap : s'.heap = Function.update s.heap n { s.heap n with next := ⟨none, 0⟩, op := op })
    (hhead : s'.head = s.head) (htrace : s'.trace = s.trace) (hloc : sh.loc n = .raw t) :
    ∃ place', Places s' (sh.construct t n) place' := by
  have hitem : ItemAt s sh op (.asked t) := by rw [ItemAt, hphase]; rfl
  have hn : s.head.ptr ≠ some n := by
    intro hhead
    have := (hinv.global.mem_chain none n).mp (hinv.global.head_mem hhead)
    rw [hloc] at this
    cases this
  refine h.handOver (i := op) (o := .asked t) (q := .node n) hitem hphase hphases
    (htrace ▸ h.numbered) (by rw [htrace]) (by rw [htrace]; exact h.once)
    (by rintro u (h | h) <;> cases h; rfl) ⟨by simp, by simp⟩ ⟨by simp, by simp⟩
    (fun op' => ?_) (fun op' => ?_) (fun op' p => ?_) (fun op' => by rw [htrace]; simp)
  · simp [Phase.Asking, eq_comm]
  · simp [Phase.Holding]
  · by_cases hp : p = n
    · subst hp
      have hnew : Carries s' (sh.construct t p) p :=
        ⟨⟨some t, Function.update_self ..⟩, by rw [hhead]; exact hn⟩
      have hold : ¬ Carries s sh p := by
        rintro ⟨⟨o, ho⟩, -⟩
        rw [hloc] at ho
        cases ho
      simp [ItemAt, hnew, hold, hheap, eq_comm]
    · have hc : Carries s' (sh.construct t n) p ↔ Carries s sh p := by
        unfold Carries
        rw [hhead]
        simp [Shape.construct, hp]
      have hnp : (Place.node n : Place Thread P) ≠ .node p := by
        rintro ⟨⟩
        exact hp rfl
      rw [h.kept hitem (by simp) hc (by rw [hheap, Function.update_of_ne hp])]
      simp only [hnp, and_false, or_false]

/-- A node other than the old head and its successor carries an item after
`head_` has moved on exactly if it did before. -/
theorem carries_take {t : Thread} {n x p : P} (hhead : s.head.ptr = some n)
    (hhead' : s'.head.ptr = some x) (hpx : p ≠ x) :
    Carries s' (sh.take t n) p ↔ Carries s sh p := by
  have hxp : x ≠ p := hpx.symm
  unfold Carries
  by_cases hpn : p = n
  · subst hpn
    simp [Shape.take, hhead]
  · have hnp : n ≠ p := fun h => hpn h.symm
    simp [Shape.take, hhead, hhead', hpn, hxp, hnp]

/-- The exchange on `head_` gives the item of the new head to the dequeue. -/
theorem Places.take {t : Thread} {op : Nat} {value : T} {head next : TaggedPtr P}
    {old : T × T} {n x : P} {rest : List P} {place : Nat → Place Thread P}
    (h : Places s sh place) (hinv : Inv s sh) (hinv' : Inv s' (sh.take t n))
    (hhead : s.head.ptr = some n) (hchain : sh.chain none = n :: x :: rest)
    (hphase : phases s t = .moved op value head next old)
    (hphases : phases s' =
      Function.update (phases s) t (.won op value (s.heap x).op n))
    (hheap : s'.heap = s.heap)
    (htrace : s'.trace = .take op (s.heap x).op :: s.trace) :
    ∃ place', Places s' (sh.take t n) place' := by
  have hhead' : s'.head.ptr = some x := by
    have hpath := hinv'.global.path none
    have hrest : (sh.take t n).chain none = x :: rest := by
      simp [Shape.take, hchain]
    rw [hrest] at hpath
    exact hpath.1
  have hitem : ItemAt s sh (s.heap x).op (.node x) := ⟨hinv.carries_second hchain, rfl⟩
  refine h.handOver (i := (s.heap x).op) (o := .node x) (q := .taken t)
    hitem hphase hphases ?_ ?_ ?_ (by simp) ⟨by simp, by simp⟩
    ⟨by simp, by rintro u (hu | hu) <;> cases hu; rfl⟩ (fun op' => ?_)
    (fun op' => ?_) (fun op' p => ?_) (fun op' => ?_)
  · rw [htrace]
    exact ⟨fun y hy => (by cases hy), h.numbered⟩
  · rw [htrace, calls_cons]
    rfl
  · rw [htrace, deliveries_cons]
    exact h.once
  · simp [Phase.Asking]
  · simp [Phase.Holding, eq_comm]
  · simp only [reduceCtorEq, and_false, or_false]
    by_cases hpx : p = x
    · subst hpx
      simp only [ItemAt, Carries, hhead']
      constructor
      · rintro ⟨⟨-, hnot⟩, -⟩
        exact absurd rfl hnot
      · rintro ⟨⟨-, heq⟩, hne⟩
        exact absurd heq.symm hne
    · have hxp : (Place.node x : Place Thread P) ≠ .node p := by
        rintro ⟨⟩
        exact hpx rfl
      exact h.kept hitem hxp (carries_take hhead hhead' hpx) (by rw [hheap])
  · rw [htrace, deliveries_cons]
    simp [Event.delivered]

/-- `try_dequeue` returns the item that it has taken. -/
theorem Places.release {t : Thread} {op item : Nat} {value : T} {n : P}
    {place : Nat → Place Thread P} (h : Places s sh place)
    (hphase : phases s t = .won op value item n)
    (hphases : phases s' = Function.update (phases s) t .idle)
    (hop : ∀ p, (s'.heap p).op = (s.heap p).op) (hhead : s'.head = s.head)
    (htrace : s'.trace = .retDequeue op (some item) value :: s.trace)
    (hloc : sh.loc n = .retired t) : ∃ place', Places s' (sh.release n) place' := by
  have hitem : ItemAt s sh item (.taken t) := by
    rw [ItemAt, hphase]
    rfl
  have hdel : deliveries s'.trace = (item, value) :: deliveries s.trace := by
    rw [htrace, deliveries_cons]
    rfl
  refine h.handOver (i := item) (o := .taken t) (q := .returned) hitem
    hphase hphases ?_ ?_ ?_ (by rintro u (hu | hu) <;> cases hu; rfl)
    ⟨by simp, by simp⟩ ⟨by simp, by simp⟩ (fun op' => ?_) (fun op' => ?_)
    (fun op' p => ?_) (fun op' => ?_)
  · rw [htrace]
    exact ⟨fun y hy => (by cases hy), h.numbered⟩
  · rw [htrace, calls_cons]
    rfl
  · rw [hdel]
    refine List.nodup_cons.mpr ⟨fun hmem => ?_, h.once⟩
    have := h.unique (r := .returned) hitem hmem
    cases this
  · simp [Phase.Asking]
  · simp [Phase.Holding, eq_comm]
  · have hc : Carries s' (sh.release n) p ↔ Carries s sh p :=
      carries_congr (linked_update (by simp [hloc]) (by simp)) hhead p
    rw [h.kept hitem (by simp) hc (hop p)]
    simp only [reduceCtorEq, and_false, or_false]
  · rw [hdel]
    simp [or_comm]

/-- Every step moves at most one item: from its call into a node, from the node
to the dequeue that takes it, and from there to the caller. -/
theorem Places.effect {movedFrom : T → T} {t : Thread}
    {place : Nat → Place Thread P} (hinv : Inv s sh) (hinv' : Inv s' sh')
    (heffect : Effect movedFrom s sh t s' sh') (h : Places s sh place) :
    ∃ place', Places s' sh' place' := by
  cases heffect with
  | callEnqueue value hphase hphases hheap hhead htrace hshape =>
      subst hshape
      exact h.callEnqueue hphase hphases hheap hhead htrace
  | callDequeue value hphase hphases hheap hhead htrace hshape =>
      subst hshape
      exact h.alone (l := [_]) hphase hphases (fun _ => Iff.rfl) (fun _ => Iff.rfl) htrace
        (by simp [Event.called, Event.delivered]) hhead hheap
  | allocate op value n hphase hphases hheap hhead htrace hloc hshape =>
      subst hshape
      exact h.steady (.of_phase (l := []) hphase hphases (fun _ => Iff.rfl)
        (fun _ => Iff.rfl) htrace (by simp))
        (linked_update (by simp [hloc]) (by simp)) hhead fun p => by rw [hheap]
  | construct op value n hphase hphases hheap hhead htrace hloc hshape =>
      subst hshape
      exact h.construct hinv hphase hphases hheap hhead htrace hloc
  | fill op value n hphase hphases hheap hhead htrace hshape =>
      subst hshape
      exact h.steady (.of_phase (l := []) hphase hphases (fun _ => Iff.rfl)
        (fun _ => Iff.rfl) htrace (by simp)) (fun _ => Iff.rfl) hhead
        fun p => by rw [hheap]; exact field_update Node.op (by rfl) p
  | quiet hphases hheap hhead htrace hshape =>
      subst hshape
      have hsteady : Steady s s' := by
        have hupdate : phases s' = Function.update (phases s) t (phases s t) := by
          rw [hphases, Function.update_eq_self]
        rcases htrace with htrace | htrace
        · exact .of_phase (l := []) rfl hupdate (fun _ => Iff.rfl)
            (fun _ => Iff.rfl) htrace (by simp)
        · exact .of_phase (l := [_]) rfl hupdate (fun _ => Iff.rfl)
            (fun _ => Iff.rfl) htrace (by simp [Event.called, Event.delivered])
      exact h.steady hsteady (fun _ => Iff.rfl) hhead fun p => by rw [hheap]
  | link op n a tail next o hpc ha hfound hphases hheap hhead htrace hot hloc hshape =>
      subst hshape
      have hphase : phases s t = .linking op n := by rw [phases, hpc]; rfl
      exact h.steady (.of_phase (l := [_]) hphase hphases (fun _ => Iff.rfl)
        (fun _ => Iff.rfl) htrace (by simp [Event.called, Event.delivered]))
        (linked_link hinv t o) hhead fun p => by rw [hheap]; exact field_update Node.op (by rfl) p
  | retEnqueue op hphase hphases hheap hhead htrace hshape =>
      subst hshape
      have hsteady : Steady s s' := by
        rcases htrace with htrace | htrace
        · exact .of_phase (l := [_]) hphase hphases (fun _ => Iff.rfl)
            (fun _ => Iff.rfl) htrace (by simp [Event.called, Event.delivered])
        · exact .of_phase (l := [_, _]) hphase hphases (fun _ => Iff.rfl)
            (fun _ => Iff.rfl) htrace (by simp [Event.called, Event.delivered])
      exact h.steady hsteady (fun _ => Iff.rfl) hhead fun p => by rw [hheap]
  | sawNext op value head tail n hpc hh hphases hheap hhead htrace hshape =>
      subst hshape
      have hphase : phases s t = .searching op value := by rw [phases, hpc]; rfl
      exact h.alone (l := []) hphase hphases (fun _ => Iff.rfl) (fun _ => Iff.rfl) htrace
        (by simp) hhead hheap
  | retry op value head tail next hphase hphases hheap hhead htrace hshape =>
      subst hshape
      exact h.alone (l := []) hphase hphases (fun _ => Iff.rfl) (fun _ => Iff.rfl) htrace
        (by simp) hhead hheap
  | retFalse op value head tail next hphase hfound hsame hnull hphases hheap hhead
      htrace hshape =>
      subst hshape
      exact h.alone (l := [_]) hphase hphases (fun _ => Iff.rfl) (fun _ => Iff.rfl) htrace
        (by simp [Event.called, Event.delivered]) hhead hheap
  | toMove op value head tail next hphase hfound hne hphases hheap hhead htrace
      hshape =>
      subst hshape
      exact h.alone (l := []) hphase hphases (fun _ => Iff.rfl) (fun _ => Iff.rfl) htrace
        (by simp) hhead hheap
  | move op value head next x hphase hx hphases hheap hhead htrace hshape =>
      subst hshape
      exact h.steady (.of_phase (l := []) hphase hphases (fun _ => Iff.rfl)
        (fun _ => Iff.rfl) htrace (by simp)) (fun _ => Iff.rfl) hhead
        fun p => by rw [hheap]; exact field_update Node.op (by rfl) p
  | lost op value head next old hphase hmissed hphases hheap hhead htrace hshape =>
      subst hshape
      exact h.alone (l := []) hphase hphases (fun _ => Iff.rfl) (fun _ => Iff.rfl) htrace
        (by simp) hhead hheap
  | take op value head next old n x rest hphase hfound hh hx hchain hphases hheap
      htrace hshape =>
      subst hshape
      exact h.take hinv hinv' (by rw [hfound, hh]) hchain hphase hphases hheap htrace
  | release op value item n word hphase hphases hheap hhead htrace hloc hshape =>
      subst hshape
      exact h.release hphase hphases (fun p => by rw [hheap]; exact field_update Node.op (by rfl) p)
        hhead htrace hloc

omit [DecidableEq Thread] in
theorem Places.initial (heap : P → Node P T) (dummy : P) (data : T) :
    ∃ place, Places (Queue.initial heap dummy data : State Thread P T)
      (Shape.initial dummy) place := by
  refine ⟨fun _ => .absent, trivial, fun op pl => ?_, List.nodup_nil⟩
  cases pl with
  | absent => simp [ItemAt, Queue.initial, calls]
  | asked t => simp [ItemAt, Queue.initial, phases, Pc.phase, Phase.Asking]
  | node p =>
      have hnot : ¬ Carries (Queue.initial heap dummy data : State Thread P T)
          (Shape.initial dummy) p := by
        rintro ⟨⟨o, ho⟩, hne⟩
        simp only [Shape.initial] at ho
        split at ho
        · rename_i heq
          exact hne (by rw [heq]; rfl)
        · cases ho
      simp [ItemAt, hnot]
  | taken t => simp [ItemAt, Queue.initial, phases, Pc.phase, Phase.Holding]
  | returned => simp [ItemAt, Queue.initial, deliveries]

end Queue
end Lockfree
end Cyan

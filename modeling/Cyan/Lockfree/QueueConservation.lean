import Mathlib.Data.Multiset.MapFold
import Cyan.Lockfree.QueueItems
import Cyan.Lockfree.QueueSolo

/-!
# The queue neither loses nor duplicates a value

Every value that a successful `try_dequeue` returns was enqueued, no enqueued
value is returned twice, and whenever no operation is in progress the enqueued
values are the returned ones together with the values in the chain behind
`head_` (`Conserves`).

* `Ledger` ties the values that travel through the calls to the calls they come
  from; it is shared by all element types.
* `Intact` adds that the data of a queued node is what was enqueued, which is
  where the element type matters: here a move leaves its source alone.
* `queue_conserves` holds for every run with fewer than `2 ^ 64` exchanges on
  `head_` and on `tail_`.
* `queue_duplicates_on_wrap` shows that the bound is needed: after `2 ^ 64`
  exchanges the tag of `head_` has gone round, and an exchange that has stalled
  all the while succeeds.
-/

namespace Cyan
namespace Lockfree
namespace Queue

open Base

variable {Thread P T : Type*} [DecidableEq Thread] [DecidableEq P]
variable {s s' : State Thread P T} {sh sh' : Shape Thread P}

/-! ## What conservation says -/

/-- The values handed to `enqueue` and `emplace`. -/
def enqueued (s : State Thread P T) : Multiset T :=
  ↑((calls s.trace).map Prod.snd)

/-- The values returned by successful calls of `try_dequeue`. -/
def returned (s : State Thread P T) : Multiset T :=
  ↑((deliveries s.trace).map Prod.snd)

/-- No operation is in progress. -/
def Quiescent (s : State Thread P T) : Prop :=
  ∀ t, s.pc t = .idle

/-- The values of the nodes behind `head_`, `head_`'s own node excluded. -/
def Contents (s : State Thread P T) (values : List T) : Prop :=
  ∃ dummy nodes, Path (nextPtr s) s.head.ptr (dummy :: nodes) none ∧
    values = nodes.map fun p => (s.heap p).data

/-- Nothing is returned twice or out of thin air, and nothing is lost. -/
structure Conserves (s : State Thread P T) : Prop where
  returned_le : returned s ≤ enqueued s
  balance : Quiescent s → ∃ values, Contents s values ∧
    enqueued s = returned s + ↑values

/-! ## The ledger -/

/-- The item and value that an enqueue has not linked yet and still carries in
its locals. -/
def Phase.offer : Phase P T → Option (Nat × T)
  | .asking op value => some (op, value)
  | .raw op value _ => some (op, value)
  | .filling op value _ => some (op, value)
  | _ => none

/-- Every value in the hands of a thread, and every returned one, comes from
the call that its item names. -/
structure Ledger (s : State Thread P T) : Prop where
  offer : ∀ t x, (phases s t).offer = some x → x ∈ calls s.trace
  mark : ∀ t op value n, phases s t = .filling op value n → (s.heap n).op = op
  won : ∀ t op value item n, phases s t = .won op value item n →
    (item, value) ∈ calls s.trace
  delivered : ∀ x ∈ deliveries s.trace, x ∈ calls s.trace

omit [DecidableEq P] in
/-- A step keeps the ledger if the thread that makes it gets its books right. -/
theorem Ledger.of_phase {t : Thread} {k : Phase P T} (h : Ledger s)
    (hphases : phases s' = Function.update (phases s) t k)
    (hcalls : ∀ x ∈ calls s.trace, x ∈ calls s'.trace)
    (hoffer : ∀ x, k.offer = some x → x ∈ calls s'.trace)
    (hmark : ∀ op value n, k = .filling op value n → (s'.heap n).op = op)
    (hops : ∀ u, u ≠ t → ∀ op value n, phases s u = .filling op value n →
      (s'.heap n).op = (s.heap n).op)
    (hwon : ∀ op value item n, k = .won op value item n →
      (item, value) ∈ calls s'.trace)
    (hdelivered : ∀ x ∈ deliveries s'.trace, x ∈ deliveries s.trace ∨
      x ∈ calls s.trace) : Ledger s' where
  offer u x hx := by
    rw [hphases] at hx
    by_cases hu : u = t
    · subst hu
      rw [Function.update_self] at hx
      exact hoffer x hx
    · rw [Function.update_of_ne hu] at hx
      exact hcalls x (h.offer u x hx)
  mark u op value n hu := by
    rw [hphases] at hu
    by_cases hut : u = t
    · subst hut
      rw [Function.update_self] at hu
      exact hmark op value n hu
    · rw [Function.update_of_ne hut] at hu
      exact (hops u hut op value n hu).trans (h.mark u op value n hu)
  won u op value item n hu := by
    rw [hphases] at hu
    by_cases hut : u = t
    · subst hut
      rw [Function.update_self] at hu
      exact hwon op value item n hu
    · rw [Function.update_of_ne hut] at hu
      exact hcalls _ (h.won u op value item n hu)
  delivered x hx := by
    rcases hdelivered x hx with hold | hnew
    · exact hcalls x (h.delivered x hold)
    · exact hcalls x hnew

omit [DecidableEq Thread] [DecidableEq P] in
/-- A node under construction belongs to the enqueue that constructs it. -/
theorem Inv.loc_filling (hinv : Inv s sh) {t : Thread} {op : Nat} {value : T}
    {n : P} (hphase : phases s t = .filling op value n) :
    sh.loc n = .linked (some t) := by
  refine hinv.global.loc_root ?_
  rw [Pc.root_eq]
  rw [phases] at hphase
  rw [hphase]
  rfl

/-- The ledger survives every step, provided that a dequeue which wins the
exchange on `head_` has moved out the right value. -/
theorem Ledger.effect {movedFrom : T → T} {t : Thread} (hinv : Inv s sh)
    (heffect : Effect movedFrom s sh t s' sh') (h : Ledger s)
    (htake : ∀ op value head next old x,
      phases s t = .moved op value head next old → s.head = head →
      next.ptr = some x → ((s.heap x).op, value) ∈ calls s.trace) :
    Ledger s' := by
  have hmono : ∀ {l : List (Event T)}, s'.trace = l ++ s.trace →
      ∀ x ∈ calls s.trace, x ∈ calls s'.trace := by
    intro l hl x hx
    rw [hl, calls, List.filterMap_append]
    exact List.mem_append_right _ hx
  have hquiet : ∀ {l : List (Event T)}, s'.trace = l ++ s.trace →
      (∀ e ∈ l, e.delivered = none) → ∀ x ∈ deliveries s'.trace,
        x ∈ deliveries s.trace ∨ x ∈ calls s.trace := by
    intro l hl hnone x hx
    rw [hl, deliveries, List.filterMap_append] at hx
    rcases List.mem_append.mp hx with hx | hx
    · obtain ⟨e, he, hex⟩ := List.mem_filterMap.mp hx
      rw [hnone e he] at hex
      cases hex
    · exact .inl hx
  cases heffect with
  | callEnqueue value hphase hphases hheap hhead htrace hshape =>
      refine h.of_phase hphases (hmono (l := [_]) htrace) (fun x hx => ?_) (by simp)
        (fun u _ _ _ _ _ => by rw [hheap]) (by simp)
        (hquiet (l := [_]) htrace (by simp [Event.delivered]))
      cases hx
      rw [htrace, calls_cons]
      exact List.mem_cons_self
  | callDequeue value hphase hphases hheap hhead htrace hshape =>
      exact h.of_phase hphases (hmono (l := [_]) htrace) (by simp [Phase.offer])
        (by simp) (fun u _ _ _ _ _ => by rw [hheap]) (by simp)
        (hquiet (l := [_]) htrace (by simp [Event.delivered]))
  | allocate op value n hphase hphases hheap hhead htrace hloc hshape =>
      refine h.of_phase hphases (hmono (l := []) htrace) (fun x hx => ?_) (by simp)
        (fun u _ _ _ _ _ => by rw [hheap]) (by simp)
        (hquiet (l := []) htrace (by simp))
      rw [htrace]
      exact h.offer t x (by rw [hphase]; exact hx)
  | construct op value n hphase hphases hheap hhead htrace hloc hshape =>
      refine h.of_phase hphases (hmono (l := []) htrace) (fun x hx => ?_)
        (fun op' value' n' heq => ?_) (fun u hu op' value' n' hfill => ?_) (by simp)
        (hquiet (l := []) htrace (by simp))
      · rw [htrace]
        exact h.offer t x (by rw [hphase]; exact hx)
      · cases heq
        rw [hheap, Function.update_self]
      · have hne : n' ≠ n := by
          rintro rfl
          have := hinv.loc_filling hfill
          rw [hloc] at this
          cases this
        rw [hheap, Function.update_of_ne hne]
  | fill op value n hphase hphases hheap hhead htrace hshape =>
      exact h.of_phase hphases (hmono (l := []) htrace) (by simp [Phase.offer])
        (by simp) (fun u _ _ _ p _ => by rw [hheap]; exact field_update Node.op (by rfl) p)
        (by simp) (hquiet (l := []) htrace (by simp))
  | quiet hphases hheap hhead htrace hshape =>
      have hupdate : phases s' = Function.update (phases s) t (phases s t) := by
        rw [hphases, Function.update_eq_self]
      obtain ⟨tr, htr, hnone⟩ : ∃ tr, s'.trace = tr ++ s.trace ∧
          ∀ e ∈ tr, e.delivered = none := by
        rcases htrace with htrace | htrace
        · exact ⟨[], htrace, by simp⟩
        · exact ⟨[_], htrace, by simp [Event.delivered]⟩
      exact h.of_phase hupdate (hmono htr)
        (fun x hx => hmono htr x (h.offer t x hx))
        (fun op value n hfill => by rw [hheap]; exact h.mark t op value n hfill)
        (fun u _ _ _ _ _ => by rw [hheap])
        (fun op value item n hwon => hmono htr _ (h.won t op value item n hwon))
        (hquiet htr hnone)
  | link op n a tail next o hpc ha hfound hphases hheap hhead htrace hot hloc
      hshape =>
      exact h.of_phase hphases (hmono (l := [_]) htrace) (by simp [Phase.offer])
        (by simp) (fun u _ _ _ p _ => by rw [hheap]; exact field_update Node.op (by rfl) p)
        (by simp) (hquiet (l := [_]) htrace (by simp [Event.delivered]))
  | retEnqueue op hphase hphases hheap hhead htrace hshape =>
      obtain ⟨tr, htr, hnone⟩ : ∃ tr, s'.trace = tr ++ s.trace ∧
          ∀ e ∈ tr, e.delivered = none := by
        rcases htrace with htrace | htrace
        · exact ⟨[_], htrace, by simp [Event.delivered]⟩
        · exact ⟨[_, _], htrace, by simp [Event.delivered]⟩
      exact h.of_phase hphases (hmono htr) (by simp [Phase.offer]) (by simp)
        (fun u _ _ _ _ _ => by rw [hheap]) (by simp) (hquiet htr hnone)
  | sawNext op value head tail n hpc hh hphases hheap hhead htrace hshape =>
      exact h.of_phase hphases (hmono (l := []) htrace) (by simp [Phase.offer])
        (by simp) (fun u _ _ _ _ _ => by rw [hheap]) (by simp)
        (hquiet (l := []) htrace (by simp))
  | retry op value head tail next hphase hphases hheap hhead htrace hshape =>
      exact h.of_phase hphases (hmono (l := []) htrace) (by simp [Phase.offer])
        (by simp) (fun u _ _ _ _ _ => by rw [hheap]) (by simp)
        (hquiet (l := []) htrace (by simp))
  | retFalse op value head tail next hphase hfound hsame hnull hphases hheap hhead
      htrace hshape =>
      exact h.of_phase hphases (hmono (l := [_]) htrace) (by simp [Phase.offer])
        (by simp) (fun u _ _ _ _ _ => by rw [hheap]) (by simp)
        (hquiet (l := [_]) htrace (by simp [Event.delivered]))
  | toMove op value head tail next hphase hfound hne hphases hheap hhead htrace
      hshape =>
      exact h.of_phase hphases (hmono (l := []) htrace) (by simp [Phase.offer])
        (by simp) (fun u _ _ _ _ _ => by rw [hheap]) (by simp)
        (hquiet (l := []) htrace (by simp))
  | move op value head next x hphase hx hphases hheap hhead htrace hshape =>
      exact h.of_phase hphases (hmono (l := []) htrace) (by simp [Phase.offer])
        (by simp) (fun u _ _ _ p _ => by rw [hheap]; exact field_update Node.op (by rfl) p)
        (by simp) (hquiet (l := []) htrace (by simp))
  | lost op value head next old hphase hmissed hphases hheap hhead htrace hshape =>
      exact h.of_phase hphases (hmono (l := []) htrace) (by simp [Phase.offer])
        (by simp) (fun u _ _ _ _ _ => by rw [hheap]) (by simp)
        (hquiet (l := []) htrace (by simp))
  | take op value head next old n x rest hphase hfound hh hx hchain hphases hheap
      htrace hshape =>
      refine h.of_phase hphases (hmono (l := [_]) htrace) (by simp [Phase.offer])
        (by simp) (fun u _ _ _ _ _ => by rw [hheap])
        (fun op' value' item n' heq => ?_)
        (hquiet (l := [_]) htrace (by simp [Event.delivered]))
      cases heq
      exact hmono (l := [_]) htrace _ (htake op value head next old x hphase hfound hx)
  | release op value item n word hphase hphases hheap hhead htrace hloc hshape =>
      refine h.of_phase hphases (hmono (l := [_]) htrace) (by simp [Phase.offer])
        (by simp) (fun u _ _ _ p _ => by rw [hheap]; exact field_update Node.op (by rfl) p)
        (by simp) (fun x hx => ?_)
      rw [htrace, deliveries_cons] at hx
      rcases List.mem_cons.mp hx with rfl | hx
      · exact .inr (h.won t op value item n hphase)
      · exact .inl hx

omit [DecidableEq Thread] in
theorem Ledger.initial (heap : P → Node P T) (dummy : P) (data : T) :
    Ledger (Queue.initial heap dummy data : State Thread P T) where
  offer t x hx := by cases hx
  mark t op value n h := by cases h
  won t op value item n h := by cases h
  delivered x hx := by cases hx

/-! ## The data of the queued nodes -/

/-- A constructed node that carries an item holds the value the item was
enqueued with, unless it is among the `spoilt` ones. -/
def Intact (s : State Thread P T) (sh : Shape Thread P) (spoilt : P → Prop) :
    Prop :=
  ∀ p, Carries s sh p → (∀ t op v, phases s t ≠ .filling op v p) →
    ((s.heap p).op, (s.heap p).data) ∈ calls s.trace ∨ spoilt p

section

omit [DecidableEq Thread] [DecidableEq P]

/-- A step that keeps marks and data, and completes no node, keeps the data
intact. -/
theorem calls_grow {l : List (Event T)} (htrace : s'.trace = l ++ s.trace) :
    ∀ x ∈ calls s.trace, x ∈ calls s'.trace := by
  intro x hx
  rw [htrace, calls, List.filterMap_append]
  exact List.mem_append_right _ hx

theorem Intact.frame {D D' : P → Prop} (h : Intact s sh D)
    (hcarries : ∀ p, Carries s' sh' p → Carries s sh p)
    (hfilling : ∀ p t op v, Carries s' sh' p → phases s t = .filling op v p →
      ∃ t op v, phases s' t = .filling op v p)
    (hcalls : ∀ x ∈ calls s.trace, x ∈ calls s'.trace)
    (hop : ∀ p, (s'.heap p).op = (s.heap p).op)
    (hdata : ∀ p, (s'.heap p).data = (s.heap p).data ∨ D' p)
    (hspoilt : ∀ p, Carries s' sh' p → D p → D' p) : Intact s' sh' D' := by
  intro p hp hnot
  rcases hdata p with hsame | hd
  · have hold : ∀ t op v, phases s t ≠ .filling op v p := by
      intro t op v hfill
      obtain ⟨t', op', v', hfill'⟩ := hfilling p t op v hp hfill
      exact hnot t' op' v' hfill'
    rcases h p (hcarries p hp) hold with hin | hd
    · rw [hop, hsame]
      exact .inl (hcalls _ hin)
    · exact .inr (hspoilt p hp hd)
  · exact .inr hd

end

section

omit [DecidableEq P]

/-- A phase change of a thread that fills no node keeps the nodes that are
being filled. -/
theorem filling_update {t u : Thread} {k k' : Phase P T} {op : Nat} {v : T} {p : P}
    (hphase : phases s t = k) (hk : ∀ op v, k ≠ .filling op v p)
    (hphases : phases s' = Function.update (phases s) t k')
    (hfill : phases s u = .filling op v p) :
    ∃ t op v, phases s' t = .filling op v p := by
  have hut : u ≠ t := by
    rintro rfl
    exact hk op v (hphase ▸ hfill)
  refine ⟨u, op, v, ?_⟩
  rw [hphases, Function.update_of_ne hut]
  exact hfill

/-- A thread moves on and leaves the memory alone. -/
theorem Intact.alone {D D' : P → Prop} {t : Thread} {k k' : Phase P T}
    {l : List (Event T)} (h : Intact s sh D) (hphase : phases s t = k)
    (hk : ∀ op v p, k ≠ .filling op v p)
    (hphases : phases s' = Function.update (phases s) t k')
    (htrace : s'.trace = l ++ s.trace) (hhead : s'.head = s.head)
    (hheap : s'.heap = s.heap)
    (hspoilt : ∀ p, Carries s' sh p → D p → D' p) : Intact s' sh D' :=
  h.frame (fun p => (carries_congr (fun _ => Iff.rfl) hhead p).mp)
    (fun p _ _ _ _ => filling_update hphase (fun op v => hk op v p) hphases)
    (calls_grow htrace) (fun p => by rw [hheap]) (fun p => .inl (by rw [hheap])) hspoilt

end

/-- The data stay intact across every step, apart from what a move leaves in
its source. -/
theorem Intact.effect {movedFrom : T → T} {t : Thread} {D D' : P → Prop}
    (hinv : Inv s sh) (heffect : Effect movedFrom s sh t s' sh')
    (hledger : Ledger s) (h : Intact s sh D)
    (hmove : ∀ op value head next old x,
      phases s' t = .moved op value head next old → next.ptr = some x →
      movedFrom (s.heap x).data = (s.heap x).data ∨ D' x)
    (hspoilt : ∀ p, Carries s' sh' p → D p → D' p) : Intact s' sh' D' := by
  cases heffect with
  | callEnqueue value hphase hphases hheap hhead htrace hshape =>
      subst hshape
      exact h.alone (l := [_]) hphase (by simp) hphases htrace hhead hheap hspoilt
  | callDequeue value hphase hphases hheap hhead htrace hshape =>
      subst hshape
      exact h.alone (l := [_]) hphase (by simp) hphases htrace hhead hheap hspoilt
  | allocate op value n hphase hphases hheap hhead htrace hloc hshape =>
      subst hshape
      have hlinked : ∀ p, (∃ o, (sh.allocate t n).loc p = .linked o) ↔
          ∃ o, sh.loc p = .linked o := linked_update (by simp [hloc]) (by simp)
      exact h.frame (fun p => (carries_congr hlinked hhead p).mp)
        (fun p u op v _ => filling_update hphase (by simp) hphases)
        (calls_grow (l := []) htrace) (fun p => by rw [hheap])
        (fun p => .inl (by rw [hheap])) hspoilt
  | construct op value n hphase hphases hheap hhead htrace hloc hshape =>
      subst hshape
      intro p hp hnot
      have hpn : p ≠ n := by
        rintro rfl
        refine hnot t op value ?_
        rw [hphases, Function.update_self]
      have hold : Carries s sh p := by
        obtain ⟨⟨o, ho⟩, hne⟩ := hp
        have hsame : (sh.construct t n).loc p = sh.loc p := Function.update_of_ne hpn _ _
        exact ⟨⟨o, hsame.symm.trans ho⟩, by rw [← hhead]; exact hne⟩
      have hquiet : ∀ u op v, phases s u ≠ .filling op v p := by
        intro u op' v hfill
        obtain ⟨u, op', v, hfill⟩ :=
          filling_update hphase (by simp) hphases hfill
        exact hnot u op' v hfill
      rw [hheap, Function.update_of_ne hpn, htrace]
      exact (h p hold hquiet).imp_right (hspoilt p hp)
  | fill op value n hphase hphases hheap hhead htrace hshape =>
      subst hshape
      intro p hp hnot
      have hold := (carries_congr (fun _ => Iff.rfl) hhead p).mp hp
      by_cases hpn : p = n
      · subst hpn
        have hmark := hledger.mark t op value p hphase
        have hoffer := hledger.offer t (op, value) (by rw [hphase]; rfl)
        rw [hheap, Function.update_self, hmark, htrace]
        exact .inl hoffer
      · have hquiet : ∀ u op v, phases s u ≠ .filling op v p := by
          intro u op' v hfill
          have hk : ∀ op' v', (Phase.filling op value n : Phase P T) ≠
              .filling op' v' p := by
            rintro op' v' ⟨⟩
            exact hpn rfl
          obtain ⟨u, op', v, hfill⟩ := filling_update hphase hk hphases hfill
          exact hnot u op' v hfill
        rw [hheap, Function.update_of_ne hpn, htrace]
        exact (h p hold hquiet).imp_right (hspoilt p hp)
  | quiet hphases hheap hhead htrace hshape =>
      subst hshape
      refine h.frame (fun p => (carries_congr (fun _ => Iff.rfl) hhead p).mp)
        (fun p u op v _ hfill => ⟨u, op, v, by rw [hphases]; exact hfill⟩)
        ?_ (fun p => by rw [hheap]) (fun p => .inl (by rw [hheap])) hspoilt
      rcases htrace with htrace | htrace
      · exact calls_grow (l := []) htrace
      · exact calls_grow (l := [_]) htrace
  | link op n a tail next o hpc ha hfound hphases hheap hhead htrace hot hloc
      hshape =>
      subst hshape
      have hphase : phases s t = .linking op n := by rw [phases, hpc]; rfl
      exact h.frame (fun p => (carries_congr (linked_link hinv t o) hhead p).mp)
        (fun p u op v _ => filling_update hphase (by simp) hphases)
        (calls_grow (l := [_]) htrace)
        (fun p => by rw [hheap]; exact field_update Node.op (by rfl) p)
        (fun p => .inl (by rw [hheap]; exact field_update Node.data (by rfl) p)) hspoilt
  | retEnqueue op hphase hphases hheap hhead htrace hshape =>
      subst hshape
      refine h.frame (fun p => (carries_congr (fun _ => Iff.rfl) hhead p).mp)
        (fun p u op v _ => filling_update hphase (by simp) hphases)
        ?_ (fun p => by rw [hheap]) (fun p => .inl (by rw [hheap])) hspoilt
      rcases htrace with htrace | htrace
      · exact calls_grow (l := [_]) htrace
      · exact calls_grow (l := [_, _]) htrace
  | sawNext op value head tail n hpc hh hphases hheap hhead htrace hshape =>
      subst hshape
      have hphase : phases s t = .searching op value := by rw [phases, hpc]; rfl
      exact h.alone (l := []) hphase (by simp) hphases htrace hhead hheap hspoilt
  | retry op value head tail next hphase hphases hheap hhead htrace hshape =>
      subst hshape
      exact h.alone (l := []) hphase (by simp) hphases htrace hhead hheap hspoilt
  | retFalse op value head tail next hphase hfound hsame hnull hphases hheap hhead
      htrace hshape =>
      subst hshape
      exact h.alone (l := [_]) hphase (by simp) hphases htrace hhead hheap hspoilt
  | toMove op value head tail next hphase hfound hne hphases hheap hhead htrace
      hshape =>
      subst hshape
      exact h.alone (l := []) hphase (by simp) hphases htrace hhead hheap hspoilt
  | move op value head next x hphase hx hphases hheap hhead htrace hshape =>
      subst hshape
      refine h.frame (fun p => (carries_congr (fun _ => Iff.rfl) hhead p).mp)
        (fun p u op v _ => filling_update hphase (by simp) hphases)
        (calls_grow (l := []) htrace)
        (fun p => by rw [hheap]; exact field_update Node.op (by rfl) p) (fun p => ?_) hspoilt
      rw [hheap]
      by_cases hp : p = x
      · subst hp
        rw [Function.update_self]
        exact hmove op _ head next _ p (by rw [hphases, Function.update_self]) hx
      · rw [Function.update_of_ne hp]
        exact .inl rfl
  | lost op value head next old hphase hmissed hphases hheap hhead htrace hshape =>
      subst hshape
      exact h.alone (l := []) hphase (by simp) hphases htrace hhead hheap hspoilt
  | take op value head next old n x rest hphase hfound hh hx hchain hphases hheap
      htrace hshape =>
      subst hshape
      have hn : s.head.ptr = some n := by rw [hfound, hh]
      refine h.frame (fun p hp => ?_)
        (fun p u op v _ => filling_update hphase (by simp) hphases)
        (calls_grow (l := [_]) htrace) (fun p => by rw [hheap])
        (fun p => .inl (by rw [hheap])) hspoilt
      obtain ⟨⟨o, ho⟩, -⟩ := hp
      have hpn : p ≠ n := by
        rintro rfl
        simp [Shape.take] at ho
      have hsame : (sh.take t n).loc p = sh.loc p := Function.update_of_ne hpn _ _
      refine ⟨⟨o, hsame.symm.trans ho⟩, ?_⟩
      rw [hn]
      rintro ⟨⟩
      exact hpn rfl
  | release op value item n word hphase hphases hheap hhead htrace hloc hshape =>
      subst hshape
      have hlinked : ∀ p, (∃ o, (sh.release n).loc p = .linked o) ↔
          ∃ o, sh.loc p = .linked o := linked_update (by simp [hloc]) (by simp)
      exact h.frame (fun p => (carries_congr hlinked hhead p).mp)
        (fun p u op v _ => filling_update hphase (by simp) hphases)
        (calls_grow (l := [_]) htrace)
        (fun p => by rw [hheap]; exact field_update Node.op (by rfl) p)
        (fun p => .inl (by rw [hheap]; exact field_update Node.data (by rfl) p)) hspoilt

omit [DecidableEq Thread] in
theorem Intact.initial (heap : P → Node P T) (dummy : P) (data : T)
    (D : P → Prop) :
    Intact (Queue.initial heap dummy data : State Thread P T)
      (Shape.initial dummy) D := by
  rintro p ⟨⟨o, ho⟩, hne⟩ -
  simp only [Shape.initial] at ho
  split at ho
  · rename_i heq
    exact absurd (by rw [heq]; rfl) hne
  · cases ho

/-! ## Conservation from the books -/

omit [DecidableEq Thread] [DecidableEq P] in
/-- When no operation is in progress, the items that are not returned are in the
nodes behind `head_`. -/
theorem Places.quiescent {place : Nat → Place Thread P} (hinv : Inv s sh)
    (hplaces : Places s sh place) (hquiet : Quiescent s) {op : Nat} {v : T}
    (hcall : (op, v) ∈ calls s.trace) :
    (∃ p, p ∈ (sh.chain none).tail ∧ (s.heap p).op = op) ∨
      op ∈ (deliveries s.trace).map Prod.fst := by
  have hidle : ∀ t, phases s t = .idle := fun t => by
    rw [phases, hquiet t]
    rfl
  have hat := (hplaces.itemAt op _).mp rfl
  cases hplace : place op with
  | absent =>
      rw [hplace] at hat
      exact absurd hcall (hat v)
  | asked t =>
      rw [hplace, ItemAt, hidle] at hat
      exact hat.elim
  | taken t =>
      rw [hplace, ItemAt, hidle] at hat
      exact hat.elim
  | returned =>
      rw [hplace] at hat
      exact .inr hat
  | node p =>
      rw [hplace] at hat
      obtain ⟨hcarries, hop⟩ := hat
      obtain ⟨⟨o, ho⟩, hne⟩ := hinv.carries_iff.mp hcarries
      have hpath := hinv.global.path o
      cases o with
      | some t =>
          have hempty : sh.chain (some t) = [] := by
            have hroot : entry s (some t) = none := by
              rw [entry, hquiet t]
              rfl
            rw [hroot] at hpath
            exact hpath.eq_nil_of_none
          rw [hempty] at ho
          cases ho
      | none =>
          refine .inl ⟨p, ?_, hop⟩
          cases hchain : sh.chain none with
          | nil => rw [hchain] at ho; cases ho
          | cons d nodes =>
              rw [hchain] at ho hpath
              rcases List.mem_cons.mp ho with rfl | hmem
              · exact absurd hpath.1 hne
              · exact hmem

/-- The pairs of item and value in the nodes behind `head_`. -/
def queued (s : State Thread P T) (sh : Shape Thread P) : List (Nat × T) :=
  (sh.chain none).tail.map fun p => ((s.heap p).op, (s.heap p).data)

section

omit [DecidableEq Thread] [DecidableEq P]

/-- The nodes behind `head_` carry items. -/
theorem Inv.carries_tail (hinv : Inv s sh) {p : P}
    (hp : p ∈ (sh.chain none).tail) : Carries s sh p := by
  refine hinv.carries_iff.mpr ⟨⟨none, List.mem_of_mem_tail hp⟩, ?_⟩
  have hpath := hinv.global.path none
  have hnodup := hpath.nodup
  cases hchain : sh.chain none with
  | nil => rw [hchain] at hp; cases hp
  | cons d nodes =>
      rw [hchain] at hp hpath hnodup
      rw [show s.head.ptr = some d from hpath.1]
      rintro ⟨⟩
      exact (List.nodup_cons.mp hnodup).1 hp

/-- No item is in two nodes, or in a node and returned. -/
theorem Places.queued_nodup {place : Nat → Place Thread P} (hinv : Inv s sh)
    (hplaces : Places s sh place) :
    (deliveries s.trace ++ queued s sh).Nodup := by
  have hnodes : ((sh.chain none).tail).Nodup :=
    (hinv.global.path none).nodup.sublist (List.tail_sublist _)
  refine List.nodup_append.mpr
    ⟨List.Nodup.of_map _ hplaces.once, ?_, ?_⟩
  · refine List.Nodup.map_on (fun p hp q hq heq => ?_) hnodes
    have hop : (s.heap p).op = (s.heap q).op := (Prod.mk.inj heq).1
    have hsame := hplaces.unique (i := (s.heap q).op) (q := .node p) (r := .node q)
      ⟨hinv.carries_tail hp, hop⟩ ⟨hinv.carries_tail hq, rfl⟩
    cases hsame
    rfl
  · rintro x hx y hy rfl
    obtain ⟨p, hp, rfl⟩ := List.mem_map.mp hy
    have hsame := hplaces.unique (i := (s.heap p).op) (q := .node p) (r := .returned)
      ⟨hinv.carries_tail hp, rfl⟩ (List.mem_map_of_mem hx)
    cases hsame

/-- Whatever books keep, the queue conserves its values as soon as nothing is
spoilt while no operation is in progress. -/
theorem Conserves.of_books {place : Nat → Place Thread P} {D : P → Prop}
    (hinv : Inv s sh) (hplaces : Places s sh place) (hledger : Ledger s)
    (hintact : Intact s sh D) (hclean : Quiescent s → ∀ p, ¬ D p) :
    Conserves s where
  returned_le := by
    have hnodup : (deliveries s.trace).Nodup := List.Nodup.of_map _ hplaces.once
    have hsub := List.subperm_of_subset hnodup hledger.delivered
    rw [returned, enqueued, ← Multiset.map_coe, ← Multiset.map_coe]
    exact Multiset.map_le_map (Multiset.coe_le.mpr hsub)
  balance := by
    intro hquiet
    have hpath := hinv.global.path none
    have hqueued : ∀ x ∈ queued s sh, x ∈ calls s.trace := by
      intro x hx
      obtain ⟨p, hp, rfl⟩ := List.mem_map.mp hx
      have hnot : ∀ t op v, phases s t ≠ .filling op v p := fun t op v hfill => by
        rw [phases, hquiet t] at hfill
        cases hfill
      exact (hintact p (hinv.carries_tail hp) hnot).resolve_right (hclean hquiet p)
    have hperm : (calls s.trace).Perm (deliveries s.trace ++ queued s sh) := by
      refine (List.perm_ext_iff_of_nodup (List.Nodup.of_map _ hplaces.numbered.nodup)
        (hplaces.queued_nodup hinv)).mpr ?_
      rintro ⟨op, v⟩
      rw [List.mem_append]
      refine ⟨fun hcall => ?_, ?_⟩
      · rcases hplaces.quiescent hinv hquiet hcall with ⟨p, hp, rfl⟩ | hret
        · have hmem := List.mem_map_of_mem
            (f := fun p => ((s.heap p).op, (s.heap p).data)) hp
          rw [hplaces.numbered.value_unique hcall (hqueued _ hmem)]
          exact .inr hmem
        · obtain ⟨⟨op', w⟩, hmem, rfl⟩ := List.mem_map.mp hret
          rw [hplaces.numbered.value_unique hcall (hledger.delivered _ hmem)]
          exact .inl hmem
      · rintro (hdel | hnode)
        · exact hledger.delivered _ hdel
        · exact hqueued _ hnode
    refine ⟨(queued s sh).map Prod.snd, ?_, ?_⟩
    · obtain ⟨a, ha, -⟩ := hinv.global.tail_mem
      cases hchain : sh.chain none with
      | nil => rw [hchain] at ha; cases ha
      | cons d nodes =>
          rw [hchain] at hpath
          refine ⟨d, nodes, hpath, ?_⟩
          rw [queued, hchain, List.map_map]
          rfl
    · have hvalues := hperm.map Prod.snd
      rw [List.map_append] at hvalues
      rw [enqueued, returned, Multiset.coe_add]
      exact Multiset.coe_eq_coe.mpr hvalues

end

/-! ## A move that leaves its source alone -/

/-- The head and successor with which a dequeue goes into its exchange. -/
def Phase.window : Phase P T → Option (TaggedPtr P × TaggedPtr P)
  | .moving _ _ head next => some (head, next)
  | .moved _ _ head next _ => some (head, next)
  | _ => none

omit [DecidableEq Thread] [DecidableEq P] in
/-- As long as its exchange would succeed, the successor that a dequeue has
loaded carries an item of the queue. -/
theorem Inv.window_carries (hinv : Inv s sh) (hbound : Bounded s) {t : Thread}
    {head next : TaggedPtr P} {x : P}
    (hwindow : (phases s t).window = some (head, next))
    (hfound : s.head = head) (hx : next.ptr = some x) :
    Carries s sh x ∧ sh.loc x = .linked none := by
  have hlocal := hinv.threads t
  have hready : HeadSeen s head fun h =>
      (s.heap h).next = next ∧ s.tail.ptr ≠ head.ptr := by
    cases hpc : s.pc t <;> rw [phases, hpc] at hwindow <;> cases hwindow <;>
      rw [hpc] at hlocal <;> exact hlocal.2
  obtain ⟨h, hh, -⟩ := id hready
  obtain ⟨-, rest, hchain⟩ := hinv.window_chain hbound.1 hready hh hx hfound
  refine ⟨hinv.carries_second hchain, (hinv.global.mem_chain none x).mp ?_⟩
  rw [hchain]
  simp

/-- A thread about to exchange `head_` with success has moved out the value of
the item in the new dummy, provided that it is `sole`. -/
def MovedOut (s : State Thread P T) (sole : Thread → Prop) : Prop :=
  ∀ t op v head next old x, phases s t = .moved op v head next old →
    s.head = head → next.ptr = some x → sole t →
    ((s.heap x).op, v) ∈ calls s.trace

omit [DecidableEq P] in
/-- A step of a thread that does not move a value out keeps what the others
have moved out. -/
theorem MovedOut.frame {t : Thread} {k : Phase P T} {A A' : Thread → Prop}
    (hinv : Inv s sh) (hbound : Bounded s) (h : MovedOut s A)
    (hphases : phases s' = Function.update (phases s) t k)
    (hk : ∀ op v head next old, k ≠ .moved op v head next old)
    (hhead : s'.head = s.head)
    (hcalls : ∀ x ∈ calls s.trace, x ∈ calls s'.trace)
    (hop : ∀ p, sh.loc p = .linked none → (s'.heap p).op = (s.heap p).op)
    (hsole : ∀ u, (phases s u).window ≠ none → A' u → A u) : MovedOut s' A' := by
  intro u op v head next old x hphase hfound hx hsoleu
  rw [hphases] at hphase
  obtain ⟨-, hphase⟩ := other_of_update id hphase (hk _ _ _ _ _)
  have hwindow : (phases s u).window = some (head, next) := congrArg Phase.window hphase
  have hfound : s.head = head := hhead.symm.trans hfound
  have hlinked := (hinv.window_carries hbound hwindow hfound hx).2
  rw [hop x hlinked]
  exact hcalls _ (h u op v head next old x hphase hfound hx
    (hsole u (by rw [hwindow]; simp) hsoleu))

/-- What has been moved out stays right across every step, if the step itself
moves out the right value. -/
theorem MovedOut.effect {movedFrom : T → T} {t : Thread} {A A' : Thread → Prop}
    (hinv : Inv s sh) (hbound : Bounded s') (hback : Bounded s)
    (heffect : Effect movedFrom s sh t s' sh') (hinv' : Inv s' sh')
    (h : MovedOut s A)
    (hmove : ∀ op value head next x, phases s t = .moving op value head next →
      s.head = head → next.ptr = some x → A' t →
      ((s.heap x).op, (s.heap x).data) ∈ calls s.trace)
    (hsole : s'.head = s.head → ∀ u, (phases s u).window ≠ none → A' u → A u) :
    MovedOut s' A' := by
  cases heffect with
  | callEnqueue value hphase hphases hheap hhead htrace hshape =>
      exact h.frame hinv hback hphases (by simp) hhead (calls_grow (l := [_]) htrace)
        (fun p _ => by rw [hheap]) (hsole hhead)
  | callDequeue value hphase hphases hheap hhead htrace hshape =>
      exact h.frame hinv hback hphases (by simp) hhead (calls_grow (l := [_]) htrace)
        (fun p _ => by rw [hheap]) (hsole hhead)
  | allocate op value n hphase hphases hheap hhead htrace hloc hshape =>
      exact h.frame hinv hback hphases (by simp) hhead (calls_grow (l := []) htrace)
        (fun p _ => by rw [hheap]) (hsole hhead)
  | construct op value n hphase hphases hheap hhead htrace hloc hshape =>
      refine h.frame hinv hback hphases (by simp) hhead (calls_grow (l := []) htrace)
        (fun p hp => ?_) (hsole hhead)
      have hpn : p ≠ n := by
        rintro rfl
        rw [hloc] at hp
        cases hp
      rw [hheap, Function.update_of_ne hpn]
  | fill op value n hphase hphases hheap hhead htrace hshape =>
      exact h.frame hinv hback hphases (by simp) hhead (calls_grow (l := []) htrace)
        (fun p _ => by rw [hheap]; exact field_update Node.op (by rfl) p) (hsole hhead)
  | quiet hphases hheap hhead htrace hshape =>
      intro u op v head next old x hphase hfound hx hsoleu
      rw [hphases] at hphase
      have hcalls : ∀ x ∈ calls s.trace, x ∈ calls s'.trace := by
        rcases htrace with htrace | htrace
        · exact calls_grow (l := []) htrace
        · exact calls_grow (l := [_]) htrace
      rw [hheap]
      refine hcalls _ (h u op v head next old x hphase (hhead ▸ hfound) hx ?_)
      exact hsole hhead u (by rw [hphase]; simp [Phase.window]) hsoleu
  | link op n a tail next o hpc ha hfound hphases hheap hhead htrace hot hloc
      hshape =>
      exact h.frame hinv hback hphases (by simp) hhead (calls_grow (l := [_]) htrace)
        (fun p _ => by rw [hheap]; exact field_update Node.op (by rfl) p) (hsole hhead)
  | retEnqueue op hphase hphases hheap hhead htrace hshape =>
      refine h.frame hinv hback hphases (by simp) hhead ?_
        (fun p _ => by rw [hheap]) (hsole hhead)
      rcases htrace with htrace | htrace
      · exact calls_grow (l := [_]) htrace
      · exact calls_grow (l := [_, _]) htrace
  | sawNext op value head tail n hpc hh hphases hheap hhead htrace hshape =>
      exact h.frame hinv hback hphases (by simp) hhead (calls_grow (l := []) htrace)
        (fun p _ => by rw [hheap]) (hsole hhead)
  | retry op value head tail next hphase hphases hheap hhead htrace hshape =>
      exact h.frame hinv hback hphases (by simp) hhead (calls_grow (l := []) htrace)
        (fun p _ => by rw [hheap]) (hsole hhead)
  | retFalse op value head tail next hphase hfound hsame hnull hphases hheap hhead
      htrace hshape =>
      exact h.frame hinv hback hphases (by simp) hhead (calls_grow (l := [_]) htrace)
        (fun p _ => by rw [hheap]) (hsole hhead)
  | toMove op value head tail next hphase hfound hne hphases hheap hhead htrace
      hshape =>
      exact h.frame hinv hback hphases (by simp) hhead (calls_grow (l := []) htrace)
        (fun p _ => by rw [hheap]) (hsole hhead)
  | move op value head next x hphase hx hphases hheap hhead htrace hshape =>
      intro u op' v head' next' old y hu hfound hy hsoleu
      have hops : (s'.heap y).op = (s.heap y).op := by
        rw [hheap]
        exact field_update Node.op (by rfl) y
      rw [hops, htrace]
      rw [hphases] at hu
      by_cases hut : u = t
      · subst hut
        rw [Function.update_self] at hu
        cases hu
        rw [hx] at hy
        cases hy
        exact hmove op value head next x hphase (hhead ▸ hfound) hx hsoleu
      · rw [Function.update_of_ne hut] at hu
        refine h u op' v head' next' old y hu (hhead ▸ hfound) hy ?_
        exact hsole hhead u (by rw [hu]; simp [Phase.window]) hsoleu
  | lost op value head next old hphase hmissed hphases hheap hhead htrace hshape =>
      exact h.frame hinv hback hphases (by simp) hhead (calls_grow (l := []) htrace)
        (fun p _ => by rw [hheap]) (hsole hhead)
  | take op value head next old n x rest hphase hfound hh hx hchain hphases hheap
      htrace hshape =>
      -- whoever else is in front of its exchange has loaded the old head
      intro u op' v head' next' old' y hu hfound' hy hsoleu
      rw [hphases] at hu
      obtain ⟨-, hu⟩ := other_of_update id hu (by simp)
      have htakes : takes s'.trace = takes s.trace + 1 := by rw [htrace]; rfl
      have hlocal := hinv.threads u
      have hseen : HeadSeen s head' fun h =>
          (s.heap h).next = next' ∧ s.tail.ptr ≠ head'.ptr := by
        cases hpc : s.pc u <;> rw [phases, hpc] at hu <;> cases hu
        rw [hpc] at hlocal
        exact hlocal.2
      refine absurd hfound' (hseen.stale (by rw [← htakes]; exact hbound.1) ?_)
      rw [← htakes]
      exact hinv'.global.head_tag
  | release op value item n word hphase hphases hheap hhead htrace hloc hshape =>
      exact h.frame hinv hback hphases (by simp) hhead (calls_grow (l := [_]) htrace)
        (fun p _ => by rw [hheap]; exact field_update Node.op (by rfl) p) (hsole hhead)

omit [DecidableEq Thread] in
theorem MovedOut.initial (heap : P → Node P T) (dummy : P) (data : T)
    (A : Thread → Prop) :
    MovedOut (Queue.initial heap dummy data : State Thread P T) A := by
  intro t op v head next old x hphase
  cases hphase

/-- What is kept next to the invariant when a move leaves its source alone. -/
structure Books (s : State Thread P T) (sh : Shape Thread P) : Prop where
  places : ∃ place, Places s sh place
  ledger : Ledger s
  intact : Intact s sh fun _ => False
  movedOut : MovedOut s fun _ => True

theorem Books.effect {t : Thread} (hback : Bounded s) (hbound : Bounded s')
    (hinv : Inv s sh) (hinv' : Inv s' sh') (heffect : Effect id s sh t s' sh')
    (h : Books s sh) : Books s' sh' := by
  obtain ⟨⟨place, hplaces⟩, hledger, hintact, hmoved⟩ := h
  refine ⟨hplaces.effect hinv hinv' heffect, hledger.effect hinv heffect ?_,
    hintact.effect hinv heffect hledger (fun _ _ _ _ _ _ _ _ => .inl rfl)
      (fun _ _ => id), hmoved.effect hinv hbound hback heffect hinv' ?_
      (fun _ _ _ => id)⟩
  · intro op value head next old x hphase hfound hx
    exact hmoved _ op value head next old x hphase hfound hx trivial
  · intro op value head next x hphase hfound hx _
    obtain ⟨hcarries, hloc⟩ := hinv.window_carries hback (by rw [hphase]; rfl)
      hfound hx
    refine (hintact x hcarries fun u op' v hfill => ?_).resolve_right id
    have hother := hinv.loc_filling hfill
    rw [hloc] at hother
    cases hother

/-- Conservation: with an element type whose move leaves the source intact, any
number of threads in any interleaving neither duplicate nor lose a value, in
every run with fewer than `2 ^ 64` exchanges on each of `head_` and `tail_`. -/
theorem queue_conserves (hreach : (machine id).Reachable s) (hbound : Bounded s) :
    Conserves s := by
  obtain ⟨sh, hinv, hbooks⟩ := reachable_shape (L := Books)
    (fun heap dummy data => ⟨Places.initial heap dummy data,
      Ledger.initial heap dummy data, Intact.initial heap dummy data _,
      MovedOut.initial heap dummy data _⟩)
    (fun s a s' sh sh' _ hback hbound hinv hinv' heffect hbooks =>
      hbooks.effect hback hbound hinv hinv' heffect) hreach hbound
  obtain ⟨place, hplaces⟩ := hbooks.places
  exact .of_books hinv hplaces hbooks.ledger hbooks.intact fun _ _ => id

/-- Two enqueues and a dequeue, one after the other. -/
theorem queue_conserves_run : ∃ s : State ℕ ℕ ℕ,
    (machine id).exec (initial (fun _ => ⟨⟨none, 0⟩, 0, 0⟩) 0 0)
      (soloEnqueue 1 7 1 ++ soloEnqueue 2 8 2 ++ soloDequeue 1 0 none) = some s ∧
    Conserves s := by
  obtain ⟨s, hrun, hbound⟩ : ∃ s : State ℕ ℕ ℕ,
      (machine id).exec (initial (fun _ => ⟨⟨none, 0⟩, 0, 0⟩) 0 0)
        (soloEnqueue 1 7 1 ++ soloEnqueue 2 8 2 ++ soloDequeue 1 0 none) = some s ∧
      Bounded s := ⟨_, rfl, by decide, by decide⟩
  exact ⟨s, hrun, queue_conserves (.of_exec ⟨_, _, _, rfl⟩ hrun) hbound⟩

/-! ## The bound is needed -/

/-- Thread `0` has stalled in front of its exchange with the head it loaded
first, `⟨node 0, tag 0⟩`; meanwhile `head_` has been exchanged `k` times, the
queue is empty with dummy `x`, and node `y` is free. -/
structure Stalled (x y k : ℕ) (s : State ℕ ℕ ℕ) : Prop where
  head : s.head = ⟨some x, .ofNat k⟩
  tail : s.tail = ⟨some x, .ofNat k⟩
  next : (s.heap x).next = ⟨none, 0⟩
  free : s.allocated y = false
  idle : s.pc 1 = .idle
  stalled : ∃ op old, s.pc 0 = .casHead op 7 ⟨some 0, 0⟩ ⟨some 1, 1⟩ old
  once : (enqueued s).count 7 = 1
  delivered : (returned s).count 7 = 1

/-- Thread `1` enqueues and dequeues once more: dummy and free node change
places, every exchange raises the tags by one, and the node that becomes free
keeps no link. -/
theorem Stalled.cycle {x y k : ℕ} {s : State ℕ ℕ ℕ} (h : Stalled x y k s)
    (hne : x ≠ y) (hreach : (machine id).Reachable s) :
    ∃ s', (machine id).Reachable s' ∧ Stalled y x (k + 1) s' ∧ nextPtr s' x = none := by
  obtain ⟨s₁, hrun₁, hhead₁, htail₁, hheap₁, hfree₁, hpc₁, htrace₁⟩ :=
    solo_enqueue id 0 h.idle h.tail h.next h.free hne
  have hnext₁ : (s₁.heap x).next.ptr = some y := by
    rw [hheap₁, Function.update_self]
  have hy₁ : s₁.heap y = ⟨⟨none, 0⟩, 0, s.trace.length⟩ := by
    rw [hheap₁, Function.update_of_ne hne.symm, Function.update_self]
  obtain ⟨s₂, hrun₂, hhead₂, htail₂, hheap₂, hfree₂, hpc₂, htrace₂⟩ :=
    solo_dequeue id 0 none (hpc₁ ▸ h.idle) (hhead₁.trans h.head)
      (by rw [htail₁]; simpa using hne.symm) hnext₁ hne
  refine ⟨s₂, hreach.exec (Machine.exec_trans _ hrun₁ hrun₂), ?_, ?_⟩
  · exact {
      head := by rw [hhead₂, ofNat_tag_succ]
      tail := by rw [htail₂, htail₁, ofNat_tag_succ]
      next := by rw [hheap₂, Function.update_of_ne hne.symm, Function.update_self, hy₁]
      free := by rw [hfree₂, Function.update_self]
      idle := by rw [hpc₂, hpc₁, h.idle]
      stalled := by rw [hpc₂, hpc₁]; exact h.stalled
      once := by
        rw [← h.once]
        simp [enqueued, htrace₂, htrace₁, calls_cons, Event.called]
      delivered := by
        rw [← h.delivered]
        simp [returned, htrace₂, htrace₁, deliveries_cons, Event.delivered, hy₁] }
  · rw [nextPtr, hheap₂, Function.update_self]

/-- The stall: thread `1` enqueues `7`, thread `0` moves it out and stops in
front of its exchange, and thread `1` dequeues it. -/
def stall : List (Action ℕ ℕ ℕ) :=
  soloEnqueue 1 7 1 ++ .tryDequeue 0 0 :: List.replicate 5 (.run 0) ++
    soloDequeue 1 0 none

theorem Stalled.start : ∃ s, (machine id).Reachable s ∧ Stalled 1 0 1 s := by
  have hrun : ∃ s, (machine id).exec (initial (fun _ => ⟨⟨none, 0⟩, 0, 0⟩) 0 0)
      stall = some s ∧ Stalled 1 0 1 s :=
    ⟨_, rfl, rfl, rfl, rfl, rfl, rfl, ⟨_, _, rfl⟩, rfl, rfl⟩
  obtain ⟨s, hrun, h⟩ := hrun
  exact ⟨s, .of_exec ⟨_, _, _, rfl⟩ hrun, h⟩

/-- Every second cycle brings `head_` back to node `0`. -/
theorem Stalled.wrapped (n : ℕ) :
    ∃ s, (machine id).Reachable s ∧ Stalled 0 1 (2 * n + 2) s ∧ nextPtr s 1 = none := by
  induction n with
  | zero =>
      obtain ⟨s, hreach, h⟩ := Stalled.start
      exact h.cycle (by decide) hreach
  | succ n ih =>
      obtain ⟨s, hreach, h, -⟩ := ih
      obtain ⟨s₁, hreach₁, h₁, -⟩ := h.cycle (by decide) hreach
      exact h₁.cycle (by decide) hreach₁

/-- Once the tag of `head_` has gone round, the stalled exchange succeeds and
hands out its value a second time. -/
theorem Stalled.duplicate {y : ℕ} {s : State ℕ ℕ ℕ} (h : Stalled 0 y (2 ^ 64) s)
    (hreach : (machine id).Reachable s) :
    ∃ s' : State ℕ ℕ ℕ, (machine id).Reachable s' ∧ ¬ Conserves s' := by
  obtain ⟨op, old, hpc⟩ := h.stalled
  have hhead : s.head = ⟨some 0, 0⟩ := h.head
  obtain ⟨s', hrun, htrace⟩ : ∃ s' : State ℕ ℕ ℕ, (machine id).exec s [.run 0, .deallocate 0 none] =
      some s' ∧ s'.trace = .retDequeue op (some (s.heap 1).op) 7 ::
        .take op (s.heap 1).op :: s.trace := by
    simp [machine, step, stepEnqueue, stepDequeue, hpc, hhead, State.goto,
      State.emit, State.setNext, State.setNode]
  refine ⟨s', hreach.exec hrun, fun hconserves => ?_⟩
  have hle := Multiset.count_le_of_le 7 hconserves.returned_le
  have hreturned : (returned s').count 7 = (returned s).count 7 + 1 := by
    simp [returned, htrace, deliveries_cons, Event.delivered]
  have henqueued : (enqueued s').count 7 = (enqueued s).count 7 := by
    simp [enqueued, htrace, calls_cons, Event.called]
  rw [hreturned, henqueued, h.delivered, h.once] at hle
  omega

/-- Without the bound there is a run in which a value is returned twice. -/
theorem queue_duplicates_on_wrap :
    ¬ ∀ s : State ℕ ℕ ℕ, (machine id).Reachable s → Conserves s := by
  intro hall
  obtain ⟨s, hreach, h, -⟩ := Stalled.wrapped (2 ^ 63 - 1)
  obtain ⟨s', hreach', hnot⟩ := h.duplicate hreach
  exact hnot (hall s' hreach')

end Queue
end Lockfree
end Cyan

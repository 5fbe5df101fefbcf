import Cyan.Lockfree.QueueConservation
import Mathlib.Data.Fintype.Basic

/-!
# Who consumes a value that can only be moved

`try_dequeue` moves the value out of the successor of the head and only then
exchanges `head_`.  An iteration that loses the exchange has therefore already
overwritten the caller's value and emptied the node, unless a move happens to
change nothing.

* `WinnerConsumes` is what a caller expects: a losing iteration leaves no trace,
  a call that returns `false` leaves the caller's value alone, and every
  enqueued object reaches exactly one caller unchanged.
* `WinsAlone` is the condition on a step under which this is so: a thread
  exchanges `head_` with success only while no other thread is between its
  re-check of `head_` and its own exchange.
* `winner_consumes` proves it for every element type and every run that keeps
  to the condition.
* `loser_consumes` is a run of two overlapping calls in which the winner gets
  an empty object and the loser returns `false` with the object in its hands.
-/

namespace Cyan
namespace Lockfree
namespace Queue

open Base

variable {Thread P T : Type*} [DecidableEq Thread] [DecidableEq P]
variable {s s' : State Thread P T} {sh sh' : Shape Thread P}

/-! ## The property and the condition -/

/-- Only the winner of the exchange on `head_` consumes. -/
structure WinnerConsumes (movedFrom : T → T) (s : State Thread P T) : Prop where
  /-- an iteration that is about to fail its exchange has changed neither the
  caller's value nor the data of the node it moved from -/
  loser : ∀ t op value head next old,
    s.pc t = .casHead op value head next old → s.head ≠ head →
      value = old.1 ∧ movedFrom old.2 = old.2
  /-- whenever the loop starts over, the caller's value is what it was -/
  retry : ∀ t op value, s.pc t = .loadHead op value →
    .callDequeue op value ∈ s.trace
  /-- a call that returns `false` leaves the caller's value as it was -/
  retFalse : ∀ op value, .retDequeue op none value ∈ s.trace →
    .callDequeue op value ∈ s.trace
  /-- a successful call returns what the call it dequeues had enqueued -/
  delivered : ∀ x ∈ deliveries s.trace, x ∈ calls s.trace
  /-- no object is handed out twice -/
  once : ((deliveries s.trace).map Prod.fst).Nodup
  /-- no object is lost -/
  conserves : Conserves s

/-- The thread is in front of its exchange on `head_` and would succeed. -/
def Pc.finds (head : TaggedPtr P) : Pc P T → Bool
  | .casHead _ _ expected _ _ => head = expected
  | _ => false

/-- If the step is a successful exchange on `head_`, no other thread is between
its re-check of `head_` and its own exchange. -/
def WinsAlone (s : State Thread P T) (a : Action Thread P T) : Prop :=
  (s.pc a.thread).finds s.head = true →
    ∀ u, u ≠ a.thread → (phases s u).window = none

instance [Fintype Thread] (s : State Thread P T) (a : Action Thread P T) :
    Decidable (WinsAlone s a) :=
  inferInstanceAs (Decidable (_ → ∀ _ : Thread, _ → _))

omit [DecidableEq Thread] in
theorem WinsAlone.sole {a : Action Thread P T} (h : WinsAlone s a) {op : Nat}
    {value : T} {head next : TaggedPtr P} {old : T × T}
    (hphase : phases s a.thread = .moved op value head next old)
    (hfound : s.head = head) : ∀ u, u ≠ a.thread → (phases s u).window = none := by
  refine h ?_
  cases hpc : s.pc a.thread <;> rw [phases, hpc] at hphase <;> cases hphase
  simp [Pc.finds, hfound]

/-! ## What one iteration keeps -/

/-- The call and the caller's value, until the iteration has moved something
into it. -/
def Phase.caller : Phase P T → Option (Nat × T)
  | .searching op value => some (op, value)
  | .checking op value _ _ _ => some (op, value)
  | .moving op value _ _ => some (op, value)
  | _ => none

/-- Every dequeue that is past its re-check has the current head, and the
callers' values are untouched. -/
structure Undisturbed (s : State Thread P T) : Prop where
  current : ∀ t head next, (phases s t).window = some (head, next) → s.head = head
  caller : ∀ t op value, (phases s t).caller = some (op, value) →
    .callDequeue op value ∈ s.trace
  retFalse : ∀ op value, .retDequeue op none value ∈ s.trace →
    .callDequeue op value ∈ s.trace

omit [DecidableEq P] in
/-- A step of a thread that leaves `head_` alone and enters a phase with the
current head and the untouched value of its caller. -/
theorem Undisturbed.frame {t : Thread} {k : Phase P T} {l : List (Event T)}
    (h : Undisturbed s) (hphases : phases s' = Function.update (phases s) t k)
    (hcurrent : ∀ u head next, u ≠ t → (phases s u).window = some (head, next) →
      s'.head = head)
    (hwindow : ∀ head next, k.window = some (head, next) → s'.head = head)
    (hcaller : ∀ op value, k.caller = some (op, value) →
      .callDequeue op value ∈ s'.trace)
    (htrace : s'.trace = l ++ s.trace)
    (hnone : ∀ op value, .retDequeue op none value ∈ l →
      .callDequeue op value ∈ s.trace) : Undisturbed s' where
  current u head next hu := by
    rw [hphases] at hu
    by_cases hut : u = t
    · subst hut
      rw [Function.update_self] at hu
      exact hwindow head next hu
    · rw [Function.update_of_ne hut] at hu
      exact hcurrent u head next hut hu
  caller u op value hu := by
    rw [hphases] at hu
    by_cases hut : u = t
    · subst hut
      rw [Function.update_self] at hu
      exact hcaller op value hu
    · rw [Function.update_of_ne hut] at hu
      rw [htrace]
      exact List.mem_append_right _ (h.caller u op value hu)
  retFalse op value hret := by
    rw [htrace] at hret ⊢
    refine List.mem_append_right _ ?_
    rcases List.mem_append.mp hret with hnew | hold
    · exact hnone op value hnew
    · exact h.retFalse op value hold

/-- Losing the exchange is out of the question while every thread past its
re-check has the current head. -/
theorem Undisturbed.effect {movedFrom : T → T} {t : Thread}
    (heffect : Effect movedFrom s sh t s' sh') (h : Undisturbed s)
    (halone : ∀ op value head next old, phases s t = .moved op value head next old →
      s.head = head → ∀ u, u ≠ t → (phases s u).window = none) :
    Undisturbed s' := by
  have hcurrent : s'.head = s.head → ∀ u head next, u ≠ t →
      (phases s u).window = some (head, next) → s'.head = head := by
    intro hhead u head next _ hu
    rw [hhead]
    exact h.current u head next hu
  cases heffect with
  | callEnqueue value hphase hphases hheap hhead htrace hshape =>
      exact h.frame (l := [_]) hphases (hcurrent hhead) (by simp [Phase.window])
        (by simp [Phase.caller]) htrace (by simp)
  | callDequeue value hphase hphases hheap hhead htrace hshape =>
      refine h.frame (l := [_]) hphases (hcurrent hhead) (by simp [Phase.window])
        (fun op' value' hcaller => ?_) htrace (by simp)
      cases hcaller
      rw [htrace]
      exact List.mem_cons_self
  | allocate op value n hphase hphases hheap hhead htrace hloc hshape =>
      exact h.frame (l := []) hphases (hcurrent hhead) (by simp [Phase.window])
        (by simp [Phase.caller]) htrace (by simp)
  | construct op value n hphase hphases hheap hhead htrace hloc hshape =>
      exact h.frame (l := []) hphases (hcurrent hhead) (by simp [Phase.window])
        (by simp [Phase.caller]) htrace (by simp)
  | fill op value n hphase hphases hheap hhead htrace hshape =>
      exact h.frame (l := []) hphases (hcurrent hhead) (by simp [Phase.window])
        (by simp [Phase.caller]) htrace (by simp)
  | quiet hphases hheap hhead htrace hshape =>
      have hupdate : phases s' = Function.update (phases s) t (phases s t) := by
        rw [hphases, Function.update_eq_self]
      obtain ⟨l, hl, hnone⟩ : ∃ l, s'.trace = l ++ s.trace ∧
          ∀ op value, Event.retDequeue op none value ∉ l := by
        rcases htrace with htrace | htrace
        · exact ⟨[], htrace, by simp⟩
        · exact ⟨[_], htrace, by simp⟩
      refine h.frame hupdate (hcurrent hhead)
        (fun head next hw => hhead ▸ h.current t head next hw)
        (fun op value hcaller => ?_) hl (fun op value hmem => absurd hmem (hnone _ _))
      rw [hl]
      exact List.mem_append_right _ (h.caller t op value hcaller)
  | link op n a tail next o hpc ha hfound hphases hheap hhead htrace hot hloc
      hshape =>
      exact h.frame (l := [_]) hphases (hcurrent hhead) (by simp [Phase.window])
        (by simp [Phase.caller]) htrace (by simp)
  | retEnqueue op hphase hphases hheap hhead htrace hshape =>
      rcases htrace with htrace | htrace
      · exact h.frame (l := [_]) hphases (hcurrent hhead) (by simp [Phase.window])
          (by simp [Phase.caller]) htrace (by simp)
      · exact h.frame (l := [_, _]) hphases (hcurrent hhead) (by simp [Phase.window])
          (by simp [Phase.caller]) htrace (by simp)
  | sawNext op value head tail n hpc hh hphases hheap hhead htrace hshape =>
      have hphase : phases s t = .searching op value := by rw [phases, hpc]; rfl
      refine h.frame (l := []) hphases (hcurrent hhead) (by simp [Phase.window])
        (fun op' value' hcaller => ?_) htrace (by simp)
      rw [htrace]
      exact h.caller t op' value' (by rw [hphase]; exact hcaller)
  | retry op value head tail next hphase hphases hheap hhead htrace hshape =>
      refine h.frame (l := []) hphases (hcurrent hhead) (by simp [Phase.window])
        (fun op' value' hcaller => ?_) htrace (by simp)
      rw [htrace]
      exact h.caller t op' value' (by rw [hphase]; exact hcaller)
  | retFalse op value head tail next hphase hfound hsame hnull hphases hheap hhead
      htrace hshape =>
      refine h.frame (l := [_]) hphases (hcurrent hhead) (by simp [Phase.window])
        (by simp [Phase.caller]) htrace (fun op' value' hmem => ?_)
      cases List.mem_singleton.mp hmem
      exact h.caller t op value (by rw [hphase]; rfl)
  | toMove op value head tail next hphase hfound hne hphases hheap hhead htrace
      hshape =>
      refine h.frame (l := []) hphases (hcurrent hhead)
        (fun head' next' hw => ?_) (fun op' value' hcaller => ?_) htrace (by simp)
      · cases hw
        exact hhead.trans hfound
      · rw [htrace]
        exact h.caller t op' value' (by rw [hphase]; exact hcaller)
  | move op value head next x hphase hx hphases hheap hhead htrace hshape =>
      refine h.frame (l := []) hphases (hcurrent hhead)
        (fun head' next' hw => ?_) (by simp [Phase.caller]) htrace (by simp)
      exact hhead.trans (h.current t head' next' (by rw [hphase]; exact hw))
  | lost op value head next old hphase hmissed hphases hheap hhead htrace hshape =>
      exact absurd (h.current t head next (by rw [hphase]; rfl)) hmissed
  | take op value head next old n x rest hphase hfound hh hx hchain hphases hheap
      htrace hshape =>
      refine h.frame (l := [_]) hphases (fun u head' next' hu hw => ?_)
        (by simp [Phase.window]) (by simp [Phase.caller]) htrace (by simp)
      rw [halone op value head next old hphase hfound u hu] at hw
      cases hw
  | release op value item n word hphase hphases hheap hhead htrace hloc hshape =>
      exact h.frame (l := [_]) hphases (hcurrent hhead) (by simp [Phase.window])
        (by simp [Phase.caller]) htrace (by simp)

/-- The node that the iteration has moved the data out of. -/
def Phase.source : Phase P T → Option P
  | .moved _ _ _ next _ => next.ptr
  | _ => none

omit [DecidableEq P] in
theorem Phase.window_of_source {k : Phase P T} {p : P} (h : k.source = some p) :
    ∃ w, k.window = some w ∧ w.2.ptr = some p := by
  cases k with
  | moved op value head next old => exact ⟨_, rfl, h⟩
  | _ => cases h

/-- A thread past its re-check stays there until it wins the exchange. -/
theorem Effect.window_stays {movedFrom : T → T} {t : Thread}
    {w : TaggedPtr P × TaggedPtr P} (hinv' : Inv s' sh')
    (heffect : Effect movedFrom s sh t s' sh') (h : Undisturbed s)
    (hwindow : (phases s t).window = some w) :
    ((phases s' t).window = some w ∧ s'.head = s.head ∧
        ∀ p, (phases s t).source = some p → (phases s' t).source = some p) ∨
      s'.head.ptr = w.2.ptr ∧ takes s'.trace = takes s.trace + 1 := by
  cases heffect with
  | quiet hphases hheap hhead htrace hshape =>
      exact .inl ⟨by rw [hphases]; exact hwindow, hhead, fun p hp => hphases ▸ hp⟩
  | move op value head next x hphase hx hphases hheap hhead htrace hshape =>
      rw [hphase] at hwindow
      refine .inl ⟨?_, hhead, fun p hp => ?_⟩
      · rw [hphases, Function.update_self]
        exact hwindow
      · rw [hphase] at hp
        cases hp
  | lost op value head next old hphase hmissed hphases hheap hhead htrace hshape =>
      exact absurd (h.current t head next (by rw [hphase]; rfl)) hmissed
  | take op value head next old n x rest hphase hfound hh hx hchain hphases hheap
      htrace hshape =>
      rw [hphase] at hwindow
      cases hwindow
      refine .inr ⟨?_, by rw [htrace]; rfl⟩
      have hpath := hinv'.global.path none
      have hrest : sh'.chain none = x :: rest := by
        rw [hshape]
        simp [Shape.take, hchain]
      rw [hrest] at hpath
      exact hpath.1.trans hx.symm
  | callEnqueue value hphase => rw [hphase] at hwindow; cases hwindow
  | callDequeue value hphase => rw [hphase] at hwindow; cases hwindow
  | allocate op value n hphase => rw [hphase] at hwindow; cases hwindow
  | construct op value n hphase => rw [hphase] at hwindow; cases hwindow
  | fill op value n hphase => rw [hphase] at hwindow; cases hwindow
  | link op n a tail next o hpc => rw [phases, hpc] at hwindow; cases hwindow
  | retEnqueue op hphase => rw [hphase] at hwindow; cases hwindow
  | sawNext op value head tail n hpc => rw [phases, hpc] at hwindow; cases hwindow
  | retry op value head tail next hphase => rw [hphase] at hwindow; cases hwindow
  | retFalse op value head tail next hphase => rw [hphase] at hwindow; cases hwindow
  | toMove op value head tail next hphase => rw [hphase] at hwindow; cases hwindow
  | release op value item n word hphase => rw [hphase] at hwindow; cases hwindow

/-! ## The run -/

/-- The node is the source of a move whose thread has not exchanged `head_`
yet. -/
def Emptied (s : State Thread P T) (p : P) : Prop :=
  ∃ t, (phases s t).source = some p

/-- The thread is the only one between its re-check and its exchange. -/
def Sole (s : State Thread P T) (t : Thread) : Prop :=
  ∀ u, u ≠ t → (phases s u).window = none

/-- A node that has been emptied stays so until its thread wins, and then it is
the dummy. -/
theorem Emptied.effect {movedFrom : T → T} {t : Thread} (hinv' : Inv s' sh')
    (heffect : Effect movedFrom s sh t s' sh') (h : Undisturbed s) {p : P}
    (hcarries : Carries s' sh' p) (hp : Emptied s p) : Emptied s' p := by
  obtain ⟨u, hsource⟩ := hp
  by_cases hut : u = t
  · subst hut
    obtain ⟨w, hwindow, hw⟩ := Phase.window_of_source hsource
    rcases heffect.window_stays hinv' h hwindow with ⟨-, -, hstays⟩ | ⟨hwon, -⟩
    · exact ⟨u, hstays p hsource⟩
    · exact absurd (hwon.trans hw) hcarries.2
  · exact ⟨u, by rw [heffect.others hut]; exact hsource⟩

/-- Nobody leaves the exchange without winning it, so a thread that is alone
afterwards has been alone before. -/
theorem Sole.back {movedFrom : T → T} {t : Thread} (hinv : Inv s sh)
    (hinv' : Inv s' sh') (hbound : Bounded s')
    (heffect : Effect movedFrom s sh t s' sh') (h : Undisturbed s)
    (hhead : s'.head = s.head) {u : Thread} (hsole : Sole s' u) : Sole s u := by
  intro w hwu
  have hw := hsole w hwu
  by_cases hwt : w = t
  · subst hwt
    cases hwindow : (phases s w).window with
    | none => rfl
    | some x =>
        rcases heffect.window_stays hinv' h hwindow with ⟨hstays, -⟩ | ⟨-, htakes⟩
        · rw [hstays] at hw
          cases hw
        · -- an exchange on `head_` would have raised its tag
          have htag := hinv'.global.head_tag
          rw [hhead, hinv.global.head_tag, htakes] at htag
          have hlt := hbound.1
          have := ofNat_tag_inj (by omega) (by omega) htag
          omega
  · rw [heffect.others hwt] at hw
    exact hw

/-- What is kept next to the invariant when every winner is alone. -/
structure MoveBooks (s : State Thread P T) (sh : Shape Thread P) : Prop where
  places : ∃ place, Places s sh place
  ledger : Ledger s
  undisturbed : Undisturbed s
  intact : Intact s sh (Emptied s)
  movedOut : MovedOut s (Sole s)

theorem MoveBooks.effect {movedFrom : T → T} {a : Action Thread P T}
    (halone : WinsAlone s a) (hback : Bounded s) (hbound : Bounded s')
    (hinv : Inv s sh) (hinv' : Inv s' sh')
    (heffect : Effect movedFrom s sh a.thread s' sh') (h : MoveBooks s sh) :
    MoveBooks s' sh' := by
  obtain ⟨⟨place, hplaces⟩, hledger, hund, hintact, hmoved⟩ := h
  refine ⟨hplaces.effect hinv hinv' heffect, hledger.effect hinv heffect ?_,
    hund.effect heffect fun _ _ _ _ _ => halone.sole,
    hintact.effect hinv heffect hledger ?_
      (fun p hp => Emptied.effect hinv' heffect hund hp),
    hmoved.effect hinv hbound hback heffect hinv' ?_
      (fun hhead u _ => Sole.back hinv hinv' hbound heffect hund hhead)⟩
  · intro op value head next old x hphase hfound hx
    exact hmoved _ op value head next old x hphase hfound hx
      (halone.sole hphase hfound)
  · intro op value head next old x hphase hx
    refine .inr ⟨a.thread, ?_⟩
    rw [hphase]
    exact hx
  · intro op value head next x hphase hfound hx hsole
    obtain ⟨hcarries, hloc⟩ := hinv.window_carries hback (by rw [hphase]; rfl)
      hfound hx
    have hquiet : ∀ u op' v, phases s u ≠ .filling op' v x := by
      intro u op' v hfill
      have hother := hinv.loc_filling hfill
      rw [hloc] at hother
      cases hother
    refine (hintact x hcarries hquiet).resolve_right ?_
    rintro ⟨u, hsource⟩
    have hut : u ≠ a.thread := by
      rintro rfl
      rw [hphase] at hsource
      cases hsource
    obtain ⟨w, hwindow, -⟩ := Phase.window_of_source hsource
    have := hsole u hut
    rw [heffect.others hut, hwindow] at this
    cases this

omit [DecidableEq Thread] in
theorem MoveBooks.initial (heap : P → Node P T) (dummy : P) (data : T) :
    MoveBooks (Queue.initial heap dummy data : State Thread P T)
      (Shape.initial dummy) where
  places := Places.initial heap dummy data
  ledger := Ledger.initial heap dummy data
  undisturbed :=
    { current := fun _ _ _ h => by cases h
      caller := fun _ _ _ h => by cases h
      retFalse := fun _ _ h => by cases h }
  intact := Intact.initial heap dummy data _
  movedOut := MovedOut.initial heap dummy data _

/-- For every element type: in a run in which no thread wins the exchange on
`head_` while another one is between its re-check and its own exchange (and
the tags do not go round), only the winner consumes. -/
theorem winner_consumes {movedFrom : T → T}
    (hreach : (machine movedFrom).ReachableUnder WinsAlone s)
    (hbound : Bounded s) : WinnerConsumes movedFrom s := by
  obtain ⟨sh, hinv, hbooks⟩ := reachable_shape (L := MoveBooks)
    (fun heap dummy data => MoveBooks.initial heap dummy data)
    (fun s a s' sh sh' halone hback hbound hinv hinv' heffect hbooks =>
      hbooks.effect halone hback hbound hinv hinv' heffect) hreach hbound
  obtain ⟨place, hplaces⟩ := hbooks.places
  exact {
    loser := fun t op value head next old hpc hmissed => by
      refine absurd (hbooks.undisturbed.current t head next ?_) hmissed
      rw [phases, hpc]
      rfl
    retry := fun t op value hpc => by
      refine hbooks.undisturbed.caller t op value ?_
      rw [phases, hpc]
      rfl
    retFalse := hbooks.undisturbed.retFalse
    delivered := hbooks.ledger.delivered
    once := hplaces.once
    conserves := .of_books hinv hplaces hbooks.ledger hbooks.intact
      fun hquiet p ⟨t, hsource⟩ => by
        rw [phases, hquiet t] at hsource
        cases hsource }

/-- Thread `1` stops in front of its re-check while thread `0` dequeues the one
object; its re-check fails, and it returns `false`. -/
theorem winner_consumes_run : ∃ s : State (Fin 2) (Fin 2) (Option ℕ),
    (machine fun _ => none).execUnder WinsAlone
      (initial (fun _ => ⟨⟨none, 0⟩, none, 0⟩) 0 none)
      (soloEnqueue 0 (some 5) 1 ++ .tryDequeue 1 (some 9) ::
        List.replicate 3 (.run 1) ++ soloDequeue 0 none none ++
        List.replicate 5 (.run 1)) = some s ∧
    s.trace.head? = some (.retDequeue 4 none (some 9)) ∧
    WinnerConsumes (fun _ => none) s := by
  obtain ⟨s, hrun, hhead, hbound⟩ : ∃ s : State (Fin 2) (Fin 2) (Option ℕ),
      (machine fun _ => none).execUnder WinsAlone
        (initial (fun _ => ⟨⟨none, 0⟩, none, 0⟩) 0 none)
        (soloEnqueue 0 (some 5) 1 ++ .tryDequeue 1 (some 9) ::
          List.replicate 3 (.run 1) ++ soloDequeue 0 none none ++
          List.replicate 5 (.run 1)) = some s ∧
      s.trace.head? = some (.retDequeue 4 none (some 9)) ∧ Bounded s :=
    ⟨_, rfl, rfl, by decide, by decide⟩
  exact ⟨s, hrun, hhead,
    winner_consumes (.of_execUnder ⟨_, _, _, rfl⟩ hrun) hbound⟩

/-- Without the condition: thread `0` moves the object out and stops, thread `2`
moves the empty shell out and wins, and thread `0` returns `false` with the
object in its caller's variable. -/
theorem loser_consumes : ¬ ∀ s : State ℕ ℕ (Option ℕ),
    (machine fun _ => none).Reachable s → Bounded s →
      WinnerConsumes (fun _ => none) s := by
  intro hall
  obtain ⟨s, hrun, hbound, hret, hcall⟩ : ∃ s : State ℕ ℕ (Option ℕ),
      (machine fun _ => none).exec
        (initial (fun _ => ⟨⟨none, 0⟩, none, 0⟩) 0 none)
        (soloEnqueue 1 (some 5) 1 ++ .tryDequeue 0 none ::
          List.replicate 5 (.run 0) ++ soloDequeue 2 none none ++
          List.replicate 5 (.run 0)) = some s ∧ Bounded s ∧
      .retDequeue 4 none (some 5) ∈ s.trace ∧
      .callDequeue 4 (some 5) ∉ s.trace :=
    ⟨_, rfl, ⟨by decide, by decide⟩, by decide, by decide⟩
  have hconsumes := hall s (.of_exec ⟨_, _, _, rfl⟩ hrun) hbound
  exact hcall (hconsumes.retFalse 4 (some 5) hret)

end Queue
end Lockfree
end Cyan

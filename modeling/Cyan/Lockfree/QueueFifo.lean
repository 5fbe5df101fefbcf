import Cyan.Lockfree.QueueItems
import Cyan.Lockfree.QueueSolo

/-!
# Real-time order of the queue

If the exchange on `tail->next` always succeeds on a node of the queue, the
queue is first-in first-out in real time, and a call of `try_dequeue` only
returns `false` if the queue was empty at some instant of the call.

* `RealTimeFifo` states both properties on the trace.
* `LinksQueued` is the condition on a step: a successful exchange on a node's
  `next` finds that node on the list behind `head_`.
* `Queueing` is the refinement: the items that have been linked are those that
  have been taken followed by those in the chain, in this order.  `Records` ties
  calls and returns to the moments of link and take.
* `real_time_fifo` holds for every run that keeps to the condition.
* `stale_link` is a run that breaks it: placement new has reset the `next` of a
  recycled node, a stalled enqueue links its node behind it, and the value is
  overtaken although the call has returned.
-/

namespace Cyan
namespace Lockfree
namespace Queue

open Base

variable {Thread P T : Type*} [DecidableEq Thread] [DecidableEq P]
variable {s s' : State Thread P T} {sh sh' : Shape Thread P}

/-! ## The property and the condition -/

/-- Item `x` has been dequeued by the end of the trace. -/
def Dequeued (x : Nat) (tr : List (Event T)) : Prop :=
  ∃ d, .take d x ∈ tr

/-- First-in first-out in real time. -/
structure RealTimeFifo (s : State Thread P T) : Prop where
  /-- if `enqueue(x)` returned before `enqueue(y)` began, `y` is not dequeued
  before `x` -/
  fifo : ∀ d y l, (.take d y :: l) <:+ s.trace →
    ∀ x v b, (.callEnqueue y v :: b) <:+ l → .retEnqueue x ∈ b → Dequeued x l
  /-- `try_dequeue` returns `false` only if, at some instant of the call, every
  item whose enqueue had returned had been dequeued -/
  told : ∀ d v l, (.retDequeue d none v :: l) <:+ s.trace →
    ∃ b, b <:+ l ∧ (∃ w, .callDequeue d w ∈ b) ∧
      ∀ x, .retEnqueue x ∈ b → Dequeued x b

/-- If the step is a successful exchange on `tail->next`, the node is reached
from `head_`. -/
def LinksQueued (s : State Thread P T) (a : Action Thread P T) : Prop :=
  ∀ op n tail next p, s.pc a.thread = .casNext op n tail next →
    tail.ptr = some p → (s.heap p).next = next →
    ∃ h, s.head.ptr = some h ∧ Reaches (nextPtr s) h p

/-! ## Records -/

/-- The items that have been linked, newest first. -/
def links (tr : List (Event T)) : List Nat :=
  tr.filterMap fun
    | .link op => some op
    | _ => none

/-- The items that have been taken, newest first. -/
def taken (tr : List (Event T)) : List Nat :=
  tr.filterMap fun
    | .take _ item => some item
    | _ => none

theorem mem_taken {x : Nat} {tr : List (Event T)} :
    x ∈ taken tr ↔ Dequeued x tr := by
  unfold taken Dequeued
  rw [List.mem_filterMap]
  constructor
  · rintro ⟨e, he, hx⟩
    cases e with
    | take d item =>
        cases hx
        exact ⟨d, he⟩
    | _ => cases hx
  · rintro ⟨d, hd⟩
    exact ⟨_, hd, rfl⟩

/-- What must have happened in front of an event. -/
def Justified (tr : List (Event T)) : Event T → Prop
  | .callEnqueue op _ => op = tr.length
  | .link op => ∃ v, (op, v) ∈ calls tr
  | .retEnqueue op => op ∈ links tr
  | .take _ y => ∀ x v b, (.callEnqueue y v :: b) <:+ tr → .retEnqueue x ∈ b →
      Dequeued x tr
  | .retDequeue d none _ => ∃ b, b <:+ tr ∧ (∃ w, .callDequeue d w ∈ b) ∧
      ∀ x, .retEnqueue x ∈ b → Dequeued x b
  | _ => True

/-- Every event of the trace is justified by what is in front of it. -/
def Orderly : List (Event T) → Prop
  | [] => True
  | e :: tr => Justified tr e ∧ Orderly tr

theorem Orderly.justified {tr l : List (Event T)} {e : Event T} (h : Orderly tr)
    (hsuffix : (e :: l) <:+ tr) : Justified l e ∧ Orderly l := by
  induction tr with
  | nil => exact absurd (List.suffix_nil.mp hsuffix) (by simp)
  | cons a tr ih =>
      rcases List.suffix_cons_iff.mp hsuffix with heq | hsuffix
      · cases heq
        exact h
      · exact ih h.2 hsuffix

/-- Only what was enqueued is linked, and calls are numbered. -/
theorem Orderly.link_lt {tr : List (Event T)} (h : Orderly tr) {y : Nat}
    (hy : y ∈ links tr ∨ ∃ v, (y, v) ∈ calls tr) : y < tr.length := by
  induction tr with
  | nil => rcases hy with hy | ⟨v, hy⟩ <;> cases hy
  | cons e tr ih =>
      obtain ⟨hjust, htr⟩ := h
      have hrec := ih htr
      rw [List.length_cons]
      cases e with
      | callEnqueue op v =>
          have hop : op = tr.length := hjust
          rcases hy with hy | ⟨w, hy⟩
          · exact Nat.lt_succ_of_lt (hrec (.inl hy))
          · rw [calls_cons] at hy
            rcases List.mem_append.mp hy with hnew | hold
            · cases Option.mem_toList.mp hnew
              omega
            · exact Nat.lt_succ_of_lt (hrec (.inr ⟨w, hold⟩))
      | link op =>
          rcases hy with hy | ⟨w, hy⟩
          · rcases List.mem_cons.mp hy with rfl | hold
            · exact Nat.lt_succ_of_lt (hrec (.inr hjust))
            · exact Nat.lt_succ_of_lt (hrec (.inl hold))
          · exact Nat.lt_succ_of_lt (hrec (.inr ⟨w, hy⟩))
      | _ => exact Nat.lt_succ_of_lt (hrec hy)

/-- Whatever returned has been linked. -/
theorem Orderly.returned_linked {tr : List (Event T)} (h : Orderly tr) {x : Nat}
    (hx : .retEnqueue x ∈ tr) : x ∈ links tr := by
  induction tr with
  | nil => cases hx
  | cons e tr ih =>
      obtain ⟨hjust, htr⟩ := h
      have hmono : x ∈ links tr → x ∈ links (e :: tr) := by
        intro hold
        unfold links
        rw [List.filterMap_cons]
        split
        · exact hold
        · exact List.mem_cons_of_mem _ hold
      rcases List.mem_cons.mp hx with rfl | hold
      · exact hmono hjust
      · exact hmono (ih htr hold)

/-- An item whose enqueue returned before another enqueue began was linked
first. -/
theorem Orderly.linked_first {tr b : List (Event T)} (h : Orderly tr)
    {x y : Nat} {v : T} (hcall : (.callEnqueue y v :: b) <:+ tr)
    (hret : .retEnqueue x ∈ b) {A B : List Nat} (hlinks : links tr = A ++ y :: B) :
    x ∈ B := by
  obtain ⟨hnumber, hb⟩ := h.justified hcall
  have hx := hb.returned_linked hret
  have hy : y ∉ links b := by
    intro hmem
    have hlt := hb.link_lt (.inl hmem)
    have hlen : y = b.length := hnumber
    omega
  obtain ⟨a, rfl⟩ := hcall
  have hsplit : links (a ++ .callEnqueue y v :: b) = links a ++ links b :=
    List.filterMap_append
  rw [hsplit] at hlinks
  rcases List.append_eq_append_iff.mp hlinks with ⟨c, -, hc⟩ | ⟨c, -, hc⟩
  · refine absurd ?_ hy
    rw [hc]
    simp
  · cases c with
    | nil =>
        refine absurd ?_ hy
        rw [List.nil_append] at hc
        rw [← hc]
        exact List.mem_cons_self
    | cons z c =>
        cases hc
        exact List.mem_append_right _ hx

omit [DecidableEq Thread] [DecidableEq P] in
theorem Orderly.real_time (h : Orderly s.trace) : RealTimeFifo s where
  fifo _ _ _ hsuffix := (h.justified hsuffix).1
  told _ _ _ hsuffix := (h.justified hsuffix).1

/-- What a thread's phase says about the trace. -/
def Phase.Claim (tr : List (Event T)) : Phase P T → Prop
  | .asking op _ => ∃ v, (op, v) ∈ calls tr
  | .raw op _ _ => ∃ v, (op, v) ∈ calls tr
  | .filling op _ _ => ∃ v, (op, v) ∈ calls tr
  | .linking op _ => ∃ v, (op, v) ∈ calls tr
  | .linked op => op ∈ links tr
  | .searching op _ => ∃ w, .callDequeue op w ∈ tr
  | .checking op _ _ _ _ => ∃ w, .callDequeue op w ∈ tr
  | .moving op _ _ _ => ∃ w, .callDequeue op w ∈ tr
  | .moved op _ _ _ _ => ∃ w, .callDequeue op w ∈ tr
  | _ => True

omit [DecidableEq P] in
theorem Phase.Claim.mono {k : Phase P T} {tr : List (Event T)}
    (h : k.Claim tr) (l : List (Event T)) : k.Claim (l ++ tr) := by
  have hcalls : ∀ x, x ∈ calls tr → x ∈ calls (l ++ tr) := by
    intro x hx
    rw [calls, List.filterMap_append]
    exact List.mem_append_right _ hx
  have hlinks : ∀ x, x ∈ links tr → x ∈ links (l ++ tr) := by
    intro x hx
    rw [links, List.filterMap_append]
    exact List.mem_append_right _ hx
  cases k with
  | asking op v => exact h.imp fun _ => hcalls _
  | raw op v n => exact h.imp fun _ => hcalls _
  | filling op v n => exact h.imp fun _ => hcalls _
  | linking op n => exact h.imp fun _ => hcalls _
  | linked op => exact hlinks op h
  | searching op v => exact h.imp fun _ => List.mem_append_right _
  | checking op v head tail next => exact h.imp fun _ => List.mem_append_right _
  | moving op v head next => exact h.imp fun _ => List.mem_append_right _
  | moved op v head next old => exact h.imp fun _ => List.mem_append_right _
  | _ => trivial

/-- The trace is orderly, and every thread is where the trace says. -/
structure Records (s : State Thread P T) : Prop where
  orderly : Orderly s.trace
  claims : ∀ t, (phases s t).Claim s.trace

omit [DecidableEq P] in
theorem Records.frame {t : Thread} {k : Phase P T} {l : List (Event T)}
    (h : Records s) (hphases : phases s' = Function.update (phases s) t k)
    (htrace : s'.trace = l ++ s.trace) (horderly : Orderly (l ++ s.trace))
    (hclaim : k.Claim (l ++ s.trace)) : Records s' where
  orderly := htrace ▸ horderly
  claims u := by
    rw [hphases, htrace]
    by_cases hu : u = t
    · subst hu
      rw [Function.update_self]
      exact hclaim
    · rw [Function.update_of_ne hu]
      exact (h.claims u).mono l

/-- Every step keeps the records, provided that takes are in order and empty
answers are true. -/
theorem Records.effect {movedFrom : T → T} {t : Thread}
    (heffect : Effect movedFrom s sh t s' sh') (h : Records s)
    (htake : ∀ op n x rest, sh.chain none = n :: x :: rest →
      Justified s.trace (.take op (s.heap x).op))
    (hfalse : ∀ op value head tail next,
      phases s t = .checking op value head tail next → s.head = head →
      next.ptr = none → Justified s.trace (.retDequeue op none value)) :
    Records s' := by
  have hclaim := h.claims t
  have hrec := h.orderly
  cases heffect with
  | callEnqueue value hphase hphases hheap hhead htrace hshape =>
      refine h.frame (l := [_]) hphases htrace ⟨rfl, hrec⟩ ⟨value, ?_⟩
      rw [List.singleton_append, calls_cons]
      exact List.mem_cons_self
  | callDequeue value hphase hphases hheap hhead htrace hshape =>
      exact h.frame (l := [_]) hphases htrace ⟨trivial, hrec⟩
        ⟨value, List.mem_cons_self⟩
  | allocate op value n hphase hphases hheap hhead htrace hloc hshape =>
      rw [hphase] at hclaim
      exact h.frame (l := []) hphases htrace hrec hclaim
  | construct op value n hphase hphases hheap hhead htrace hloc hshape =>
      rw [hphase] at hclaim
      exact h.frame (l := []) hphases htrace hrec hclaim
  | fill op value n hphase hphases hheap hhead htrace hshape =>
      rw [hphase] at hclaim
      exact h.frame (l := []) hphases htrace hrec hclaim
  | quiet hphases hheap hhead htrace hshape =>
      have hupdate : phases s' = Function.update (phases s) t (phases s t) := by
        rw [hphases, Function.update_eq_self]
      rcases htrace with htrace | htrace
      · exact h.frame (l := []) hupdate htrace hrec hclaim
      · exact h.frame (l := [_]) hupdate htrace ⟨trivial, hrec⟩ (hclaim.mono [_])
  | link op n a tail next o hpc ha hfound hphases hheap hhead htrace hot hloc
      hshape =>
      have hphase : phases s t = .linking op n := by rw [phases, hpc]; rfl
      rw [hphase] at hclaim
      exact h.frame (l := [_]) hphases htrace ⟨hclaim, hrec⟩ List.mem_cons_self
  | retEnqueue op hphase hphases hheap hhead htrace hshape =>
      rw [hphase] at hclaim
      rcases htrace with htrace | htrace
      · exact h.frame (l := [_]) hphases htrace ⟨hclaim, hrec⟩ trivial
      · exact h.frame (l := [_, _]) hphases htrace ⟨hclaim, trivial, hrec⟩ trivial
  | sawNext op value head tail n hpc hh hphases hheap hhead htrace hshape =>
      have hphase : phases s t = .searching op value := by rw [phases, hpc]; rfl
      rw [hphase] at hclaim
      exact h.frame (l := []) hphases htrace hrec hclaim
  | retry op value head tail next hphase hphases hheap hhead htrace hshape =>
      rw [hphase] at hclaim
      exact h.frame (l := []) hphases htrace hrec hclaim
  | retFalse op value head tail next hphase hfound hsame hnull hphases hheap hhead
      htrace hshape =>
      exact h.frame (l := [_]) hphases htrace
        ⟨hfalse op value head tail next hphase hfound hnull, hrec⟩ trivial
  | toMove op value head tail next hphase hfound hne hphases hheap hhead htrace
      hshape =>
      rw [hphase] at hclaim
      exact h.frame (l := []) hphases htrace hrec hclaim
  | move op value head next x hphase hx hphases hheap hhead htrace hshape =>
      rw [hphase] at hclaim
      exact h.frame (l := []) hphases htrace hrec hclaim
  | lost op value head next old hphase hmissed hphases hheap hhead htrace hshape =>
      rw [hphase] at hclaim
      exact h.frame (l := []) hphases htrace hrec hclaim
  | take op value head next old n x rest hphase hfound hh hx hchain hphases hheap
      htrace hshape =>
      exact h.frame (l := [_]) hphases htrace
        ⟨htake op n x rest hchain, hrec⟩ trivial
  | release op value item n word hphase hphases hheap hhead htrace hloc hshape =>
      exact h.frame (l := [_]) hphases htrace ⟨trivial, hrec⟩ trivial

/-! ## The chain is the queue -/

/-- The items in the nodes behind the dummy, in the order of the chain. -/
def waiting (s : State Thread P T) (sh : Shape Thread P) : List Nat :=
  (sh.chain none).tail.map fun p => (s.heap p).op

/-- The item and node of an enqueue that has a node to itself. -/
def Phase.made : Phase P T → Option (Nat × P)
  | .filling op _ n => some (op, n)
  | .linking op n => some (op, n)
  | _ => none

/-- Every private chain is a single node with its item, and the chain of
`head_` holds what has been linked and not taken. -/
structure Queueing (s : State Thread P T) (sh : Shape Thread P) : Prop where
  single : ∀ t op n, (phases s t).made = some (op, n) →
    sh.chain (some t) = [n] ∧ (s.heap n).op = op
  order : links s.trace = (waiting s sh).reverse ++ taken s.trace

omit [DecidableEq P] in
/-- A step that keeps the chains, the marks and the records of links and takes,
and does not touch the node of a private chain. -/
theorem Queueing.frame {t : Thread} {k : Phase P T} (h : Queueing s sh)
    (hphases : phases s' = Function.update (phases s) t k)
    (hmade : ∀ x, k.made = some x → (phases s t).made = some x)
    (hchain : sh'.chain = sh.chain)
    (hop : ∀ p, (s'.heap p).op = (s.heap p).op)
    (hlinks : links s'.trace = links s.trace)
    (htaken : taken s'.trace = taken s.trace) : Queueing s' sh' where
  single u op n hu := by
    rw [hchain, hop]
    rw [hphases] at hu
    by_cases hut : u = t
    · subst hut
      rw [Function.update_self] at hu
      exact h.single u op n (hmade _ hu)
    · rw [Function.update_of_ne hut] at hu
      exact h.single u op n hu
  order := by
    rw [hlinks, htaken, h.order, waiting, waiting, hchain]
    simp only [hop]

/-- As long as every link finds its target in the queue, the chain of `head_`
holds what has been linked and not taken, in order. -/
theorem Queueing.effect {movedFrom : T → T} {t : Thread} (hinv : Inv s sh)
    (heffect : Effect movedFrom s sh t s' sh') (h : Queueing s sh)
    (hok : ∀ op n tail next p, s.pc t = .casNext op n tail next →
      tail.ptr = some p → (s.heap p).next = next → sh.loc p = .linked none) :
    Queueing s' sh' := by
  cases heffect with
  | callEnqueue value hphase hphases hheap hhead htrace hshape =>
      exact h.frame hphases (by simp [Phase.made]) (by rw [hshape])
        (fun p => by rw [hheap]) (by rw [htrace]; rfl) (by rw [htrace]; rfl)
  | callDequeue value hphase hphases hheap hhead htrace hshape =>
      exact h.frame hphases (by simp [Phase.made]) (by rw [hshape])
        (fun p => by rw [hheap]) (by rw [htrace]; rfl) (by rw [htrace]; rfl)
  | allocate op value n hphase hphases hheap hhead htrace hloc hshape =>
      exact h.frame hphases (by simp [Phase.made]) (by rw [hshape]; rfl)
        (fun p => by rw [hheap]) (by rw [htrace]) (by rw [htrace])
  | construct op value n hphase hphases hheap hhead htrace hloc hshape =>
      subst hshape
      have hfresh : ∀ o, n ∉ sh.chain o := by
        intro o hn
        have := (hinv.global.mem_chain o n).mp hn
        rw [hloc] at this
        cases this
      have hop : ∀ p, p ≠ n → (s'.heap p).op = (s.heap p).op := fun p hp => by
        rw [hheap, Function.update_of_ne hp]
      refine ⟨fun u op' m hu => ?_, ?_⟩
      · rw [hphases] at hu
        by_cases hut : u = t
        · subst hut
          rw [Function.update_self] at hu
          cases hu
          refine ⟨Function.update_self .., ?_⟩
          rw [hheap, Function.update_self]
        · rw [Function.update_of_ne hut] at hu
          have hne : (some u : Option Thread) ≠ some t := by simpa using hut
          obtain ⟨hchain, hmark⟩ := h.single u op' m hu
          refine ⟨(Function.update_of_ne hne _ _).trans hchain, ?_⟩
          rw [hop m, hmark]
          rintro rfl
          exact hfresh (some u) (by rw [hchain]; exact List.mem_cons_self)
      · have hsame : waiting s' (sh.construct t n) = waiting s sh := by
          refine List.map_congr_left fun p hp => hop p ?_
          rintro rfl
          exact hfresh none (List.mem_of_mem_tail hp)
        rw [hsame, htrace]
        exact h.order
  | fill op value n hphase hphases hheap hhead htrace hshape =>
      exact h.frame hphases (fun x hx => by rw [hphase]; exact hx) (by rw [hshape])
        (fun p => by rw [hheap]; exact field_update Node.op (by rfl) p) (by rw [htrace])
        (by rw [htrace])
  | quiet hphases hheap hhead htrace hshape =>
      have hupdate : phases s' = Function.update (phases s) t (phases s t) := by
        rw [hphases, Function.update_eq_self]
      rcases htrace with htrace | htrace
      · exact h.frame hupdate (fun x hx => hx) (by rw [hshape])
          (fun p => by rw [hheap]) (by rw [htrace]) (by rw [htrace])
      · exact h.frame hupdate (fun x hx => hx) (by rw [hshape])
          (fun p => by rw [hheap]) (by rw [htrace]; rfl) (by rw [htrace]; rfl)
  | link op n a tail next o hpc ha hfound hphases hheap hhead htrace hot hloc
      hshape =>
      subst hshape
      have ho : o = none := by
        have := hok op n tail next a hpc ha hfound
        rw [hloc] at this
        cases this
        rfl
      subst ho
      have hmade : (phases s t).made = some (op, n) := by rw [phases, hpc]; rfl
      have hops : ∀ p, (s'.heap p).op = (s.heap p).op := fun p => by
        rw [hheap]
        exact field_update Node.op (by rfl) p
      obtain ⟨hsingle, hmark⟩ := h.single t op n hmade
      refine ⟨fun u op' m hu => ?_, ?_⟩
      · rw [hphases] at hu
        obtain ⟨hut, hu⟩ := other_of_update Phase.made hu (by simp [Phase.made])
        rw [hops]
        have hne : (some u : Option Thread) ≠ some t := by simpa using hut
        simpa [Shape.link, hne] using h.single u op' m hu
      · have hchain : (sh.link t none).chain none = sh.chain none ++ [n] := by
          simp [Shape.link, hsingle]
        obtain ⟨b, hb, -⟩ := hinv.global.tail_mem
        have hwaiting : waiting s' (sh.link t none) = waiting s sh ++ [op] := by
          rw [waiting, waiting, hchain]
          cases hc : sh.chain none with
          | nil => rw [hc] at hb; cases hb
          | cons d rest => simp [hops, hmark]
        rw [hwaiting, htrace, List.reverse_append]
        exact congrArg (op :: ·) h.order
  | retEnqueue op hphase hphases hheap hhead htrace hshape =>
      rcases htrace with htrace | htrace
      · exact h.frame hphases (by simp [Phase.made]) (by rw [hshape])
          (fun p => by rw [hheap]) (by rw [htrace]; rfl) (by rw [htrace]; rfl)
      · exact h.frame hphases (by simp [Phase.made]) (by rw [hshape])
          (fun p => by rw [hheap]) (by rw [htrace]; rfl) (by rw [htrace]; rfl)
  | sawNext op value head tail n hpc hh hphases hheap hhead htrace hshape =>
      exact h.frame hphases (by simp [Phase.made]) (by rw [hshape])
        (fun p => by rw [hheap]) (by rw [htrace]) (by rw [htrace])
  | retry op value head tail next hphase hphases hheap hhead htrace hshape =>
      exact h.frame hphases (by simp [Phase.made]) (by rw [hshape])
        (fun p => by rw [hheap]) (by rw [htrace]) (by rw [htrace])
  | retFalse op value head tail next hphase hfound hsame hnull hphases hheap hhead
      htrace hshape =>
      exact h.frame hphases (by simp [Phase.made]) (by rw [hshape])
        (fun p => by rw [hheap]) (by rw [htrace]; rfl) (by rw [htrace]; rfl)
  | toMove op value head tail next hphase hfound hne hphases hheap hhead htrace
      hshape =>
      exact h.frame hphases (by simp [Phase.made]) (by rw [hshape])
        (fun p => by rw [hheap]) (by rw [htrace]) (by rw [htrace])
  | move op value head next x hphase hx hphases hheap hhead htrace hshape =>
      exact h.frame hphases (by simp [Phase.made]) (by rw [hshape])
        (fun p => by rw [hheap]; exact field_update Node.op (by rfl) p) (by rw [htrace])
        (by rw [htrace])
  | lost op value head next old hphase hmissed hphases hheap hhead htrace hshape =>
      exact h.frame hphases (by simp [Phase.made]) (by rw [hshape])
        (fun p => by rw [hheap]) (by rw [htrace]) (by rw [htrace])
  | take op value head next old n x rest hphase hfound hh hx hchain hphases hheap
      htrace hshape =>
      subst hshape
      refine ⟨fun u op' m hu => ?_, ?_⟩
      · rw [hphases] at hu
        obtain ⟨-, hu⟩ := other_of_update Phase.made hu (by simp [Phase.made])
        rw [hheap]
        simpa [Shape.take] using h.single u op' m hu
      · have hwaiting : waiting s sh = (s.heap x).op :: waiting s' (sh.take t n) := by
          rw [waiting, waiting, hchain, hheap]
          simp [Shape.take, hchain]
        have horder := h.order
        rw [hwaiting, List.reverse_cons, List.append_assoc] at horder
        rw [htrace]
        exact horder
  | release op value item n word hphase hphases hheap hhead htrace hloc hshape =>
      exact h.frame hphases (by simp [Phase.made]) (by rw [hshape]; rfl)
        (fun p => by rw [hheap]; exact field_update Node.op (by rfl) p) (by rw [htrace]; rfl)
        (by rw [htrace]; rfl)

omit [DecidableEq Thread] [DecidableEq P] in
/-- The next item to be taken has not overtaken anything. -/
theorem Queueing.take_justified (h : Queueing s sh) (horderly : Orderly s.trace)
    {op : Nat} {n x : P} {rest : List P} (hchain : sh.chain none = n :: x :: rest) :
    Justified s.trace (.take op (s.heap x).op) := by
  intro y v b hcall hret
  have horder := h.order
  have hwaiting : waiting s sh =
      (s.heap x).op :: rest.map fun p => (s.heap p).op := by
    rw [waiting, hchain]
    rfl
  rw [hwaiting, List.reverse_cons, List.append_assoc] at horder
  exact mem_taken.mp (horderly.linked_first hcall hret horder)

/-! ## Empty answers -/

/-- At some instant of call `op`, every item whose enqueue had returned had been
dequeued. -/
def EmptyDuring (op : Nat) (tr : List (Event T)) : Prop :=
  ∃ b, b <:+ tr ∧ (∃ w, .callDequeue op w ∈ b) ∧
    ∀ x, .retEnqueue x ∈ b → Dequeued x b

/-- A dequeue that loaded a null successor of the current head has seen the
queue empty. -/
def SawEmpty (s : State Thread P T) : Prop :=
  ∀ t op value head tail next, phases s t = .checking op value head tail next →
    next.ptr = none → s.head = head → EmptyDuring op s.trace

omit [DecidableEq Thread] [DecidableEq P] in
/-- If the dummy has no successor, everything that returned has been taken. -/
theorem Queueing.empty (hinv : Inv s sh) (h : Queueing s sh) (hrecords : Records s)
    {n : P} (hhead : s.head.ptr = some n) (hnull : nextPtr s n = none) {x : Nat}
    (hx : .retEnqueue x ∈ s.trace) : Dequeued x s.trace := by
  have hwaiting : waiting s sh = [] := by
    have hpath := hinv.global.path none
    rw [entry, hhead] at hpath
    rw [waiting]
    cases hchain : sh.chain none with
    | nil => rfl
    | cons d rest =>
        rw [hchain] at hpath
        obtain ⟨hd, hrest⟩ := hpath
        cases hd
        rw [hnull] at hrest
        rw [hrest.eq_nil_of_none]
        rfl
  have hlinked := hrecords.orderly.returned_linked hx
  rw [h.order, hwaiting] at hlinked
  exact mem_taken.mp hlinked

omit [DecidableEq P] in
theorem SawEmpty.frame {t : Thread} {k : Phase P T} {l : List (Event T)}
    (h : SawEmpty s) (hphases : phases s' = Function.update (phases s) t k)
    (hhead : s'.head = s.head) (htrace : s'.trace = l ++ s.trace)
    (hk : ∀ op value head tail next, k = .checking op value head tail next →
      next.ptr = none → s'.head = head → EmptyDuring op s'.trace) :
    SawEmpty s' := by
  intro u op value head tail next hu hnull hcurrent
  rw [hphases] at hu
  by_cases hut : u = t
  · subst hut
    rw [Function.update_self] at hu
    exact hk op value head tail next hu hnull hcurrent
  · rw [Function.update_of_ne hut] at hu
    obtain ⟨b, hb, hempty⟩ :=
      h u op value head tail next hu hnull (hhead ▸ hcurrent)
    refine ⟨b, hb.trans ?_, hempty⟩
    rw [htrace]
    exact List.suffix_append _ _

/-- What a dequeue has seen stays true as long as its head is current. -/
theorem SawEmpty.effect {movedFrom : T → T} {t : Thread} (hinv : Inv s sh)
    (hinv' : Inv s' sh') (hbound : Bounded s')
    (heffect : Effect movedFrom s sh t s' sh') (hrecords : Records s)
    (hqueueing : Queueing s sh) (h : SawEmpty s) : SawEmpty s' := by
  cases heffect with
  | callEnqueue value hphase hphases hheap hhead htrace hshape =>
      exact h.frame (l := [_]) hphases hhead htrace (by simp)
  | callDequeue value hphase hphases hheap hhead htrace hshape =>
      exact h.frame (l := [_]) hphases hhead htrace (by simp)
  | allocate op value n hphase hphases hheap hhead htrace hloc hshape =>
      exact h.frame (l := []) hphases hhead htrace (by simp)
  | construct op value n hphase hphases hheap hhead htrace hloc hshape =>
      exact h.frame (l := []) hphases hhead htrace (by simp)
  | fill op value n hphase hphases hheap hhead htrace hshape =>
      exact h.frame (l := []) hphases hhead htrace (by simp)
  | quiet hphases hheap hhead htrace hshape =>
      intro u op value head tail next hu hnull hcurrent
      rw [hphases] at hu
      obtain ⟨b, hb, hempty⟩ :=
        h u op value head tail next hu hnull (hhead ▸ hcurrent)
      refine ⟨b, ?_, hempty⟩
      rcases htrace with htrace | htrace
      · rw [htrace]
        exact hb
      · rw [htrace]
        exact hb.trans (List.suffix_cons _ _)
  | link op n a tail next o hpc ha hfound hphases hheap hhead htrace hot hloc
      hshape =>
      exact h.frame (l := [_]) hphases hhead htrace (by simp)
  | retEnqueue op hphase hphases hheap hhead htrace hshape =>
      rcases htrace with htrace | htrace
      · exact h.frame (l := [_]) hphases hhead htrace (by simp)
      · exact h.frame (l := [_, _]) hphases hhead htrace (by simp)
  | sawNext op value head tail n hpc hh hphases hheap hhead htrace hshape =>
      refine h.frame (l := []) hphases hhead htrace ?_
      intro op' value' head' tail' next' hk hnull hcurrent
      cases hk
      have hn : s.head.ptr = some n := by rw [← hhead, hcurrent, hh]
      have hcall := hrecords.claims t
      rw [show phases s t = .searching op value by rw [phases, hpc]; rfl] at hcall
      rw [htrace]
      exact ⟨s.trace, List.suffix_rfl, hcall, fun x =>
        hqueueing.empty hinv hrecords hn hnull⟩
  | retry op value head tail next hphase hphases hheap hhead htrace hshape =>
      exact h.frame (l := []) hphases hhead htrace (by simp)
  | retFalse op value head tail next hphase hfound hsame hnull hphases hheap hhead
      htrace hshape =>
      exact h.frame (l := [_]) hphases hhead htrace (by simp)
  | toMove op value head tail next hphase hfound hne hphases hheap hhead htrace
      hshape =>
      exact h.frame (l := []) hphases hhead htrace (by simp)
  | move op value head next x hphase hx hphases hheap hhead htrace hshape =>
      exact h.frame (l := []) hphases hhead htrace (by simp)
  | lost op value head next old hphase hmissed hphases hheap hhead htrace hshape =>
      exact h.frame (l := []) hphases hhead htrace (by simp)
  | take op value head next old n x rest hphase hfound hh hx hchain hphases hheap
      htrace hshape =>
      -- whoever has loaded the old head will not find it again
      intro u op' value' head' tail' next' hu hnull hcurrent
      rw [hphases] at hu
      obtain ⟨-, hu⟩ := other_of_update id hu (by simp)
      have htakes : takes s'.trace = takes s.trace + 1 := by rw [htrace]; rfl
      have hlocal := hinv.threads u
      cases hpc : s.pc u <;> rw [phases, hpc] at hu <;> cases hu
      rw [hpc] at hlocal
      refine absurd hcurrent
        (hlocal.2.stale (by rw [← htakes]; exact hbound.1) ?_)
      rw [← htakes]
      exact hinv'.global.head_tag
  | release op value item n word hphase hphases hheap hhead htrace hloc hshape =>
      exact h.frame (l := [_]) hphases hhead htrace (by simp)

/-! ## The run -/

/-- What is kept next to the invariant when every link finds its target in the
queue. -/
structure FifoBooks (s : State Thread P T) (sh : Shape Thread P) : Prop where
  records : Records s
  queueing : Queueing s sh
  sawEmpty : SawEmpty s

theorem FifoBooks.effect {movedFrom : T → T} {a : Action Thread P T}
    (hok : LinksQueued s a) (hbound : Bounded s') (hinv : Inv s sh)
    (hinv' : Inv s' sh') (heffect : Effect movedFrom s sh a.thread s' sh')
    (h : FifoBooks s sh) : FifoBooks s' sh' where
  records := h.records.effect heffect
    (fun _ _ _ _ hchain => h.queueing.take_justified h.records.orderly hchain)
    (fun _ _ _ _ _ hphase hfound hnull =>
      h.sawEmpty _ _ _ _ _ _ hphase hnull hfound)
  queueing := h.queueing.effect hinv heffect
    fun op n tail next p hpc hp hfound => by
      obtain ⟨hd, hhd, hreach⟩ := hok op n tail next p hpc hp hfound
      exact (hinv.global.mem_chain none p).mp 
        ((hinv.global.path none).mem_of_reaches (hinv.global.head_mem hhd) hreach)
  sawEmpty := h.sawEmpty.effect hinv hinv' hbound heffect h.records h.queueing

omit [DecidableEq Thread] in
theorem FifoBooks.initial (heap : P → Node P T) (dummy : P) (data : T) :
    FifoBooks (Queue.initial heap dummy data : State Thread P T)
      (Shape.initial dummy) where
  records := ⟨trivial, fun _ => trivial⟩
  queueing := ⟨fun _ _ _ h => (by cases h), rfl⟩
  sawEmpty _ _ _ _ _ _ h := by cases h

/-- Real-time order: in a run in which every successful exchange on `tail->next`
is on a node that is reached from `head_` (and the tags do not go round), the
queue is first-in first-out and `false` means empty. -/
theorem real_time_fifo {movedFrom : T → T}
    (hreach : (machine movedFrom).ReachableUnder LinksQueued s)
    (hbound : Bounded s) : RealTimeFifo s := by
  obtain ⟨sh, -, hbooks⟩ := reachable_shape (L := FifoBooks)
    (fun heap dummy data => FifoBooks.initial heap dummy data)
    (fun s a s' sh sh' hok _ hbound hinv hinv' heffect hbooks =>
      hbooks.effect hok hbound hinv hinv' heffect) hreach hbound
  exact hbooks.records.orderly.real_time

/-- The node behind which a thread is about to link. -/
def Pc.target : Pc P T → Option (TaggedPtr P)
  | .casNext _ _ tail _ => some tail
  | _ => none

/-- A condition that can be computed: the exchange on `tail->next` is on the
dummy. -/
def LinksDummy (s : State Thread P T) (a : Action Thread P T) : Prop :=
  ∀ tail ∈ (s.pc a.thread).target, tail.ptr = s.head.ptr

instance (s : State Thread P T) (a : Action Thread P T) :
    Decidable (LinksDummy s a) :=
  inferInstanceAs (Decidable (∀ tail ∈ _, _))

omit [DecidableEq Thread] [DecidableEq P] in
theorem LinksDummy.queued {a : Action Thread P T} (h : LinksDummy s a) :
    LinksQueued s a := by
  intro op n tail next p hpc hp _
  have htail : tail.ptr = s.head.ptr := h tail (by rw [hpc]; rfl)
  exact ⟨p, htail.symm.trans hp, .refl⟩

/-- Node `0` is recycled while thread `1` dequeues, and the second answer of the
queue is that it is empty. -/
theorem real_time_fifo_run : ∃ s : State ℕ ℕ ℕ,
    (machine id).execUnder LinksDummy
      (initial (fun _ => ⟨⟨none, 0⟩, 0, 0⟩) 0 0)
      (soloEnqueue 0 5 1 ++ soloDequeue 1 0 none ++ soloEnqueue 0 6 0 ++
        soloDequeue 1 0 none ++ .tryDequeue 1 0 :: List.replicate 4 (.run 1)) =
      some s ∧
    s.trace.head? = some (.retDequeue 14 none 0) ∧ RealTimeFifo s := by
  obtain ⟨s, hrun, hhead, hbound⟩ : ∃ s : State ℕ ℕ ℕ,
      (machine id).execUnder LinksDummy
        (initial (fun _ => ⟨⟨none, 0⟩, 0, 0⟩) 0 0)
        (soloEnqueue 0 5 1 ++ soloDequeue 1 0 none ++ soloEnqueue 0 6 0 ++
          soloDequeue 1 0 none ++ .tryDequeue 1 0 :: List.replicate 4 (.run 1)) =
        some s ∧
      s.trace.head? = some (.retDequeue 14 none 0) ∧ Bounded s :=
    ⟨_, rfl, rfl, by decide, by decide⟩
  have hreach : (machine id).ReachableUnder LinksDummy s :=
    .of_execUnder ⟨_, _, _, rfl⟩ hrun
  exact ⟨s, hrun, hhead,
    real_time_fifo (hreach.mono fun _ _ => LinksDummy.queued) hbound⟩

/-- A run that breaks the order.  Thread `1` stalls in front of its exchange on
node `0`, which is dequeued and handed to thread `2`; placement new resets its
`next`, so thread `1` links `10` behind a node that is not in the queue, and
returns.  The value `70`, enqueued afterwards, overtakes it, and in the end the
queue claims to be empty. -/
def overtaking : List (Action ℕ ℕ ℕ) :=
  ([.enqueue 1 10, .allocate 1 1] : List (Action ℕ ℕ ℕ)) ++ List.replicate 5 (.run 1) ++
    soloEnqueue 3 90 2 ++ soloDequeue 3 0 none ++
    ([.enqueue 2 50, .allocate 2 0] : List (Action ℕ ℕ ℕ)) ++ List.replicate 2 (.run 2) ++
    List.replicate 3 (.run 1) ++
    soloEnqueue 3 70 3 ++ soloDequeue 3 0 none ++
    .tryDequeue 3 0 :: List.replicate 4 (.run 3)

/-- Without the condition a value is overtaken although its enqueue had returned
before the other one began. -/
theorem stale_link : ¬ ∀ s : State ℕ ℕ ℕ,
    (machine id).Reachable s → Bounded s → RealTimeFifo s := by
  intro hall
  obtain ⟨s, hrun, hbound, htake, hcall, hret, hnot⟩ : ∃ s : State ℕ ℕ ℕ,
      (machine id).exec (initial (fun _ => ⟨⟨none, 0⟩, 0, 0⟩) 0 0) overtaking =
        some s ∧ Bounded s ∧
      .take 15 11 :: s.trace.drop 4 = s.trace.drop 3 ∧
      .callEnqueue 11 70 :: s.trace.drop 9 = (s.trace.drop 4).drop 4 ∧
      .retEnqueue 0 ∈ s.trace.drop 9 ∧ 0 ∉ taken (s.trace.drop 4) :=
    ⟨_, rfl, ⟨by decide, by decide⟩, rfl, rfl, by decide, by decide⟩
  have hfifo := (hall s (.of_exec ⟨_, _, _, rfl⟩ hrun) hbound).fifo
  refine hnot (mem_taken.mpr (hfifo 15 11 _ ?_ 0 70 _ ?_ hret))
  · rw [htake]
    exact List.drop_suffix _ _
  · rw [hcall]
    exact List.drop_suffix _ _

end Queue
end Lockfree
end Cyan

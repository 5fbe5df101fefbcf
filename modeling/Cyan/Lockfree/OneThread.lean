import Cyan.Lockfree.QueueRuns
import Cyan.Lockfree.StackRuns

/-!
# The containers over the real pool in one thread

When no element throws, a queue is a list that is first in, first out, a stack one that is
last in, first out, and the pool of either has every node again in the end.

When one does, there is no code that cleans up.  A constructor that throws leaves its node
neither in the container nor in the pool.  An assignment that throws in `try_pop` leaves the
stack without the element; `try_dequeue` assigns before it takes the node out, so the queue is
as it was unless the assignment has touched its source.  Whatever an operation comes to is a
container again, which may have lost some nodes (`known_run`).
-/

namespace Cyan
namespace Lockfree
namespace Alone

open Base Freelist

variable {P T : Type} [DecidableEq P]

section Quiet

variable (env : Env P T) (maxSize : UInt64)

/-- Queues and stacks answer like lists, from the constructor to the destructor of the pool:
every loop ends, no assertion fails, and every node that went out has come back once. -/
theorem refines_lists (henv : ∀ k, env.throws k = false) :
    (∀ (ops : List (Queue.Op T)) (s : Queue.State P T),
      Halts (fun answers s' => answers = (replay Queue.Op.onList ops []).1 ∧ Once s'.trace ∧
          ∀ n, outstanding s'.trace n = false) (fun _ _ => False)
        (fun fuel => Queue.life env maxSize ops fuel) s) ∧
    ∀ (ops : List (Stack.Op T)) (s : Stack.State P T),
      Halts (fun answers s' => answers = (replay Stack.Op.onList ops []).1 ∧ Once s'.trace ∧
          ∀ n, outstanding s'.trace n = false) (fun _ _ => False)
        (fun fuel => Stack.life env maxSize ops fuel) s :=
  ⟨fun ops _ => Queue.halts_life env henv ops, fun ops _ => Stack.halts_life env henv ops⟩

end Quiet

/-- Addresses that count up, every third weak exchange fails, and the elements that throw are
given. -/
def counting (throws : Nat → Bool) : Env Nat Nat where
  pick _ mapped := mapped.foldr max 0 + 1
  pick_fresh _ mapped := by
    have hle : ∀ n ∈ mapped, n ≤ mapped.foldr max 0 := by
      intro n hn
      induction mapped with
      | nil => cases hn
      | cons m mapped ih =>
          rcases List.mem_cons.mp hn with rfl | hn
          · exact Nat.le_max_left ..
          · exact Nat.le_trans (ih hn) (Nat.le_max_right ..)
    intro hmem
    have hlt := hle _ hmem
    omega
  garbage k := ⟨some k, 7, k⟩
  spurious k := k % 3 = 0
  fair k := by
    refine ⟨3 * k + 1, by omega, ?_⟩
    simp [Nat.add_mod]
  throws := throws
  failed _ _ data := data
  movedFrom _ := 0
  blank := 0

/-- Memory in which nothing has been done yet. -/
def fresh {κ : Type} (members : κ) : Memory κ Nat Nat where
  members := members
  heap _ := ⟨none, 0, 0⟩
  mapped := []
  head := none
  size := 0
  trace := []
  system := []
  requests := 0
  exchanges := 0
  elements := 0

/-- A queue and a stack over a pool of one node, which runs empty and is full again. -/
theorem refines_lists_counting :
    Halts (fun answers s' => answers = [.done, .done, .taken true 5, .isEmpty false,
          .taken true 6, .taken false 8, .isEmpty true] ∧ Once s'.trace ∧
          ∀ n, outstanding s'.trace n = false) (fun _ _ => False)
        (fun fuel => Queue.life (counting fun _ => false) 1 [.enqueue 5, .emplace 6,
          .tryDequeue 0, .empty, .tryDequeue 0, .tryDequeue 8, .empty] fuel)
        (fresh ⟨⟨none, 0⟩, ⟨none, 0⟩⟩) ∧
      Halts (fun answers s' => answers = [.done, .done, .taken true 6, .done, .isEmpty true] ∧
          Once s'.trace ∧ ∀ n, outstanding s'.trace n = false) (fun _ _ => False)
        (fun fuel => Stack.life (counting fun _ => false) 1 [.push 5, .emplace 6, .tryPop 0,
          .clear, .empty] fuel) (fresh none) :=
  have h := refines_lists (counting fun _ => false) 1 fun _ => rfl
  ⟨h.1 _ _, h.2 _ _⟩

/-- The elements are the same, and as many nodes are outside. -/
def Same {κ : Type} (contains : Memory κ P T → List T → Prop) (s s' : Memory κ P T) : Prop :=
  (∀ items, contains s' items ↔ contains s items) ∧ handedOut s'.trace = handedOut s.trace

omit [DecidableEq P] in
theorem not_same_of_more {κ : Type} {contains : Memory κ P T → List T → Prop}
    {s s' : Memory κ P T} (hmore : handedOut s'.trace = handedOut s.trace + 1) :
    ¬Same contains s s' := by
  rintro ⟨-, hsame⟩
  omega

section Throwing

variable (env : Env P T) {maxSize : UInt64} {lost : List P} {items : List T}

namespace Queue

/-- An exception leaves the queue with the elements that it had, and as many nodes. -/
def Keeps (maxSize : UInt64) (op : Op T) (s : State P T) : Prop :=
  ∀ s', Comes (runOp env maxSize op) s (.error .thrown s') → Same Contains s s'

/-- Nothing is constructed that throws, and an assignment that throws leaves the element as
it was.  `k` numbers the next constructor or assignment. -/
def Op.Harmless (k : Nat) (items : List T) : Op T → Prop
  | .enqueue _ => env.throws k = false
  | .emplace _ => env.throws k = false ∧ env.throws (k + 1) = false
  | .tryDequeue value => ∀ x ∈ items.head?, env.throws k = true → env.failed k value x = x
  | .empty => True

/-- A queue contains what it is known to contain. -/
theorem Holds.contains_iff {lag : Nat} {s : State P T} (h : Holds maxSize lag lost s items)
    {items' : List T} : Contains s items' ↔ items' = items := by
  refine ⟨fun h' => h'.unique h.contains, ?_⟩
  rintro rfl
  exact h.contains

theorem keeps_iff {lag : Nat} {s : State P T} (op : Op T) (h : Holds maxSize lag lost s items) :
    Keeps env maxSize op s ↔ op.Harmless env s.elements items := by
  cases op with
  | enqueue value =>
      refine Halts.throws_iff (Halts.bind ((halts_enqueue env h).mono
        (fun _ s' hs' => Halts.const_iff.mpr hs'.1) fun _ _ he => he)) ?_
      rintro e s' ⟨rfl, ht, hmore, -⟩
      refine ⟨rfl, iff_of_false (not_same_of_more hmore) ?_⟩
      show ¬env.throws s.elements = false
      simp [ht]
  | emplace value =>
      refine Halts.throws_iff (Halts.bind ((halts_emplace env h).mono
        (fun _ s' hs' => Halts.const_iff.mpr hs'.1) fun _ _ he => he)) ?_
      rintro e s' ⟨rfl, ht, hmore, -⟩
      exact ⟨rfl, iff_of_false (not_same_of_more hmore) ht⟩
  | tryDequeue value =>
      refine Halts.throws_iff (Halts.bind ((halts_tryDequeue env h).mono
        (fun r s' hs' => Halts.const_iff.mpr ?_) fun _ _ he => he)) ?_
      · cases items with
        | nil =>
            rintro x hx
            cases hx
        | cons y items =>
            rintro x hx ht
            rw [hs'.1] at ht
            cases ht
      · rintro e s' ⟨rfl, ht, hsame, x, rest, lag', rfl, hholds⟩
        have hcontains := hholds.contains
        refine ⟨rfl, ?_⟩
        -- the node is still in the queue, with what the assignment has left in it
        constructor
        · rintro ⟨hall, -⟩ y hy -
          obtain rfl : x = y := Option.some.inj hy
          have hleft := h.contains_iff.mp ((hall _).mp hcontains)
          exact (List.cons.inj hleft).1
        · intro hharmless
          rw [hharmless x rfl ht] at hcontains
          refine ⟨fun items' => ?_, hsame⟩
          rw [h.contains_iff]
          refine ⟨fun h' => h'.unique hcontains, ?_⟩
          rintro rfl
          exact hcontains
  | empty =>
      refine Halts.throws_iff (E := fun _ _ => False)
        (Halts.const_iff.mpr trivial) fun _ _ he => he.elim

/-- A queue between two operations, whatever has thrown before. -/
def Known (maxSize : UInt64) (s : State P T) : Prop :=
  ∃ lag lost items, Holds maxSize lag lost s items

/-- An operation ends, and leaves a queue behind whether it throws or not. -/
theorem known_run {s : State P T} (op : Op T) (h : Known maxSize s) :
    Halts (fun _ s' => Known maxSize s') (fun e s' => e = .thrown ∧ Known maxSize s')
      (runOp env maxSize op) s := by
  obtain ⟨lag, lost, items, h⟩ := h
  cases op with
  | enqueue value =>
      refine Halts.bind ((halts_enqueue env h).mono
        (fun _ s' hs' => Halts.const_iff.mpr ⟨_, _, _, hs'.2⟩) ?_)
      rintro e s' ⟨he, -, -, n, lag', hlost⟩
      exact ⟨he, lag', n :: lost, items, hlost⟩
  | emplace value =>
      refine Halts.bind ((halts_emplace env h).mono
        (fun _ s' hs' => Halts.const_iff.mpr ⟨_, _, _, hs'.2⟩) ?_)
      rintro e s' ⟨he, -, -, n, lag', hlost⟩
      exact ⟨he, lag', n :: lost, items, hlost⟩
  | tryDequeue value =>
      refine Halts.bind ((halts_tryDequeue env h).mono
        (fun r s' hs' => Halts.const_iff.mpr ?_) ?_)
      · cases items with
        | nil => exact ⟨lag, lost, [], hs'.2⟩
        | cons x items => exact ⟨lag, lost, items, hs'.2.2⟩
      · rintro e s' ⟨he, -, -, x, rest, lag', -, hholds⟩
        exact ⟨he, lag', lost, _, hholds⟩
  | empty => exact Halts.const_iff.mpr ⟨lag, lost, items, h⟩

end Queue

namespace Stack

/-- An exception leaves the stack with the elements that it had, and as many nodes. -/
def Keeps (maxSize : UInt64) (op : Op T) (s : State P T) : Prop :=
  ∀ s', Comes (runOp env maxSize op) s (.error .thrown s') → Same Contains s s'

/-- Nothing is constructed that throws, and no assignment throws.  `k` numbers the next
constructor or assignment. -/
def Op.Harmless (k : Nat) (items : List T) : Op T → Prop
  | .push _ => env.throws k = false
  | .emplace _ => env.throws k = false ∧ env.throws (k + 1) = false
  | .tryPop _ => items ≠ [] → env.throws k = false
  | .clear => True
  | .empty => True

theorem keeps_iff {s : State P T} (op : Op T) (h : Holds maxSize lost s items) :
    Keeps env maxSize op s ↔ op.Harmless env s.elements items := by
  cases op with
  | push value =>
      refine Halts.throws_iff (Halts.bind ((halts_push env h).mono
        (fun _ s' hs' => Halts.const_iff.mpr hs'.1) fun _ _ he => he)) ?_
      rintro e s' ⟨rfl, ht, hmore, -⟩
      refine ⟨rfl, iff_of_false (not_same_of_more hmore) ?_⟩
      show ¬env.throws s.elements = false
      simp [ht]
  | emplace value =>
      refine Halts.throws_iff (Halts.bind ((halts_emplace env h).mono
        (fun _ s' hs' => Halts.const_iff.mpr hs'.1) fun _ _ he => he)) ?_
      rintro e s' ⟨rfl, ht, hmore, -⟩
      exact ⟨rfl, iff_of_false (not_same_of_more hmore) ht⟩
  | tryPop value =>
      refine Halts.throws_iff (Halts.bind ((halts_tryPop env h).mono
        (fun r s' hs' => Halts.const_iff.mpr ?_) fun _ _ he => he)) ?_
      · cases items with
        | nil => exact fun hne => absurd rfl hne
        | cons y items => exact fun _ => hs'.1
      · -- the node is out of the stack by then
        rintro e s' ⟨rfl, ht, x, rest, n, rfl, hholds⟩
        refine ⟨rfl, iff_of_false ?_ fun hquiet => ?_⟩
        · rintro ⟨hall, -⟩
          have hlen := congrArg List.length (((hall rest).mp hholds.contains).unique h.contains)
          simp at hlen
        · replace hquiet : env.throws s.elements = false := hquiet (by simp)
          rw [ht] at hquiet
          cases hquiet
  | clear =>
      exact Halts.throws_iff (E := fun _ _ => False) (Halts.bind ((halts_clear env h).mono
        (fun _ s' _ => Halts.const_iff.mpr trivial) fun _ _ he => he)) fun _ _ he => he.elim
  | empty =>
      exact Halts.throws_iff (E := fun _ _ => False)
        (Halts.const_iff.mpr trivial) fun _ _ he => he.elim

/-- A stack between two operations, whatever has thrown before. -/
def Known (maxSize : UInt64) (s : State P T) : Prop :=
  ∃ lost items, Holds maxSize lost s items

/-- An operation ends, and leaves a stack behind whether it throws or not. -/
theorem known_run {s : State P T} (op : Op T) (h : Known maxSize s) :
    Halts (fun _ s' => Known maxSize s') (fun e s' => e = .thrown ∧ Known maxSize s')
      (runOp env maxSize op) s := by
  obtain ⟨lost, items, h⟩ := h
  cases op with
  | push value =>
      refine Halts.bind ((halts_push env h).mono
        (fun _ s' hs' => Halts.const_iff.mpr ⟨_, _, hs'.2⟩) ?_)
      rintro e s' ⟨he, -, -, n, hlost⟩
      exact ⟨he, n :: lost, items, hlost⟩
  | emplace value =>
      refine Halts.bind ((halts_emplace env h).mono
        (fun _ s' hs' => Halts.const_iff.mpr ⟨_, _, hs'.2⟩) ?_)
      rintro e s' ⟨he, -, -, n, hlost⟩
      exact ⟨he, n :: lost, items, hlost⟩
  | tryPop value =>
      refine Halts.bind ((halts_tryPop env h).mono
        (fun r s' hs' => Halts.const_iff.mpr ?_) ?_)
      · cases items with
        | nil => exact ⟨lost, [], hs'.2⟩
        | cons x items => exact ⟨lost, items, hs'.2.2⟩
      · rintro e s' ⟨he, -, x, rest, n, -, hholds⟩
        exact ⟨he, n :: lost, rest, hholds⟩
  | clear =>
      exact Halts.bind ((halts_clear env h).mono
        (fun _ s' hs' => Halts.const_iff.mpr ⟨lost, [], hs'⟩) fun _ _ he => he)
  | empty => exact Halts.const_iff.mpr ⟨lost, items, h⟩

end Stack

/-- When an exception of the element leaves the container as it was, for every queue, lagging
or not, and every stack, whatever nodes they have lost before. -/
theorem throw_keeps_iff :
    (∀ (lag : Nat) (lost : List P) (s : Queue.State P T) (items : List T) (op : Queue.Op T),
      Queue.Holds maxSize lag lost s items →
        (Queue.Keeps env maxSize op s ↔ op.Harmless env s.elements items)) ∧
    ∀ (lost : List P) (s : Stack.State P T) (items : List T) (op : Stack.Op T),
      Stack.Holds maxSize lost s items →
        (Stack.Keeps env maxSize op s ↔ op.Harmless env s.elements items) :=
  ⟨fun _ _ _ _ op h => Queue.keeps_iff env op h, fun _ _ _ op h => Stack.keeps_iff env op h⟩

end Throwing

/-- A stack of one node in use, over a pool that holds none. -/
def single : Stack.State Nat Nat :=
  { fresh (some 1) with
    heap := fun _ => ⟨none, 0, 5⟩
    mapped := [1]
    trace := [.allocated 1] }

/-- A pop that throws loses the element. -/
theorem throw_keeps_iff_single :
    ¬Stack.Keeps (counting fun _ => true) 0 (.tryPop 0) single := by
  have hholds : Stack.Holds 0 [] single [5] := by
    refine ⟨[1], [], ⟨rfl, rfl⟩, ⟨⟨rfl, rfl, by decide, by simp⟩, by decide, by decide, ?_, ?_,
      ?_⟩, rfl⟩
    · simp [single]
    · exact ⟨rfl, trivial⟩
    · intro n
      simp [single, Freelist.outstanding, eq_comm]
  intro hkeeps
  have hharmless := ((throw_keeps_iff (counting fun _ => true)).2 [] single [5] (.tryPop 0)
    hholds).mp hkeeps
  have hquiet : true = false := hharmless (by simp)
  cases hquiet

/-- A queue as its constructor makes it, and an element that throws when it is copied: the
node is in neither the queue nor the pool. -/
theorem enqueue_loses_node :
    ∃ s s' : Queue.State Nat Nat,
      Comes (Queue.create (counting fun k => k = 1) 1000)
        (fresh ⟨⟨none, 0⟩, ⟨none, 0⟩⟩) (.ok () s) ∧
      Comes (Queue.runOp (counting fun k => k = 1) 1000 (.enqueue 7)) s (.error .thrown s') ∧
      handedOut s'.trace = handedOut s.trace + 1 := by
  have hmade : Halts (fun _ s' => Queue.Holds 1000 0 [] s' [] ∧ s'.elements = 1)
      (fun _ _ => False) (Queue.create (counting fun k => k = 1) 1000)
      (fresh ⟨⟨none, 0⟩, ⟨none, 0⟩⟩) := Queue.halts_create _ rfl
  obtain ⟨r, hcreate, hends⟩ := hmade
  cases r with
  | error e s => exact hends.elim
  | ok u s =>
      obtain ⟨hholds, helements⟩ := hends
      have hrun : Halts (fun _ _ => False)
          (fun e s' => e = .thrown ∧ handedOut s'.trace = handedOut s.trace + 1)
          (Queue.runOp (counting fun k => k = 1) 1000 (.enqueue 7)) s := by
        refine Halts.bind ((Queue.halts_enqueue (counting fun k => k = 1) hholds).mono
          (fun _ _ hs' => ?_) fun _ _ he => ⟨he.1, he.2.2.1⟩)
        have hquiet := hs'.1
        rw [helements] at hquiet
        cases hquiet
      obtain ⟨r, henqueue, hends⟩ := hrun
      cases r with
      | ok a s' => exact hends.elim
      | error e s' =>
          obtain ⟨rfl, hmore⟩ := hends
          exact ⟨s, s', hcreate, henqueue, hmore⟩

end Alone
end Lockfree
end Cyan

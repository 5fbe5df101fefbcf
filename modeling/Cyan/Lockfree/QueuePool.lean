import Cyan.Lockfree.PoolSafety
import Cyan.Lockfree.Queue

/-!
# The queue over its free list

The queue as a client of its pool, in the way of `Cyan.Lockfree.StackPool`: the
steps of its members are those of `Queue.step`, but for nodes the thread waits
for the free list.  `Queue.lawful` says that the queue guarantees what a client
has to.
-/

namespace Cyan
namespace Lockfree
namespace Queue

open Base

variable {Thread P T : Type*}

namespace Pc

/-- The pool's part in the members of the queue. -/
def request : Pc P T → Pool.Request P
  | .allocate _ _ => .allocate
  | .deallocate _ _ _ n => .deallocate n
  | _ => .none

/-- The node that the next step reads or writes; a node that is given back is
destroyed first. -/
def touched : Pc P T → Option P
  | .initNext _ _ n | .initData _ _ n | .deallocate _ _ _ n => some n
  | .loadNext _ _ tail | .casNext _ _ tail _ => tail.ptr
  | .loadHeadNext _ _ head _ => head.ptr
  | .moveData _ _ _ next => next.ptr
  | _ => none

/-- The pointers whose link the thread will follow or which it will make a link,
the head or the tail. -/
def follow : Pc P T → List P
  | .initData _ _ n | .loadTail _ n | .casNext _ n _ _ | .reloadTail _ n _ => [n]
  | .loadNext _ n tail => n :: tail.ptr.toList
  | .recheckTail _ n _ next => n :: next.ptr.toList
  | .swingTail _ _ newTail => newTail.ptr.toList
  | .helpTail _ n _ newTail => n :: newTail.ptr.toList
  | .loadTailAt _ _ head | .loadHeadNext _ _ head _ => head.ptr.toList
  | .recheckHead _ _ _ _ next | .moveData _ _ _ next | .casHead _ _ _ next _ =>
      next.ptr.toList
  | .helpTailAt _ _ _ node => node.ptr.toList
  | _ => []

/-- The nodes that the thread only touches. -/
def owned : Pc P T → List P
  | .initNext _ _ n | .deallocate _ _ _ n => [n]
  | .casNext _ _ tail _ => tail.ptr.toList
  | _ => []

end Pc

variable [DecidableEq Thread] [DecidableEq P]

/-- The steps of the members outside the pool. -/
def memberStep (movedFrom : T → T) (s : State Thread P T) :
    Action Thread P T → Option (State Thread P T)
  | .allocate _ _ => none
  | .deallocate _ _ => none
  | a => step movedFrom s a

/-- A thread goes on after its call of the pool: `enqueue` with the node that
`allocate` returned, `try_dequeue` with nothing. -/
def resume (s : State Thread P T) (t : Thread) (n : Option P) : State Thread P T :=
  match s.pc t, n with
  | .allocate op value, some n => s.goto t (.initNext op value n)
  | .deallocate op value item _, none =>
      (s.emit (.retDequeue op (some item) value)).goto t .idle
  | _, _ => s

/-- The queue as a client of its free list. -/
def client (movedFrom : T → T) :
    Pool.Client (State Thread P T) (Action Thread P T) (Pc P T) Thread P where
  step := memberStep movedFrom
  pc := State.pc
  request := Pc.request
  resume := resume
  word s n := (s.heap n).next.ptr
  setWords s words :=
    { s with heap := fun n => { s.heap n with next := ⟨words n, (s.heap n).next.tag⟩ } }
  touched := Pc.touched

/-- The nodes to which the queue refers. -/
def pointers : Pool.Pointers (State Thread P T) (Pc P T) P where
  shared s := s.head.ptr.toList ++ s.tail.ptr.toList
  follow := Pc.follow
  own := Pc.owned

/-- `queue::queue`: the free list is filled, and `initialize` has taken the dummy
node from it. -/
def starts (movedFrom : T → T) (maxSize : UInt64)
    (s : Pool.State (State Thread P T) Thread P) : Prop :=
  ∃ heap filled pool dummy data, (Freelist.machine maxSize).start filled ∧
    Freelist.allocateAlone filled dummy = some pool ∧
    s = ⟨(client movedFrom).setWords (initial heap dummy data)
      (Function.update pool.next dummy none), pool⟩

/-- The queue over its free list, as a machine. -/
def pooled (movedFrom : T → T) (maxSize : UInt64) :
    Machine (Pool.State (State Thread P T) Thread P)
      (Pool.Action (Action Thread P T) Thread P) :=
  Pool.machine (client movedFrom) (starts movedFrom maxSize) maxSize

/-! ## The laws of a client -/

variable {movedFrom : T → T} {s s' : State Thread P T} {X H : Set P}

/-- The pointers of a queue, with a closed set around them. -/
abbrev Fits (movedFrom : T → T) (s : State Thread P T) (X H : Set P) : Prop :=
  Pool.Fits (client movedFrom) pointers s X H

theorem Fits.head (h : Fits movedFrom s X H) {n : P} (hn : s.head.ptr = some n) : n ∈ X :=
  h.shared n (List.mem_append.mpr (Or.inl (Option.mem_toList.mpr hn)))

theorem Fits.tail (h : Fits movedFrom s X H) {n : P} (hn : s.tail.ptr = some n) : n ∈ X :=
  h.shared n (List.mem_append.mpr (Or.inr (Option.mem_toList.mpr hn)))

theorem Fits.link (h : Fits movedFrom s X H) {n m : P} (hn : n ∈ X)
    (hm : (s.heap n).next.ptr = some m) : m ∈ X :=
  h.closed n hn m hm

/-- A step that writes no link. -/
theorem Fits.move (h : Fits movedFrom s X H) {t : Thread} {k : Pc P T}
    (hpc : s'.pc = Function.update s.pc t k)
    (hword : (client movedFrom).word s' = (client movedFrom).word s)
    (hhead : ∀ n, s'.head.ptr = some n → n ∈ X) (htail : ∀ n, s'.tail.ptr = some n → n ∈ X)
    (hfollow : ∀ n ∈ k.follow, n ∈ X) (hown : ∀ n ∈ k.owned, n ∈ H) :
    ∃ X', X ⊆ X' ∧ Fits movedFrom s' X' H := by
  refine ⟨X, fun _ hn => hn, Pool.Fits.goto h hpc (fun _ hn => hn) h.held ?_
    (fun n hn => ?_) hfollow hown⟩
  · rw [hword]
    exact h.closed
  · rcases List.mem_append.mp hn with hn | hn
    · exact hhead n (Option.mem_toList.mp hn)
    · exact htail n (Option.mem_toList.mp hn)

/-- A step that changes nothing but where the thread stands. -/
theorem Fits.stay (h : Fits movedFrom s X H) {t : Thread} {k : Pc P T}
    (trace : List (Event T)) (hfollow : ∀ n ∈ k.follow, n ∈ X)
    (hown : ∀ n ∈ k.owned, n ∈ H) :
    ∃ X', X ⊆ X' ∧ Fits movedFrom ({ s with trace := trace }.goto t k) X' H :=
  h.move rfl rfl (fun _ hn => h.head hn) (fun _ hn => h.tail hn) hfollow hown

/-- An exchange on the tail. -/
theorem Fits.exchangeTail (h : Fits movedFrom s X H) {t : Thread} {k : Pc P T}
    {tail newTail : TaggedPtr P} (trace : State Thread P T → List (Event T))
    (hnew : ∀ n, newTail.ptr = some n → n ∈ X) (hfollow : ∀ n ∈ k.follow, n ∈ X)
    (hown : ∀ n ∈ k.owned, n ∈ H) :
    ∃ X', X ⊆ X' ∧ Fits movedFrom
      ({ exchangeTail s tail newTail with
        trace := trace (exchangeTail s tail newTail) }.goto t k) X' H := by
  unfold Queue.exchangeTail
  split
  · exact h.move rfl rfl (fun n hn => h.head hn) hnew hfollow hown
  · exact h.stay _ hfollow hown

/-- The words after a write to one node. -/
theorem word_setNode (s : State Thread P T) (n : P) (node : Node P T) :
    (client movedFrom).word (s.setNode n node) =
      Function.update ((client movedFrom).word s) n node.next.ptr :=
  Function.comp_update (fun node : Node P T => node.next.ptr) s.heap n node

/-- A write to the data of a node leaves its word alone. -/
theorem word_setData (s : State Thread P T) (n : P) (data : T) :
    (client movedFrom).word (s.setData n data) = (client movedFrom).word s :=
  (word_setNode s n _).trans (Function.update_eq_self ..)

theorem Fits.stepEnqueue (h : Fits movedFrom s X H) {t : Thread}
    (hstep : stepEnqueue s t (s.pc t) = some s') :
    ∃ X', X ⊆ X' ∧ Fits movedFrom s' X' H := by
  cases hpc : s.pc t with
  | initNext op value n =>
      -- the node links to nothing, so it may join the set
      rw [hpc] at hstep
      cases hstep
      have hn : n ∈ H := h.ownAt hpc (List.mem_singleton_self n)
      refine ⟨insert n X, Set.subset_insert n X, Pool.Fits.goto h rfl
        (Set.subset_insert n X) ?_ ?_ (fun m hm => Or.inr (h.shared m hm)) ?_
        (fun m hm => nomatch hm)⟩
      · rintro m (rfl | hm)
        · exact hn
        · exact h.held m hm
      · change Closed ((client movedFrom).word (s.setNode n _)) _
        rw [word_setNode]
        have hnull : ∀ m, (none : Option P) = some m → m ∈ X := fun m hm => nomatch hm
        refine (h.closed.update hnull).insert fun m hm => ?_
        rw [Function.update_self] at hm
        cases hm
      · intro m hm
        cases List.mem_singleton.mp hm
        exact Set.mem_insert n X
  | initData op value n =>
      rw [hpc] at hstep
      cases hstep
      exact h.move rfl (word_setData s n value) (fun m hm => h.head hm)
        (fun m hm => h.tail hm) (fun m hm => h.followAt hpc hm) (fun m hm => nomatch hm)
  | loadTail op n =>
      rw [hpc] at hstep
      cases hstep
      refine h.stay s.trace (fun m hm => ?_) (fun m hm => nomatch hm)
      rcases List.mem_cons.mp hm with rfl | hm
      · exact h.followAt hpc (List.mem_singleton_self m)
      · exact h.tail (Option.mem_toList.mp hm)
  | loadNext op n tail =>
      have hn : n ∈ X := h.followAt hpc List.mem_cons_self
      simp only [hpc, Queue.stepEnqueue] at hstep
      split at hstep
      · cases hstep
        exact h.stay s.trace (fun m hm => nomatch hm) (fun m hm => nomatch hm)
      · rename_i a ha
        cases hstep
        have htail : ∀ m ∈ tail.ptr.toList, m ∈ X :=
          fun m hm => h.followAt hpc (List.mem_cons_of_mem n hm)
        refine h.stay s.trace (fun m hm => ?_) (fun m hm => nomatch hm)
        rcases List.mem_cons.mp hm with rfl | hm
        · exact hn
        · exact h.link (htail a (Option.mem_toList.mpr ha)) (Option.mem_toList.mp hm)
  | recheckTail op n tail next =>
      have hn : n ∈ X := h.followAt hpc List.mem_cons_self
      simp only [hpc, Queue.stepEnqueue] at hstep
      split at hstep
      · rename_i hfound
        split at hstep
        · cases hstep
          refine h.stay s.trace (fun m hm => ?_) (fun m hm => h.held m (h.tail ?_))
          · cases List.mem_singleton.mp hm
            exact hn
          · exact hfound ▸ Option.mem_toList.mp hm
        · cases hstep
          exact h.stay s.trace (fun m hm => h.followAt hpc hm)
            (fun m hm => nomatch hm)
      · cases hstep
        refine h.stay s.trace (fun m hm => ?_) (fun m hm => nomatch hm)
        cases List.mem_singleton.mp hm
        exact hn
  | casNext op n tail next =>
      have hn : n ∈ X := h.followAt hpc (List.mem_singleton_self n)
      have hfollow : ∀ m ∈ [n], m ∈ X := fun m hm => List.mem_singleton.mp hm ▸ hn
      simp only [hpc, Queue.stepEnqueue] at hstep
      split at hstep
      · cases hstep
        exact h.stay s.trace (fun m hm => nomatch hm) (fun m hm => nomatch hm)
      · split at hstep
        · cases hstep
          refine ⟨X, fun _ hm => hm, Pool.Fits.goto h rfl (fun _ hm => hm) h.held
            ?_ h.shared hfollow (fun m hm => nomatch hm)⟩
          change Closed ((client movedFrom).word (s.setNode _ _)) X
          rw [word_setNode]
          exact h.closed.update fun m hm => Option.some.inj hm ▸ hn
        · cases hstep
          exact h.stay s.trace hfollow (fun m hm => nomatch hm)
  | reloadTail op n tail =>
      rw [hpc] at hstep
      cases hstep
      exact h.stay s.trace (fun m hm => h.followAt hpc hm)
        (fun m hm => nomatch hm)
  | swingTail op tail newTail =>
      rw [hpc] at hstep
      cases hstep
      exact h.exchangeTail (fun s => .retEnqueue op :: s.trace)
        (fun m hm => h.followAt hpc (Option.mem_toList.mpr hm)) (fun m hm => nomatch hm)
        (fun m hm => nomatch hm)
  | helpTail op n tail newTail =>
      rw [hpc] at hstep
      cases hstep
      refine h.exchangeTail (fun s => s.trace)
        (fun m hm => h.followAt hpc (List.mem_cons_of_mem n (Option.mem_toList.mpr hm)))
        (fun m hm => ?_) (fun m hm => nomatch hm)
      cases List.mem_singleton.mp hm
      exact h.followAt hpc List.mem_cons_self
  | _ => rw [hpc] at hstep; cases hstep

theorem Fits.stepDequeue (h : Fits movedFrom s X H) {t : Thread}
    (hstep : stepDequeue movedFrom s t (s.pc t) = some s') :
    ∃ X', X ⊆ X' ∧ Fits movedFrom s' X' H := by
  cases hpc : s.pc t with
  | loadHead op value =>
      rw [hpc] at hstep
      cases hstep
      exact h.stay s.trace (fun m hm => h.head (Option.mem_toList.mp hm))
        (fun m hm => nomatch hm)
  | loadTailAt op value head =>
      rw [hpc] at hstep
      cases hstep
      exact h.stay s.trace (fun m hm => h.followAt hpc hm)
        (fun m hm => nomatch hm)
  | loadHeadNext op value head tail =>
      simp only [hpc, Queue.stepDequeue] at hstep
      split at hstep
      · cases hstep
        exact h.stay s.trace (fun m hm => nomatch hm) (fun m hm => nomatch hm)
      · rename_i a ha
        cases hstep
        have hX : a ∈ X := h.followAt hpc (Option.mem_toList.mpr ha)
        exact h.stay s.trace
          (fun m hm => h.link hX (Option.mem_toList.mp hm)) (fun m hm => nomatch hm)
  | recheckHead op value head tail next =>
      simp only [hpc, Queue.stepDequeue] at hstep
      split at hstep
      · split at hstep
        · split at hstep
          · cases hstep
            exact h.stay _ (fun m hm => nomatch hm) (fun m hm => nomatch hm)
          · cases hstep
            exact h.stay s.trace (fun m hm => h.followAt hpc hm)
              (fun m hm => nomatch hm)
        · cases hstep
          exact h.stay s.trace (fun m hm => h.followAt hpc hm)
            (fun m hm => nomatch hm)
      · cases hstep
        exact h.stay s.trace (fun m hm => nomatch hm) (fun m hm => nomatch hm)
  | helpTailAt op value tail node =>
      rw [hpc] at hstep
      cases hstep
      exact h.exchangeTail (fun s => s.trace)
        (fun m hm => h.followAt hpc (Option.mem_toList.mpr hm)) (fun m hm => nomatch hm)
        (fun m hm => nomatch hm)
  | moveData op value head next =>
      simp only [hpc, Queue.stepDequeue] at hstep
      split at hstep
      · cases hstep
        exact h.stay s.trace (fun m hm => nomatch hm) (fun m hm => nomatch hm)
      · cases hstep
        exact h.move rfl (word_setData s _ _) (fun m hm => h.head hm)
          (fun m hm => h.tail hm) (fun m hm => h.followAt hpc hm) (fun m hm => nomatch hm)
  | casHead op value head next old =>
      simp only [hpc, Queue.stepDequeue] at hstep
      split at hstep
      · rename_i a x ha hx
        split at hstep
        · rename_i hfound
          cases hstep
          refine h.move rfl rfl
            (fun m hm => h.followAt hpc (Option.mem_toList.mpr hm)) (fun m hm => h.tail hm)
            (fun m hm => nomatch hm) (fun m hm => ?_)
          cases List.mem_singleton.mp hm
          exact h.held a (h.head (hfound ▸ ha))
        · cases hstep
          exact h.stay s.trace (fun m hm => nomatch hm) (fun m hm => nomatch hm)
      · cases hstep
        exact h.stay s.trace (fun m hm => nomatch hm) (fun m hm => nomatch hm)
  | _ => rw [hpc] at hstep; cases hstep

/-- A call of a member starts. -/
theorem Fits.begin (h : Fits movedFrom s X H) {t : Thread} {k : Pc P T} {e : Event T}
    (hfollow : k.follow = []) (hown : k.owned = []) :
    ∃ X', X ⊆ X' ∧ Fits movedFrom ((s.goto t k).emit e) X' H := by
  refine h.stay (e :: s.trace) (fun m hm => ?_) (fun m hm => ?_)
  · rw [hfollow] at hm
    cases hm
  · rw [hown] at hm
    cases hm

/-- Whatever a member does outside the pool, the pointers keep inside a closed
set of nodes that were there before. -/
theorem Fits.memberStep (h : Fits movedFrom s X H) {a : Action Thread P T}
    (hstep : memberStep movedFrom s a = some s') :
    ∃ X', X ⊆ X' ∧ Fits movedFrom s' X' H := by
  cases a with
  | enqueue t value =>
      simp only [Queue.memberStep, step, enqueue, beginEnqueue] at hstep
      split at hstep <;> cases hstep
      exact h.begin rfl rfl
  | emplace t value =>
      simp only [Queue.memberStep, step, emplace, beginEnqueue] at hstep
      split at hstep <;> cases hstep
      exact h.begin rfl rfl
  | tryDequeue t value =>
      simp only [Queue.memberStep, step, tryDequeue] at hstep
      split at hstep <;> cases hstep
      exact h.begin rfl rfl
  | run t =>
      simp only [Queue.memberStep, step, Option.orElse_eq_orElse, Option.orElse_eq_or,
        Option.or_eq_some_iff] at hstep
      rcases hstep with hrun | ⟨-, hrun⟩
      · exact h.stepEnqueue hrun
      · exact h.stepDequeue hrun
  | allocate t n => cases hstep
  | deallocate t word => cases hstep

/-- A step of thread `t` outside the pool. -/
abbrev Outside (movedFrom : T → T) (s s' : State Thread P T) (t : Thread) : Prop :=
  Pool.Outside (client movedFrom) s s' t

theorem outside_of_goto {t : Thread} {k k' : Pc P T} (hpc : s.pc t = k)
    (hrequest : k.request = .none) (hmove : s'.pc = Function.update s.pc t k') :
    Outside movedFrom s s' t :=
  Pool.Outside.of_goto _ hpc hrequest hmove

theorem outside_of_exchangeTail {t : Thread} {k k' : Pc P T} {tail newTail : TaggedPtr P}
    (hpc : s.pc t = k) (hrequest : k.request = .none)
    (hmove : s'.pc = Function.update (exchangeTail s tail newTail).pc t k') :
    Outside movedFrom s s' t := by
  rw [exchangeTail_pc] at hmove
  exact outside_of_goto hpc hrequest hmove

theorem outside_of_stepEnqueue {t : Thread}
    (hstep : stepEnqueue s t (s.pc t) = some s') : Outside movedFrom s s' t := by
  cases hpc : s.pc t with
  | loadNext op n tail =>
      simp only [hpc, stepEnqueue] at hstep
      split at hstep <;> cases hstep <;> exact outside_of_goto hpc rfl rfl
  | recheckTail op n tail next =>
      simp only [hpc, stepEnqueue] at hstep
      split at hstep
      · split at hstep <;> cases hstep <;> exact outside_of_goto hpc rfl rfl
      · cases hstep
        exact outside_of_goto hpc rfl rfl
  | casNext op n tail next =>
      simp only [hpc, stepEnqueue] at hstep
      split at hstep
      · cases hstep
        exact outside_of_goto hpc rfl rfl
      · split at hstep <;> cases hstep <;> exact outside_of_goto hpc rfl rfl
  | swingTail op tail newTail =>
      rw [hpc] at hstep
      cases hstep
      exact outside_of_exchangeTail hpc rfl rfl
  | helpTail op n tail newTail =>
      rw [hpc] at hstep
      cases hstep
      exact outside_of_exchangeTail hpc rfl rfl
  | _ => rw [hpc] at hstep; cases hstep <;> exact outside_of_goto hpc rfl rfl

theorem outside_of_stepDequeue {t : Thread}
    (hstep : stepDequeue movedFrom s t (s.pc t) = some s') : Outside movedFrom s s' t := by
  cases hpc : s.pc t with
  | loadHeadNext op value head tail =>
      simp only [hpc, stepDequeue] at hstep
      split at hstep <;> cases hstep <;> exact outside_of_goto hpc rfl rfl
  | recheckHead op value head tail next =>
      simp only [hpc, stepDequeue] at hstep
      split at hstep
      · split at hstep
        · split at hstep <;> cases hstep <;> exact outside_of_goto hpc rfl rfl
        · cases hstep
          exact outside_of_goto hpc rfl rfl
      · cases hstep
        exact outside_of_goto hpc rfl rfl
  | helpTailAt op value tail node =>
      rw [hpc] at hstep
      cases hstep
      exact outside_of_exchangeTail hpc rfl rfl
  | moveData op value head next =>
      simp only [hpc, stepDequeue] at hstep
      split at hstep <;> cases hstep <;> exact outside_of_goto hpc rfl rfl
  | casHead op value head next old =>
      simp only [hpc, stepDequeue] at hstep
      split at hstep
      · split at hstep <;> cases hstep <;> exact outside_of_goto hpc rfl rfl
      · cases hstep
        exact outside_of_goto hpc rfl rfl
  | _ => rw [hpc] at hstep; cases hstep <;> exact outside_of_goto hpc rfl rfl

/-- A step of a member is a step of one thread that does not wait for the
pool. -/
theorem outside_of_memberStep {a : Action Thread P T}
    (hstep : memberStep movedFrom s a = some s') : ∃ t, Outside movedFrom s s' t := by
  cases a with
  | enqueue t value =>
      simp only [memberStep, step, enqueue, beginEnqueue] at hstep
      split at hstep <;> cases hstep
      exact ⟨t, outside_of_goto ‹_› rfl rfl⟩
  | emplace t value =>
      simp only [memberStep, step, emplace, beginEnqueue] at hstep
      split at hstep <;> cases hstep
      exact ⟨t, outside_of_goto ‹_› rfl rfl⟩
  | tryDequeue t value =>
      simp only [memberStep, step, tryDequeue] at hstep
      split at hstep <;> cases hstep
      exact ⟨t, outside_of_goto ‹_› rfl rfl⟩
  | run t =>
      simp only [memberStep, step, Option.orElse_eq_orElse, Option.orElse_eq_or,
        Option.or_eq_some_iff] at hstep
      rcases hstep with hrun | ⟨-, hrun⟩
      · exact ⟨t, outside_of_stepEnqueue hrun⟩
      · exact ⟨t, outside_of_stepDequeue hrun⟩
  | allocate t n => cases hstep
  | deallocate t word => cases hstep

omit [DecidableEq P] in
/-- Whatever a thread touches, it follows or owns. -/
theorem follow_or_own {k : Pc P T} {n : P} (hn : k.touched = some n) :
    n ∈ k.follow ∨ n ∈ k.owned := by
  cases k with
  | initNext op value m => cases hn; exact Or.inr (List.mem_singleton_self _)
  | initData op value m => cases hn; exact Or.inl (List.mem_singleton_self _)
  | loadNext op m tail =>
      exact Or.inl (List.mem_cons_of_mem m (Option.mem_toList.mpr hn))
  | casNext op m tail next => exact Or.inr (Option.mem_toList.mpr hn)
  | loadHeadNext op value head tail => exact Or.inl (Option.mem_toList.mpr hn)
  | moveData op value head next => exact Or.inl (Option.mem_toList.mpr hn)
  | deallocate op value item m => cases hn; exact Or.inr (List.mem_singleton_self _)
  | _ => cases hn

/-- The queue guarantees what a client of the free list has to. -/
theorem lawful (movedFrom : T → T) :
    Pool.Lawful (client movedFrom : Pool.Client (State Thread P T) _ _ Thread P)
      pointers where
  touched := fun k n hn => follow_or_own hn
  gives := by
    intro k n hn
    cases k with
    | deallocate op value item head => cases hn; exact List.mem_singleton_self _
    | _ => cases hn
  step := fun s a s' X H hstep hfits => Fits.memberStep hfits hstep
  outside := fun s a s' hstep => outside_of_memberStep hstep
  word_setWords := fun s words => rfl
  pc_setWords := fun s words => rfl
  shared_setWords := fun s words => rfl
  word_resume := by
    intro s t n
    change (client movedFrom).word (resume s t n) = _
    unfold resume
    split <;> rfl
  shared_resume := by
    intro s t n
    change pointers.shared (resume s t n) = _
    unfold resume
    split <;> rfl
  resume_allocate := by
    intro s t n hrequest
    change (s.pc t).request = .allocate at hrequest
    change ∃ k, (resume s t (some n)).pc = _ ∧ _
    cases hpc : s.pc t with
    | allocate op value =>
        unfold resume
        rw [hpc]
        exact ⟨.initNext op value n, rfl, rfl, rfl⟩
    | _ => rw [hpc] at hrequest; cases hrequest
  resume_deallocate := by
    intro s t n hrequest
    change (s.pc t).request = .deallocate n at hrequest
    change ∃ k, (resume s t none).pc = _ ∧ (∀ m ∈ _, m ∈ (s.pc t).follow) ∧ _
    cases hpc : s.pc t with
    | deallocate op value item m =>
        unfold resume
        rw [hpc]
        exact ⟨.idle, rfl, fun m hm => (nomatch hm), rfl⟩
    | _ => rw [hpc] at hrequest; cases hrequest

/-- A queue that holds nothing but its dummy, over a filled free list, is safe. -/
theorem safe_of_starts {maxSize : UInt64} {s : Pool.State (State Thread P T) Thread P}
    (h : starts movedFrom maxSize s) :
    ∃ X, Pool.Safe (client movedFrom) pointers s X := by
  obtain ⟨heap, filled, pool, dummy, data, hstart, halone, rfl⟩ := h
  obtain ⟨hfilled, hdummy⟩ := (Pool.filled_of_start hstart).allocateAlone halone
  refine ⟨_, Pool.Safe.start hfilled (fun n hn => ?_) (fun t => rfl) (fun t => rfl)⟩
  rcases List.mem_append.mp hn with hn | hn <;> cases List.mem_singleton.mp hn <;>
    exact hdummy

end Queue
end Lockfree
end Cyan

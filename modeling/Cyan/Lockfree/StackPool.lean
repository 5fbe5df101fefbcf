import Cyan.Lockfree.PoolSafety
import Cyan.Lockfree.Stack

/-!
# The stack over its free list

The stack as a client of its pool: the steps of its members are those of
`Stack.step`, but where `Stack.step` hands out and takes back nodes on its own
authority, the thread waits for the free list.  `Stack.lawful` says that the
stack guarantees what a client has to.
-/

namespace Cyan
namespace Lockfree
namespace Stack

open Base

variable {Thread P T : Type*}

namespace Pc

/-- The pool's part in the members of the stack. -/
def request : Pc P T → Pool.Request P
  | .allocate _ _ => .allocate
  | .deallocate _ _ _ n => .deallocate n
  | .discard _ n _ => .deallocate n
  | _ => .none

/-- The node that the next step reads or writes; a node that is given back is
destroyed first. -/
def touched : Pc P T → Option P
  | .initNext _ _ n | .initData _ _ n | .storeNext _ n _ | .casPush _ n => some n
  | .readNext _ _ head | .moveData _ _ _ head | .deallocate _ _ _ head => some head
  | .sweep _ head => head
  | .discard _ n _ => some n
  | _ => none

/-- The pointers whose link the thread will follow or make the head. -/
def follow : Pc P T → List P
  | .storeNext _ _ head => head.toList
  | .readNext _ _ head => [head]
  | .casPop _ _ _ next => next.toList
  | .sweep _ head | .discard _ _ head => head.toList
  | _ => []

/-- The node that belongs to the thread. -/
def owned : Pc P T → List P
  | .initNext _ _ n | .initData _ _ n | .loadForNext _ n | .storeNext _ n _
  | .casPush _ n | .moveData _ _ _ n | .deallocate _ _ _ n | .discard _ n _ => [n]
  | _ => []

end Pc

variable [DecidableEq Thread] [DecidableEq P]

/-- The steps of the members outside the pool. -/
def memberStep (s : State Thread P T) : Action Thread P T → Option (State Thread P T)
  | .allocate _ _ => none
  | .deallocate _ _ => none
  | a => step s a

/-- A thread goes on after its call of the pool: `push` with the node that
`allocate` returned, `try_pop` and `clear` with nothing. -/
def resume (s : State Thread P T) (t : Thread) (n : Option P) : State Thread P T :=
  match s.pc t, n with
  | .allocate op value, some n => s.goto t (.initNext op value n)
  | .deallocate op value item _, none =>
      (s.emit (.retPop op (some item) value)).goto t .idle
  | .discard op _ head, none => s.goto t (.sweep op head)
  | _, _ => s

/-- The stack as a client of its free list. -/
def client : Pool.Client (State Thread P T) (Action Thread P T) (Pc P T) Thread P where
  step := memberStep
  pc := State.pc
  request := Pc.request
  resume := resume
  word s n := (s.heap n).next
  setWords s words := { s with heap := fun n => { s.heap n with next := words n } }
  touched := Pc.touched

/-- The nodes to which the stack refers. -/
def pointers : Pool.Pointers (State Thread P T) (Pc P T) P where
  shared s := s.head.toList
  follow := Pc.follow
  own := Pc.owned

/-- `stack::stack`: the free list is filled, and the stack is empty. -/
def starts (maxSize : UInt64) (s : Pool.State (State Thread P T) Thread P) : Prop :=
  ∃ heap pool, (Freelist.machine maxSize).start pool ∧
    s = ⟨client.setWords (initial heap) pool.next, pool⟩

/-- The stack over its free list, as a machine. -/
def pooled (maxSize : UInt64) :
    Machine (Pool.State (State Thread P T) Thread P)
      (Pool.Action (Action Thread P T) Thread P) :=
  Pool.machine client (starts maxSize) maxSize

/-! ## The laws of a client -/

variable {s s' : State Thread P T} {X H : Set P}

/-- The pointers of a stack, with a closed set around them. -/
abbrev Fits (s : State Thread P T) (X H : Set P) : Prop :=
  Pool.Fits client pointers s X H

theorem Fits.head (h : Fits s X H) {n : P} (hn : s.head = some n) : n ∈ X :=
  h.shared n (Option.mem_toList.mpr hn)

/-- A step that writes no link. -/
theorem Fits.move (h : Fits s X H) {t : Thread} {k : Pc P T}
    (hpc : s'.pc = Function.update s.pc t k) (hword : client.word s' = client.word s)
    (hhead : ∀ n, s'.head = some n → n ∈ X) (hfollow : ∀ n ∈ k.follow, n ∈ X)
    (hown : ∀ n ∈ k.owned, n ∈ H) : ∃ X', X ⊆ X' ∧ Fits s' X' H := by
  refine ⟨X, fun n hn => hn, Pool.Fits.goto h hpc (fun n hn => hn) h.held ?_
    (fun n hn => hhead n (Option.mem_toList.mp hn)) hfollow hown⟩
  rw [hword]
  exact h.closed

/-- A step that writes a link into the set. -/
theorem Fits.write (h : Fits s X H) {t : Thread} {k : Pc P T} {n : P} {node : Node P T}
    (hpc : s'.pc = Function.update s.pc t k)
    (hheap : s'.heap = Function.update s.heap n node) (hhead : s'.head = s.head)
    (hnode : ∀ m, node.next = some m → m ∈ X) (hfollow : ∀ n ∈ k.follow, n ∈ X)
    (hown : ∀ n ∈ k.owned, n ∈ H) : ∃ X', X ⊆ X' ∧ Fits s' X' H := by
  refine ⟨X, fun n hn => hn, Pool.Fits.goto h hpc (fun n hn => hn) h.held ?_
    (fun n hn => ?_) hfollow hown⟩
  · have hword : client.word s' = Function.update (client.word s) n node.next := by
      change (fun m => (s'.heap m).next) = _
      rw [hheap]
      exact Function.comp_update Node.next s.heap n node
    rw [hword]
    exact h.closed.update hnode
  · change n ∈ s'.head.toList at hn
    rw [hhead] at hn
    exact h.shared n hn

/-- `try_pop` has loaded the head. -/
theorem Fits.popFrom (h : Fits s X H) (t : Thread) (op : Nat) (value : T) :
    ∃ X', X ⊆ X' ∧ Fits (popFrom s t op value s.head) X' H := by
  unfold Stack.popFrom
  split
  · exact h.move rfl rfl (fun m hm => h.head hm) (fun m hm => nomatch hm)
      (fun m hm => nomatch hm)
  · rename_i head hhead
    refine h.move rfl rfl (fun m hm => h.head hm) (fun m hm => ?_) (fun m hm => nomatch hm)
    cases List.mem_singleton.mp hm
    exact h.head hhead

theorem Fits.exchangeFailed (h : Fits s X H) {t : Thread}
    (hstep : exchangeFailed s t (s.pc t) = some s') : ∃ X', X ⊆ X' ∧ Fits s' X' H := by
  cases hpc : s.pc t with
  | casPush op n =>
      rw [hpc] at hstep
      cases hstep
      refine h.write (t := t) (k := .casPush op n) ?_ rfl rfl (fun m hm => h.head hm)
        (fun m hm => nomatch hm) (fun m hm => h.ownAt hpc hm)
      rw [← hpc]
      exact (Function.update_eq_self ..).symm
  | casPop op value n next =>
      rw [hpc] at hstep
      cases hstep
      exact h.popFrom t op value
  | casClear op head =>
      rw [hpc] at hstep
      cases hstep
      exact h.move rfl rfl (fun m hm => h.head hm) (fun m hm => nomatch hm)
        (fun m hm => nomatch hm)
  | _ => rw [hpc] at hstep; cases hstep

theorem Fits.stepPush (h : Fits s X H) {t : Thread}
    (hstep : stepPush s t (s.pc t) = some s') : ∃ X', X ⊆ X' ∧ Fits s' X' H := by
  cases hpc : s.pc t with
  | initNext op value n =>
      rw [hpc] at hstep
      cases hstep
      exact h.write rfl rfl rfl (fun m hm => nomatch hm) (fun m hm => nomatch hm)
        (fun m hm => h.ownAt hpc hm)
  | initData op value n =>
      rw [hpc] at hstep
      cases hstep
      refine h.move rfl ?_ (fun m hm => h.head hm) (fun m hm => nomatch hm)
        (fun m hm => h.ownAt hpc hm)
      exact (Function.comp_update Node.next s.heap n _).trans (Function.update_eq_self ..)
  | loadForNext op n =>
      rw [hpc] at hstep
      cases hstep
      exact h.move rfl rfl (fun m hm => h.head hm)
        (fun m hm => h.head (Option.mem_toList.mp hm)) (fun m hm => h.ownAt hpc hm)
  | storeNext op n head =>
      rw [hpc] at hstep
      cases hstep
      exact h.write rfl rfl rfl (fun m hm => h.followAt hpc (Option.mem_toList.mpr hm))
        (fun m hm => nomatch hm) (fun m hm => h.ownAt hpc hm)
  | casPush op n =>
      simp only [hpc, Stack.stepPush] at hstep
      split at hstep
      · -- the new head links to the old one, so it may join the set
        rename_i hfound
        cases hstep
        have hn : n ∈ H := h.ownAt hpc (List.mem_singleton_self n)
        refine ⟨insert n X, Set.subset_insert n X, Pool.Fits.goto h rfl
          (Set.subset_insert n X) ?_ (h.closed.insert fun m hm => h.head (hfound.trans hm))
          ?_ (fun m hm => nomatch hm) (fun m hm => nomatch hm)⟩
        · rintro m (rfl | hm)
          · exact hn
          · exact h.held m hm
        · intro m hm
          cases List.mem_singleton.mp hm
          exact Set.mem_insert n X
      · rw [← hpc] at hstep
        exact h.exchangeFailed hstep
  | _ => rw [hpc] at hstep; cases hstep

theorem Fits.stepPop (h : Fits s X H) {t : Thread}
    (hstep : stepPop s t (s.pc t) = some s') : ∃ X', X ⊆ X' ∧ Fits s' X' H := by
  cases hpc : s.pc t with
  | loadHead op value =>
      rw [hpc] at hstep
      cases hstep
      exact h.popFrom t op value
  | readNext op value n =>
      rw [hpc] at hstep
      cases hstep
      have hn : n ∈ X := h.followAt hpc (List.mem_singleton_self n)
      exact h.move rfl rfl (fun m hm => h.head hm)
        (fun m hm => h.closed n hn m (Option.mem_toList.mp hm)) (fun m hm => nomatch hm)
  | casPop op value n next =>
      simp only [hpc, Stack.stepPop] at hstep
      split at hstep
      · rename_i hfound
        cases hstep
        refine h.move rfl rfl (fun m hm => h.followAt hpc (Option.mem_toList.mpr hm))
          (fun m hm => nomatch hm) (fun m hm => ?_)
        cases List.mem_singleton.mp hm
        exact h.held n (h.head hfound)
      · rw [← hpc] at hstep
        exact h.exchangeFailed hstep
  | moveData op value item n =>
      rw [hpc] at hstep
      cases hstep
      exact h.move rfl rfl (fun m hm => h.head hm) (fun m hm => nomatch hm)
        (fun m hm => h.ownAt hpc hm)
  | _ => rw [hpc] at hstep; cases hstep

theorem Fits.stepClear (h : Fits s X H) {t : Thread}
    (hstep : stepClear s t (s.pc t) = some s') : ∃ X', X ⊆ X' ∧ Fits s' X' H := by
  cases hpc : s.pc t with
  | loadAll op =>
      rw [hpc] at hstep
      cases hstep
      exact h.move rfl rfl (fun m hm => h.head hm) (fun m hm => nomatch hm)
        (fun m hm => nomatch hm)
  | casClear op head =>
      simp only [hpc, Stack.stepClear] at hstep
      split at hstep
      · rename_i hfound
        cases hstep
        exact h.move rfl rfl (fun m hm => nomatch hm)
          (fun m hm => h.head (hfound.trans (Option.mem_toList.mp hm)))
          (fun m hm => nomatch hm)
      · rw [← hpc] at hstep
        exact h.exchangeFailed hstep
  | sweep op head =>
      cases head with
      | none =>
          rw [hpc] at hstep
          cases hstep
          exact h.move rfl rfl (fun m hm => h.head hm) (fun m hm => nomatch hm)
            (fun m hm => nomatch hm)
      | some n =>
          rw [hpc] at hstep
          cases hstep
          have hn : n ∈ X := h.followAt hpc (List.mem_singleton_self n)
          refine h.move rfl rfl (fun m hm => h.head hm)
            (fun m hm => h.closed n hn m (Option.mem_toList.mp hm)) (fun m hm => ?_)
          cases List.mem_singleton.mp hm
          exact h.held n hn
  | _ => rw [hpc] at hstep; cases hstep

/-- A call of a member starts. -/
theorem Fits.begin (h : Fits s X H) {t : Thread} {k : Pc P T} {e : Event P T}
    (hfollow : k.follow = []) (hown : k.owned = []) :
    ∃ X', X ⊆ X' ∧ Fits ((s.goto t k).emit e) X' H := by
  refine h.move rfl rfl (fun m hm => h.head hm) (fun m hm => ?_) (fun m hm => ?_)
  · rw [hfollow] at hm
    cases hm
  · rw [hown] at hm
    cases hm

theorem Fits.beginPush (h : Fits s X H) {t : Thread} {value : T}
    (hstep : beginPush s t value = some s') : ∃ X', X ⊆ X' ∧ Fits s' X' H := by
  unfold Stack.beginPush at hstep
  split at hstep <;> cases hstep
  exact h.begin rfl rfl

/-- Whatever a member does outside the pool, the pointers keep inside a closed
set of nodes that were there before. -/
theorem Fits.memberStep (h : Fits s X H) {a : Action Thread P T}
    (hstep : memberStep s a = some s') : ∃ X', X ⊆ X' ∧ Fits s' X' H := by
  cases a with
  | push t value => exact h.beginPush hstep
  | emplace t value => exact h.beginPush hstep
  | tryPop t value =>
      change tryPop s t value = some s' at hstep
      unfold Stack.tryPop at hstep
      split at hstep <;> cases hstep
      exact h.begin rfl rfl
  | clear t =>
      change clear s t = some s' at hstep
      unfold Stack.clear at hstep
      split at hstep <;> cases hstep
      exact h.begin rfl rfl
  | run t =>
      simp only [Stack.memberStep, step, Option.orElse_eq_orElse, Option.orElse_eq_or,
        Option.or_eq_some_iff] at hstep
      rcases hstep with hrun | ⟨-, hrun | ⟨-, hrun⟩⟩
      · exact h.stepPush hrun
      · exact h.stepPop hrun
      · exact h.stepClear hrun
  | spurious t => exact h.exchangeFailed hstep
  | allocate t n => cases hstep
  | deallocate t word => cases hstep

/-- A step of thread `t` outside the pool. -/
abbrev Outside (s s' : State Thread P T) (t : Thread) : Prop :=
  Pool.Outside client s s' t

theorem outside_of_goto {t : Thread} {k k' : Pc P T} (hpc : s.pc t = k)
    (hrequest : k.request = .none) (hmove : s'.pc = Function.update s.pc t k') :
    Outside s s' t :=
  Pool.Outside.of_goto client hpc hrequest hmove

theorem outside_of_popFrom {t : Thread} {op : Nat} {value : T} {k : Pc P T}
    (head : Option P) (hpc : s.pc t = k) (hrequest : k.request = .none) :
    Outside s (popFrom s t op value head) t := by
  cases head with
  | none => exact outside_of_goto hpc hrequest rfl
  | some h => exact outside_of_goto hpc hrequest rfl

theorem outside_of_exchangeFailed {t : Thread}
    (hstep : exchangeFailed s t (s.pc t) = some s') : Outside s s' t := by
  cases hpc : s.pc t with
  | casPush op n =>
      rw [hpc] at hstep
      cases hstep
      exact outside_of_goto hpc rfl (Function.update_eq_self ..).symm
  | casPop op value n next =>
      rw [hpc] at hstep
      cases hstep
      exact outside_of_popFrom s.head hpc rfl
  | casClear op head =>
      rw [hpc] at hstep
      cases hstep
      exact outside_of_goto hpc rfl rfl
  | _ => rw [hpc] at hstep; cases hstep

theorem outside_of_stepPush {t : Thread}
    (hstep : stepPush s t (s.pc t) = some s') : Outside s s' t := by
  cases hpc : s.pc t with
  | casPush op n =>
      simp only [hpc, stepPush] at hstep
      split at hstep
      · cases hstep
        exact outside_of_goto hpc rfl rfl
      · rw [← hpc] at hstep
        exact outside_of_exchangeFailed hstep
  | _ => rw [hpc] at hstep; cases hstep <;> exact outside_of_goto hpc rfl rfl

theorem outside_of_stepPop {t : Thread}
    (hstep : stepPop s t (s.pc t) = some s') : Outside s s' t := by
  cases hpc : s.pc t with
  | loadHead op value =>
      rw [hpc] at hstep
      cases hstep
      exact outside_of_popFrom s.head hpc rfl
  | casPop op value n next =>
      simp only [hpc, stepPop] at hstep
      split at hstep
      · cases hstep
        exact outside_of_goto hpc rfl rfl
      · rw [← hpc] at hstep
        exact outside_of_exchangeFailed hstep
  | _ => rw [hpc] at hstep; cases hstep <;> exact outside_of_goto hpc rfl rfl

theorem outside_of_stepClear {t : Thread}
    (hstep : stepClear s t (s.pc t) = some s') : Outside s s' t := by
  cases hpc : s.pc t with
  | casClear op head =>
      simp only [hpc, stepClear] at hstep
      split at hstep
      · cases hstep
        exact outside_of_goto hpc rfl rfl
      · rw [← hpc] at hstep
        exact outside_of_exchangeFailed hstep
  | sweep op head =>
      rw [hpc] at hstep
      cases head with
      | none => cases hstep; exact outside_of_goto hpc rfl rfl
      | some n => cases hstep; exact outside_of_goto hpc rfl rfl
  | _ => rw [hpc] at hstep; cases hstep <;> exact outside_of_goto hpc rfl rfl

/-- A step of a member is a step of one thread that does not wait for the
pool. -/
theorem outside_of_memberStep {a : Action Thread P T} (hstep : memberStep s a = some s') :
    ∃ t, Outside s s' t := by
  have hbegin : ∀ t k e, s.pc t = .idle → Outside s ((s.goto t k).emit e) t :=
    fun t k e hpc => outside_of_goto hpc rfl rfl
  cases a with
  | push t value =>
      simp only [memberStep, step, push, beginPush] at hstep
      split at hstep <;> cases hstep
      exact ⟨t, hbegin t _ _ ‹_›⟩
  | emplace t value =>
      simp only [memberStep, step, emplace, beginPush] at hstep
      split at hstep <;> cases hstep
      exact ⟨t, hbegin t _ _ ‹_›⟩
  | tryPop t value =>
      simp only [memberStep, step, tryPop] at hstep
      split at hstep <;> cases hstep
      exact ⟨t, hbegin t _ _ ‹_›⟩
  | clear t =>
      simp only [memberStep, step, clear] at hstep
      split at hstep <;> cases hstep
      exact ⟨t, hbegin t _ _ ‹_›⟩
  | run t =>
      simp only [memberStep, step, Option.orElse_eq_orElse, Option.orElse_eq_or,
        Option.or_eq_some_iff] at hstep
      rcases hstep with hrun | ⟨-, hrun | ⟨-, hrun⟩⟩
      · exact ⟨t, outside_of_stepPush hrun⟩
      · exact ⟨t, outside_of_stepPop hrun⟩
      · exact ⟨t, outside_of_stepClear hrun⟩
  | spurious t => exact ⟨t, outside_of_exchangeFailed hstep⟩
  | allocate t n => cases hstep
  | deallocate t word => cases hstep

omit [DecidableEq P] in
/-- Whatever a thread touches, it follows or owns. -/
theorem follow_or_own {k : Pc P T} {n : P} (hn : k.touched = some n) :
    n ∈ k.follow ∨ n ∈ k.owned := by
  cases k with
  | sweep op head => exact Or.inl (Option.mem_toList.mpr hn)
  | readNext op value head => cases hn; exact Or.inl (List.mem_singleton_self _)
  | initNext op value m => cases hn; exact Or.inr (List.mem_singleton_self _)
  | initData op value m => cases hn; exact Or.inr (List.mem_singleton_self _)
  | storeNext op m head => cases hn; exact Or.inr (List.mem_singleton_self _)
  | casPush op m => cases hn; exact Or.inr (List.mem_singleton_self _)
  | moveData op value item head => cases hn; exact Or.inr (List.mem_singleton_self _)
  | deallocate op value item head => cases hn; exact Or.inr (List.mem_singleton_self _)
  | discard op m head => cases hn; exact Or.inr (List.mem_singleton_self _)
  | _ => cases hn

/-- The stack guarantees what a client of the free list has to. -/
theorem lawful :
    Pool.Lawful (client : Pool.Client (State Thread P T) _ _ Thread P) pointers where
  touched := fun k n hn => follow_or_own hn
  gives := by
    intro k n hn
    cases k with
    | deallocate op value item head => cases hn; exact List.mem_singleton_self _
    | discard op m head => cases hn; exact List.mem_singleton_self _
    | _ => cases hn
  step := fun s a s' X H hstep hfits => Fits.memberStep hfits hstep
  outside := fun s a s' hstep => outside_of_memberStep hstep
  word_setWords := fun s words => rfl
  pc_setWords := fun s words => rfl
  shared_setWords := fun s words => rfl
  word_resume := by
    intro s t n
    change client.word (resume s t n) = _
    unfold resume
    split <;> rfl
  shared_resume := by
    intro s t n
    change pointers.shared (resume s t n) = _
    unfold resume
    split <;> rfl
  resume_allocate := by
    intro s t n hrequest
    change (s.pc t).request = .allocate at hrequest
    change ∃ k, (resume s t (some n)).pc = _ ∧ _
    cases hpc : s.pc t with
    | allocate op value =>
        unfold resume
        rw [hpc]
        exact ⟨.initNext op value n, rfl, rfl, rfl⟩
    | _ => rw [hpc] at hrequest; cases hrequest
  resume_deallocate := by
    intro s t n hrequest
    change (s.pc t).request = .deallocate n at hrequest
    change ∃ k, (resume s t none).pc = _ ∧ (∀ m ∈ _, m ∈ (s.pc t).follow) ∧ _
    cases hpc : s.pc t with
    | deallocate op value item m =>
        unfold resume
        rw [hpc]
        exact ⟨.idle, rfl, fun m hm => (nomatch hm), rfl⟩
    | discard op m head =>
        unfold resume
        rw [hpc]
        exact ⟨.sweep op head, rfl, fun m hm => hm, rfl⟩
    | _ => rw [hpc] at hrequest; cases hrequest

/-- An empty stack over a filled free list is safe. -/
theorem safe_of_starts {maxSize : UInt64} {s : Pool.State (State Thread P T) Thread P}
    (h : starts maxSize s) : ∃ X, Pool.Safe client pointers s X := by
  obtain ⟨heap, pool, hpool, rfl⟩ := h
  exact ⟨_, Pool.Safe.start (Pool.filled_of_start hpool) (fun n hn => nomatch hn)
    (fun t => rfl) (fun t => rfl)⟩

end Stack
end Lockfree
end Cyan

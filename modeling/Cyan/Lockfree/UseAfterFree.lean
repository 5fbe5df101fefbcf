import Cyan.Lockfree.QueuePool
import Cyan.Lockfree.StackPool

/-!
# Nodes that go back to the system

`freelist::deallocate` gives a node back to the system when the list is full.
The retry loops of `allocate`, `try_pop`, `try_dequeue` and `enqueue` read
`next` of nodes that they do not own, so this is safe only for a node that
nobody can get to any more.

* `no_use_after_free`: in every run in which a node goes back to the system only
  when no other thread has a claim on it and nobody can get to it
  (`Pool.FreesGarbage`), every node that is touched is mapped.
* `no_use_after_free_run`: such a run, in which a node does go back.
* `used_after_free`: a run with the list of a thousand nodes that every stack
  has, in which `try_pop` is about to read `head->next` of a node that is gone.
-/

namespace Cyan
namespace Lockfree

open Base

section

variable {Thread P T : Type*} [DecidableEq Thread] [DecidableEq P]

/-- While only garbage goes back to the system, the stack and the queue touch no
node that has gone back. -/
theorem no_use_after_free (movedFrom : T → T) (maxSize : UInt64) :
    (∀ s : Pool.State (Stack.State Thread P T) Thread P,
      (Stack.pooled maxSize).ReachableUnder
        (Pool.FreesGarbage Stack.client Stack.pointers) s →
      Pool.TouchesMapped Stack.client s) ∧
    ∀ s : Pool.State (Queue.State Thread P T) Thread P,
      (Queue.pooled movedFrom maxSize).ReachableUnder
        (Pool.FreesGarbage (Queue.client movedFrom) Queue.pointers) s →
      Pool.TouchesMapped (Queue.client movedFrom) s := by
  constructor
  · intro s hreach
    exact Pool.touches_mapped Stack.lawful (fun _ hs => Stack.safe_of_starts hs) hreach
  · intro s hreach
    exact Pool.touches_mapped (Queue.lawful movedFrom)
      (fun _ hs => Queue.safe_of_starts hs) hreach

end

namespace Pool

variable {Thread P K σ α : Type*}

/-- Whether the step gives a node back to the system. -/
def frees (s : State σ Thread P) : Action α Thread P → Bool
  | .run t =>
      match s.pool.pc t with
      | .systemDeallocate _ => true
      | _ => false
  | _ => false

/-- A step that gives nothing back meets the condition. -/
theorem freesGarbage_of_frees (C : Client σ α K Thread P) (G : Pointers σ K P)
    {s : State σ Thread P} {a : Action α Thread P} (h : frees s a = false) :
    FreesGarbage C G s a := by
  unfold FreesGarbage
  split
  · intro n hpc
    rw [frees, hpc] at h
    cases h
  · trivial

end Pool

namespace Freelist

/-- The free list after its constructor has filled it with the nodes below
`k`, each of them in front of the one before. -/
def filledUpTo (k : ℕ) : State (Fin 3) ℕ where
  head := if k = 0 then none else some (k - 1)
  next n := if 0 < n ∧ n < k then some (n - 1) else none
  size := UInt64.ofNat k
  mapped n := n < k
  pc _ := .idle
  trace := []

/-- One more round of the constructor's loop. -/
theorem prefill_filledUpTo (k : ℕ) :
    prefill (filledUpTo k) k = filledUpTo (k + 1) := by
  unfold prefill filledUpTo
  congr 1
  · funext n
    rw [Function.update_apply]
    grind
  · exact (UInt64.ofNat_add k 1).symm
  · funext n
    rw [Function.update_apply]
    grind

theorem foldl_prefill_range (k : ℕ) :
    (List.range k).foldl prefill (empty fun _ => none) =
      filledUpTo k := by
  induction k with
  | zero =>
      unfold filledUpTo
      simp [empty]
  | succ k ih =>
      rw [List.range_succ, List.foldl_append, ih]
      exact prefill_filledUpTo k

end Freelist

namespace Stack

/-- Three threads use a stack of numbers over its free list. -/
abbrev PooledState := Pool.State (State (Fin 3) ℕ ℕ) (Fin 3) ℕ

/-- `n` steps of thread `t` in the members of the stack. -/
def members (t : Fin 3) (n : Nat) : List (Pool.Action (Action (Fin 3) ℕ ℕ) (Fin 3) ℕ) :=
  List.replicate n (.client (.run t))

/-- The call of the pool for which thread `t` waits, with `n` steps. -/
def poolCall (t : Fin 3) (n : Nat) : List (Pool.Action (Action (Fin 3) ℕ ℕ) (Fin 3) ℕ) :=
  .call t :: List.replicate n (.run t)

/-- `emplace` up to its return, when the pool has a node and nobody interferes. -/
def emplaceAlone (t : Fin 3) (value : ℕ) :
    List (Pool.Action (Action (Fin 3) ℕ ℕ) (Fin 3) ℕ) :=
  .client (.emplace t value) :: poolCall t 4 ++ members t 5

/-- `emplace` up to its return, with a node of the system. -/
def emplaceFresh (t : Fin 3) (value n : ℕ) :
    List (Pool.Action (Action (Fin 3) ℕ ℕ) (Fin 3) ℕ) :=
  .client (.emplace t value) :: poolCall t 1 ++ .system t n :: members t 5

/-- `try_pop` up to the call of `deallocate`, when the stack has a node. -/
def popAlone (t : Fin 3) : List (Pool.Action (Action (Fin 3) ℕ ℕ) (Fin 3) ℕ) :=
  .client (.tryPop t 0) :: members t 4

/-- An empty stack over a free list in state `pool`. -/
def newStack (pool : Freelist.State (Fin 3) ℕ) : PooledState :=
  ⟨client.setWords (initial fun _ => ⟨none, 0, 0⟩) pool.next, pool⟩

theorem start_newStack {k : ℕ} {maxSize : UInt64} (hk : k = maxSize.toNat) :
    (pooled maxSize).start (newStack (Freelist.filledUpTo k)) :=
  ⟨_, Freelist.filledUpTo k, ⟨fun _ => none, List.range k, List.nodup_range,
    List.length_range.trans hk, (Freelist.foldl_prefill_range k).symm⟩, rfl⟩

/-- A list of one node.  Thread `1` pushes a second node and thread `0` gives it
back first, so that the first node meets a full list. -/
def overflowing : List (Pool.Action (Action (Fin 3) ℕ ℕ) (Fin 3) ℕ) :=
  emplaceAlone 0 7 ++ emplaceFresh 1 8 1 ++ popAlone 0 ++ poolCall 0 5 ++ popAlone 1 ++
    poolCall 1 1

/-- A node is garbage when the stack is empty, the free list holds one other
node, and no thread refers to anything but the one that gives the node back. -/
theorem freesGarbage_of_empty {s : PooledState} {t : Fin 3} {n m : ℕ}
    (hat : s.pool.pc t = .systemDeallocate n) (hhead : s.client.head = none)
    (hpool : s.pool.head = some m) (hlink : client.word s.client m = none)
    (hfollow : ∀ u, (s.client.pc u).follow = [] ∧ (s.pool.pc u).follow = [])
    (hown : ∀ u, u ≠ t → (s.client.pc u).owned = [] ∧ (s.pool.pc u).own = [])
    (hne : n ≠ m) : Pool.FreesGarbage client pointers s (.run t) := by
  intro n' hpc
  rw [hat] at hpc
  cases hpc
  have hsubset : Pool.reached client pointers s ⊆ {m} := by
    refine Reached.subset_of_closed ?_ ?_
    · rintro q rfl p hp
      rw [hlink] at hp
      cases hp
    · rintro q (hq | hq | ⟨u, hq | hq⟩)
      · change q ∈ s.client.head.toList at hq
        rw [hhead] at hq
        cases hq
      · rw [hpool] at hq
        exact (Option.some.inj hq).symm
      · change q ∈ (s.client.pc u).follow at hq
        rw [(hfollow u).1] at hq
        cases hq
      · rw [(hfollow u).2] at hq
        cases hq
  refine ⟨fun hreached => hne (hsubset hreached), ?_⟩
  rintro u hu (hq | hq)
  · change n ∈ (s.client.pc u).owned at hq
    rw [(hown u hu).1] at hq
    cases hq
  · rw [(hown u hu).2] at hq
    cases hq

/-- The first node goes back to the system while nobody can get to it; after
that thread `0` is about to read the link of the second one. -/
theorem reachable_overflowing : ∃ s : PooledState,
    (pooled 1).ReachableUnder (Pool.FreesGarbage client pointers) s ∧
    s.pool.mapped 0 = false ∧ Pool.touched client s 0 = some 1 := by
  obtain ⟨s₁, s₂, s, hfull, hfree, hrest, hat, hhead, hpool, hlink, hfollow, hown, hzero,
      hreads⟩ :
      ∃ s₁ s₂ s : PooledState,
        (pooled 1).execUnder (Pool.frees · · = false) (newStack (Freelist.filledUpTo 1))
          overflowing = some s₁ ∧
        (pooled 1).step s₁ (.run 1) = some s₂ ∧
        (pooled 1).execUnder (Pool.frees · · = false) s₂
          (.client (.emplace 0 9) :: poolCall 0 1) = some s ∧
        s₁.pool.pc 1 = .systemDeallocate 0 ∧ s₁.client.head = none ∧
        s₁.pool.head = some 1 ∧ client.word s₁.client 1 = none ∧
        (∀ t, (s₁.client.pc t).follow = [] ∧ (s₁.pool.pc t).follow = []) ∧
        (∀ t, t ≠ 1 → (s₁.client.pc t).owned = [] ∧ (s₁.pool.pc t).own = []) ∧
        s.pool.mapped 0 = false ∧ s.pool.pc 0 = .readNext (some 1) := by
    refine ⟨_, _, _, rfl, rfl, rfl, ?_⟩
    exact ⟨rfl, rfl, rfl, rfl, by decide, by decide, rfl, rfl⟩
  have hgarbage : Pool.FreesGarbage client pointers s₁ (.run 1) :=
    freesGarbage_of_empty hat hhead hpool hlink hfollow hown (by decide)
  have hcheck : ∀ (s : PooledState) a, Pool.frees s a = false →
      Pool.FreesGarbage client pointers s a :=
    fun _ _ h => Pool.freesGarbage_of_frees client pointers h
  have hbefore : (pooled 1).ReachableUnder (Pool.FreesGarbage client pointers) s₁ :=
    .execUnder hcheck (.start (start_newStack rfl)) hfull
  have hreach : (pooled 1).ReachableUnder (Pool.FreesGarbage client pointers) s :=
    .execUnder hcheck (.step hbefore hgarbage hfree) hrest
  have htouched : Pool.touched client s 0 = some 1 := by
    unfold Pool.touched
    rw [hreads]
    rfl
  exact ⟨s, hreach, hzero, htouched⟩

end Stack

namespace Queue

/-- A list of one node, which becomes the dummy of the queue.  Thread `0`
enqueues a node of the system and dequeues it, and gives back the dummy. -/
def exchanging : List (Pool.Action (Action (Fin 3) ℕ ℕ) (Fin 3) ℕ) :=
  .client (.enqueue 0 5) :: .call 0 :: .run 0 :: .system 0 1 ::
    List.replicate 8 (.client (.run 0)) ++
    .client (.tryDequeue 0 0) :: List.replicate 6 (.client (.run 0)) ++ [.call 0, .run 0, .run 0]

/-- A queue over a free list of `k` nodes, of which its dummy was the first. -/
def newQueue (k dummy : ℕ) : Pool.State (State (Fin 3) ℕ ℕ) (Fin 3) ℕ :=
  let filled := Freelist.filledUpTo k
  let pool := { filled with
    head := filled.next dummy, size := filled.size - 1, trace := [.allocated dummy] }
  ⟨(client id).setWords (initial (fun _ => ⟨⟨none, 0⟩, 0, 0⟩) dummy 0)
    (Function.update pool.next dummy none), pool⟩

/-- The dummy goes back to the free list, and thread `0` is about to write its
link. -/
theorem reachable_exchanging : ∃ s : Pool.State (State (Fin 3) ℕ ℕ) (Fin 3) ℕ,
    (pooled id 1).ReachableUnder (Pool.FreesGarbage (client id) pointers) s ∧
    Pool.touched (client id) s 0 = some 0 := by
  obtain ⟨s, hrun, hpc⟩ : ∃ s : Pool.State (State (Fin 3) ℕ ℕ) (Fin 3) ℕ,
      (pooled id 1).execUnder (Pool.frees · · = false) (newQueue 1 0) exchanging = some s ∧
      s.pool.pc 0 = .storeNext 0 none := by
    refine ⟨_, rfl, ?_⟩
    rfl
  have hstart : (pooled id 1).start (newQueue 1 0) :=
    ⟨_, Freelist.filledUpTo 1, _, 0, 0, ⟨fun _ => none, List.range 1, List.nodup_range,
      rfl, (Freelist.foldl_prefill_range 1).symm⟩, rfl, rfl⟩
  refine ⟨s, .execUnder (fun _ _ h => Pool.freesGarbage_of_frees _ pointers h)
    (.start hstart) hrun, ?_⟩
  unfold Pool.touched
  rw [hpc]
  rfl

end Queue

/-- A run of the stack in which a node goes back to the system, and one of the
queue in which a node goes back to the free list. -/
theorem no_use_after_free_run :
    (∃ s : Stack.PooledState,
      (Stack.pooled 1).ReachableUnder (Pool.FreesGarbage Stack.client Stack.pointers) s ∧
      s.pool.mapped 0 = false ∧ Pool.touched Stack.client s 0 = some 1 ∧
      s.pool.mapped 1 = true) ∧
    ∃ s : Pool.State (Queue.State (Fin 3) ℕ ℕ) (Fin 3) ℕ,
      (Queue.pooled id 1).ReachableUnder
        (Pool.FreesGarbage (Queue.client id) Queue.pointers) s ∧
      Pool.touched (Queue.client id) s 0 = some 0 ∧ s.pool.mapped 0 = true := by
  constructor
  · obtain ⟨s, hreach, hzero, htouched⟩ := Stack.reachable_overflowing
    exact ⟨s, hreach, hzero, htouched, (no_use_after_free id 1).1 s hreach 0 1 htouched⟩
  · obtain ⟨s, hreach, htouched⟩ := Queue.reachable_exchanging
    exact ⟨s, hreach, htouched, (no_use_after_free id 1).2 s hreach 0 0 htouched⟩

namespace Stack

/-! ## The failing run -/

/-- Thread `0` reads head `999` of the free list and stalls.  Thread `1` takes
that node, and while its `next` is null, thread `0` reads it.  Thread `1` pushes,
pops and gives back the node, so that the stalled exchange finds its head again
and leaves the free list empty.  Thread `1` pushes node `1000` of the system,
thread `0` pushes node `999`, and thread `1` pops it: the list has a thousand
nodes by its count.  Thread `2` loads the head, node `1000`, for `try_pop`, and
thread `1` pops the node and gives it back to the system. -/
def unmapping : List (Pool.Action (Action (Fin 3) ℕ ℕ) (Fin 3) ℕ) :=
  .client (.emplace 0 7) :: poolCall 0 1 ++ .client (.emplace 1 8) :: poolCall 1 4 ++
    members 1 1 ++ .run 0 :: members 1 4 ++ popAlone 1 ++ poolCall 1 5 ++
    .run 0 :: .run 0 :: emplaceFresh 1 9 1000 ++ members 0 5 ++ popAlone 1 ++
    poolCall 1 5 ++ .client (.tryPop 2 0) :: members 2 1 ++ popAlone 1 ++ poolCall 1 2

/-- `try_pop` is about to read `head->next` of a node that has gone back to the
system. -/
theorem used_after_free : ∃ s : PooledState, (pooled 1000).Reachable s ∧
    (∃ op value, s.client.pc 2 = .readNext op value 1000) ∧
    s.pool.mapped 1000 = false ∧ ¬ Pool.TouchesMapped client s := by
  obtain ⟨s, hrun, hpc, hfree, hidle⟩ : ∃ s : PooledState,
      (pooled 1000).exec (newStack (Freelist.filledUpTo 1000)) unmapping = some s ∧
      s.client.pc 2 = .readNext 15 0 1000 ∧ s.pool.mapped 1000 = false ∧
      s.pool.pc 2 = .idle := by
    refine ⟨_, rfl, ?_⟩
    exact ⟨rfl, rfl, rfl⟩
  refine ⟨s, .of_exec (start_newStack rfl) hrun, ⟨15, 0, hpc⟩, hfree, fun hall => ?_⟩
  have htouched : Pool.touched client s 2 = some 1000 := by
    unfold Pool.touched
    rw [hidle]
    exact congrArg Pc.touched hpc
  rw [hall 2 1000 htouched] at hfree
  cases hfree

end Stack
end Lockfree
end Cyan

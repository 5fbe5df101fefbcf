import Cyan.Lockfree.QueueAlone

/-!
# What the queue does in one thread

The nodes are a chain from `head_` to `tail_`; the element of the first one, the dummy, is
not in the queue.  `Holds` is what is known between two operations.  The tail may lag behind
the end of the chain by some nodes, as it does when another thread has stopped in `enqueue`;
one thread alone never leaves it behind.  The pool has also handed out the nodes that were lost
when an element threw.

Every operation ends.  What it leaves behind when the element throws stands in the
specifications as well.
-/

namespace Cyan
namespace Lockfree
namespace Alone
namespace Queue

open Base Freelist

variable {P T : Type} [DecidableEq P]

/-! ## The chain of the nodes -/

/-- The chain from `head_` with the node that `tail_` refers to. -/
structure Linked (s : State P T) (before : List P) (last : P) (after : List P) : Prop where
  chain : Path s.words s.members.head.ptr (before ++ last :: after) none
  tail : s.members.tail.ptr = some last

/-- The elements of a chain: the first node is the dummy. -/
def elements (s : State P T) (nodes : List P) : List T :=
  nodes.tail.map fun n => (s.heap n).data

/-- The elements in the queue. -/
def Contains (s : State P T) (items : List T) : Prop :=
  ∃ dummy nodes, Path s.words s.members.head.ptr (dummy :: nodes) none ∧
    elements s (dummy :: nodes) = items

/-- A queue with these elements that has lost some nodes, and whose tail lags behind by at most
`lag` nodes. -/
def Holds (maxSize : UInt64) (lag : Nat) (lost : List P) (s : State P T) (items : List T) :
    Prop :=
  ∃ before last after free, Linked s before last after ∧ after.length ≤ lag ∧
    Pool maxSize s free (before ++ last :: after ++ lost) ∧
    elements s (before ++ last :: after) = items

omit [DecidableEq P] in
/-- A queue contains one list of elements. -/
theorem Contains.unique {s : State P T} {items items' : List T} (h : Contains s items)
    (h' : Contains s items') : items = items' := by
  obtain ⟨dummy, nodes, hpath, rfl⟩ := h
  obtain ⟨dummy', nodes', hpath', rfl⟩ := h'
  rw [hpath.unique hpath']

theorem Holds.contains {maxSize : UInt64} {lag : Nat} {lost : List P} {s : State P T}
    {items : List T} (h : Holds maxSize lag lost s items) : Contains s items := by
  obtain ⟨before, last, after, free, hlinked, -, -, hitems⟩ := h
  cases before with
  | nil => exact ⟨last, after, hlinked.chain, hitems⟩
  | cons first before => exact ⟨first, before ++ last :: after, hlinked.chain, hitems⟩

section Chain

variable {s s' : State P T} {before after : List P} {last : P}

section

omit [DecidableEq P]

/-- The nodes in front of the one that `tail_` refers to, and those behind it. -/
theorem Linked.split (h : Linked s before last after) :
    Path s.words s.members.head.ptr before (some last) ∧
      Path s.words (s.words last) after none := by
  obtain ⟨r, hbefore, rfl, hafter⟩ := Path.append_iff.mp h.chain
  exact ⟨hbefore, hafter⟩

/-- A chain does not change with its members and its nodes. -/
theorem Linked.congr (h : Linked s before last after) (hmembers : s'.members = s.members)
    (hheap : ∀ n ∈ before ++ last :: after, s'.words n = s.words n) :
    Linked s' before last after := by
  refine ⟨?_, ?_⟩
  · rw [hmembers]
    exact h.chain.congr fun n hn => (hheap n hn).symm
  · rw [hmembers]
    exact h.tail

theorem elements_congr {nodes : List P}
    (hheap : ∀ n ∈ nodes, (s'.heap n).data = (s.heap n).data) :
    elements s' nodes = elements s nodes := by
  unfold elements
  exact List.map_congr_left fun n hn => hheap n (List.mem_of_mem_tail hn)

end

/-- Writing an element changes no chain. -/
theorem words_setData (n : P) (data : T) (k : Nat) :
    ({ s.setData n data with elements := k } : State P T).words = s.words := by
  show (s.setCell n _).words = _
  rw [Memory.words_setCell]
  exact Function.update_eq_self ..

/-- The first element is written. -/
theorem elements_setData {first second : P} {rest : List P} {data : T} {k : Nat}
    (hsecond : second ∉ rest) :
    elements { s.setData second data with elements := k } (first :: second :: rest) =
      data :: rest.map fun n => (s.heap n).data := by
  refine congrArg₂ _ ?_ (List.map_congr_left fun m hm => ?_)
  · simp [Memory.setData, Memory.setCell]
  · have hne : m ≠ second := ne_of_mem_of_not_mem hm hsecond
    simp [Memory.setData, Memory.setCell, hne]

end Chain

section Specifications

variable (env : Env P T) {maxSize : UInt64} {s : State P T} {before after lost : List P}
variable {last : P}

/-- `enqueue(node* n)` follows the chain to its end, and puts the node there. -/
theorem halts_link {E : Stop → State P T → Prop} {n : P} {free : List P}
    (h : Linked s before last after)
    (hpool : Pool maxSize s free (n :: (before ++ last :: after ++ lost)))
    (hword : s.words n = none) :
    Halts (fun _ s' => Linked s' (before ++ last :: after) n [] ∧
        Pool maxSize s' free (n :: (before ++ last :: after ++ lost)) ∧
        ∀ m, (s'.heap m).data = (s.heap m).data) E
      (fun fuel => link fuel n) s := by
  refine Halts.loop (k := after.length) (I := fun k _ s' => ∃ t before' last' after',
    s' = tail.store t s ∧ Linked s' before' last' after' ∧
    before' ++ last' :: after' = before ++ last :: after ∧ k = after'.length) ?_
    ⟨s.members.tail, before, last, after, rfl, h, rfl, rfl⟩
  rintro k b s' ⟨t, before', last', after', rfl, hlinked, hnodes, rfl⟩
  have htail : t.ptr = some last' := hlinked.tail
  obtain ⟨hbefore, hlast⟩ := hlinked.split
  refine Halts.const_iff.mpr ?_
  rw [Ends.bind_iff, Ends.get_iff]
  show Ends _ _ ((follow t.ptr >>= _) _)
  rw [htail, follow_some, Ends.bind_iff, Ends.pure_iff, Ends.bind_iff, Ends.get_iff,
    Ends.bind_iff, Ends.get_iff, Ends.ite_iff]
  refine ⟨fun _ => ?_, fun hne => absurd rfl hne⟩
  rw [Ends.ite_iff]
  cases after' with
  | nil =>
      -- the tail is at the end: the node is linked, and the tail moves on
      have hnone : s.words last' = none := hlast
      refine ⟨fun _ => ?_, fun hsome => absurd hnone hsome⟩
      rw [Ends.bind_iff, exchangeStrong_iff]
      refine ⟨fun _ => ?_, fun hne => absurd rfl hne⟩
      rw [if_pos rfl, Ends.bind_iff, Ends.get_iff, Ends.bind_iff, exchangeStrong_iff]
      refine ⟨fun _ => ?_, fun hne => absurd rfl hne⟩
      have hmem : last' ∈ before ++ last :: after := by
        rw [← hnodes]
        simp
      have hne : last' ∉ [n] := by
        rw [List.mem_singleton]
        exact ne_of_mem_of_not_mem hmem hpool.not_mem_left
      have hout : last' ∈ n :: (before ++ last :: after ++ lost) :=
        List.mem_cons_of_mem _ (List.mem_append_left _ hmem)
      rw [Ends.pure_iff]
      refine ⟨⟨?_, rfl⟩, (hpool.rest.setCell hout).rest, fun m => ?_⟩
      · rw [← hnodes]
        show Path (Memory.setCell s last' _).words s.members.head.ptr _ none
        rw [Memory.words_setCell]
        exact hlinked.chain.link ⟨rfl, hword⟩ hne
      · show (Function.update s.heap last' _ m).data = _
        by_cases hm : m = last'
        · subst hm
          rw [Function.update_self]
          rfl
        · rw [Function.update_of_ne hm]
  | cons a after' =>
      -- the tail lags: it moves on by one node
      obtain ⟨hsome, hrest⟩ := hlast
      have hsome : s.words last' = some a := hsome
      refine ⟨fun hnone => absurd (hsome.symm.trans hnone) (by simp), fun _ => ?_⟩
      rw [Ends.bind_iff, exchangeStrong_iff]
      refine ⟨fun _ => ?_, fun hne => absurd rfl hne⟩
      refine ⟨after'.length, by simp, ⟨s.words last', t.getNextTag⟩, before' ++ [last'], a, after',
        rfl, ⟨?_, hsome⟩, ?_, rfl⟩
      · rw [List.append_assoc]
        exact hlinked.chain
      · rw [List.append_assoc]
        exact hnodes

/-- The node besides is lost. -/
theorem holds_lost {n : P} {items : List T} {free : List P} (h : Linked s before last after)
    (hpool : Pool maxSize s free (n :: (before ++ last :: after ++ lost)))
    (hitems : elements s (before ++ last :: after) = items) :
    Holds maxSize after.length (n :: lost) s items :=
  ⟨before, last, after, free, h, le_rfl, hpool.perm List.perm_middle.symm, hitems⟩

/-- A new node becomes the end of the chain, or is lost when its element throws. -/
theorem halts_place {Q : Unit → State P T → Prop} {E : Stop → State P T → Prop} {n : P}
    {value : T} {items : List T} {free : List P} (h : Linked s before last after)
    (hpool : Pool maxSize s free (n :: (before ++ last :: after ++ lost)))
    (hitems : elements s (before ++ last :: after) = items)
    (hok : env.throws s.elements = false →
      ∀ s', Holds maxSize 0 lost s' (items ++ [value]) → Q () s')
    (hthrow : env.throws s.elements = true → ∀ s', s'.trace = s.trace →
      Holds maxSize after.length (n :: lost) s' items → E .thrown s') :
    Halts Q E (fun fuel => do newNode env n value; link fuel n) s := by
  refine Halts.step (constructNode_iff env |>.mpr ⟨fun ht => ?_, fun ht => ?_⟩)
  · have hnodes : ∀ m ∈ before ++ last :: after, ((next n).store ⟨none, 0⟩ s).heap m = s.heap m :=
      fun m hm => Function.update_of_ne (ne_of_mem_of_not_mem hm hpool.not_mem_left) ..
    have hlinked : Linked ((next n).store ⟨none, 0⟩ s) before last after :=
      h.congr rfl fun m hm => by rw [Memory.words, Memory.words, hnodes m hm]
    have hitems' : elements ((next n).store ⟨none, 0⟩ s) (before ++ last :: after) = items :=
      (elements_congr fun m hm => by rw [hnodes m hm]).trans hitems
    exact hthrow ht _ rfl (holds_lost ⟨hlinked.chain, hlinked.tail⟩
      (hpool.setCell List.mem_cons_self).rest hitems')
  obtain ⟨made, hmade⟩ : ∃ made, made = Memory.setData { (next n).store ⟨none, 0⟩ s with
    elements := ((next n).store ⟨none, 0⟩ s).elements + 1 } n value := ⟨_, rfl⟩
  rw [← hmade]
  have hself : made.heap n = ⟨none, 0, value⟩ := by
    rw [hmade]
    simp [Memory.setData, Memory.setCell, next]
  have hother : ∀ m, m ≠ n → made.heap m = s.heap m := by
    intro m hm
    rw [hmade]
    simp [Memory.setData, Memory.setCell, next, hm]
  have hnodes : ∀ m ∈ before ++ last :: after, made.heap m = s.heap m :=
    fun m hm => hother m (ne_of_mem_of_not_mem hm hpool.not_mem_left)
  have hpool' : Pool maxSize made free (n :: (before ++ last :: after ++ lost)) := by
    rw [hmade]
    exact (hpool.setCell List.mem_cons_self).rest.setCell List.mem_cons_self
  have hlinked : Linked made before last after := by
    refine h.congr ?_ fun m hm => ?_
    · rw [hmade]
      rfl
    · rw [Memory.words, hnodes m hm]
  have hword : made.words n = none := by
    rw [Memory.words, hself]
  refine (halts_link hlinked hpool' hword).mono ?_ fun _ _ he => he
  rintro ⟨⟩ s' ⟨hlinked', hpool'', hdata⟩
  refine hok (eq_false_of_ne_true ht) s' ⟨_, n, [], free, hlinked', Nat.zero_le _, ?_, ?_⟩
  · have hlast := (List.perm_append_singleton n (before ++ last :: after)).symm
    exact hpool''.perm (hlast.append_right lost)
  · have hne : before ++ last :: after ≠ [] := by simp
    rw [elements, List.tail_append_of_ne_nil hne, List.map_append, ← hitems]
    refine congrArg₂ _ ?_ ?_
    · refine elements_congr fun m hm => ?_
      rw [hdata, hnodes m hm]
    · rw [List.map_singleton, hdata, hself]

omit [DecidableEq P] in
/-- What `obtain` leaves of the chain, with a node besides. -/
theorem Linked.beside {s' : State P T} {n : P} (h : Linked s before last after)
    (hbeside : Beside n s s') (hn : n ∉ before ++ last :: after) :
    Linked s' before last after ∧
      elements s' (before ++ last :: after) = elements s (before ++ last :: after) := by
  have hheap := hbeside.heap_of_mem hn
  refine ⟨h.congr hbeside.members fun m hm => ?_, elements_congr fun m hm => ?_⟩
  · rw [Memory.words, hheap m hm]
  · rw [hheap m hm]

/-- `enqueue` puts the element behind the others, or loses a node. -/
theorem halts_enqueue {lag : Nat} {value : T} {items : List T}
    (h : Holds maxSize lag lost s items) :
    Halts (fun _ s' => env.throws s.elements = false ∧ Holds maxSize 0 lost s' (items ++ [value]))
      (fun e s' => e = .thrown ∧ env.throws s.elements = true ∧
        handedOut s'.trace = handedOut s.trace + 1 ∧
        ∃ n lag', Holds maxSize lag' (n :: lost) s' items)
      (fun fuel => enqueue env fuel value) s := by
  obtain ⟨before, last, after, free, hlinked, -, hpool, hitems⟩ := h
  refine Halts.bind ((halts_obtain env hpool).mono ?_ fun _ _ he => he)
  rintro n s' ⟨hbeside, htrace, free', hpool', -⟩
  obtain ⟨hlinked', hitems'⟩ := hlinked.beside hbeside hpool'.not_mem_left
  refine halts_place env hlinked' hpool' (hitems'.trans hitems) ?_ ?_
  · rw [hbeside.elements]
    exact fun ht s'' hholds => ⟨ht, hholds⟩
  · rw [hbeside.elements]
    intro ht s'' htrace' hlost
    rw [htrace', htrace]
    exact ⟨rfl, ht, rfl, n, _, hlost⟩

/-- `emplace` does the same with two constructions. -/
theorem halts_emplace {lag : Nat} {value : T} {items : List T}
    (h : Holds maxSize lag lost s items) :
    Halts (fun _ s' => (env.throws s.elements = false ∧ env.throws (s.elements + 1) = false) ∧
        Holds maxSize 0 lost s' (items ++ [value]))
      (fun e s' => e = .thrown ∧
        ¬(env.throws s.elements = false ∧ env.throws (s.elements + 1) = false) ∧
        handedOut s'.trace = handedOut s.trace + 1 ∧
        ∃ n lag', Holds maxSize lag' (n :: lost) s' items)
      (fun fuel => emplace env fuel value) s := by
  obtain ⟨before, last, after, free, hlinked, -, hpool, hitems⟩ := h
  refine Halts.bind ((halts_obtain env hpool).mono ?_ fun _ _ he => he)
  rintro n s' ⟨hbeside, htrace, free', hpool', -⟩
  obtain ⟨hlinked', hitems'⟩ := hlinked.beside hbeside hpool'.not_mem_left
  refine Halts.step (construct_iff env |>.mpr ?_)
  rw [hbeside.elements]
  have hlinked'' : Linked { s' with elements := s.elements + 1 } before last after :=
    ⟨hlinked'.chain, hlinked'.tail⟩
  refine ⟨fun ht => ⟨rfl, by simp [ht], ?_, n, after.length, ?_⟩, fun ht => ?_⟩
  · show handedOut s'.trace = _
    rw [htrace]
    rfl
  · exact holds_lost hlinked'' hpool'.rest (hitems'.trans hitems)
  · have hfirst : env.throws s.elements = false := eq_false_of_ne_true ht
    refine halts_place env hlinked'' hpool'.rest (hitems'.trans hitems) ?_ ?_
    · exact fun ht' s'' hholds => ⟨⟨hfirst, ht'⟩, hholds⟩
    · intro ht' s'' htrace' hlost
      replace ht' : env.throws (s.elements + 1) = true := ht'
      rw [htrace']
      refine ⟨rfl, by simp [ht'], ?_, n, _, hlost⟩
      show handedOut s'.trace = _
      rw [htrace]
      rfl

/-- The element behind the dummy is taken, and its node becomes the dummy. -/
theorem halts_take {Q : T ⊕ Bool × T → State P T → Prop} {E : Stop → State P T → Prop}
    {first : P} {value x : T} {items : List T} {free : List P}
    (h : Linked s (first :: before) last after)
    (hpool : Pool maxSize s free (first :: (before ++ last :: after ++ lost)))
    (hitems : elements s (first :: (before ++ last :: after)) = x :: items)
    (hok : env.throws s.elements = false → ∀ s' free', Linked s' before last after →
      Pool maxSize s' free' (before ++ last :: after ++ lost) →
      elements s' (before ++ last :: after) = items → Q (.inr (true, x)) s')
    (hthrow : env.throws s.elements = true → ∀ s', s'.trace = s.trace →
      Holds maxSize after.length lost s' (env.failed s.elements value x :: items) →
      E .thrown s') :
    Halts Q E (fun fuel => do
      let next' := (next first).load s
      let value ← moveOut env value (← follow next'.ptr)
      if ← exchangeStrong head s.members.head ⟨next'.ptr, s.members.head.getNextTag⟩ then
        giveBack env maxSize fuel first
        return .inr (true, value)
      else return .inl value) s := by
  obtain ⟨second, rest, hrest⟩ : ∃ second rest, before ++ last :: after = second :: rest := by
    cases before with
    | nil => exact ⟨last, after, rfl⟩
    | cons second before => exact ⟨second, before ++ last :: after, rfl⟩
  obtain ⟨hhead, hchain⟩ : s.members.head.ptr = some first ∧
    Path s.words (s.words first) (before ++ last :: after) none := h.chain
  have hnext : ((next first).load s).ptr = some second := by
    rw [hrest] at hchain
    exact hchain.1
  have hx : (s.heap second).data = x ∧ rest.map (fun n => (s.heap n).data) = items := by
    rw [hrest] at hitems
    exact List.cons.inj hitems
  have hsecond : second ∉ rest := by
    have hout := (List.nodup_cons.mp (List.nodup_append.mp hpool.nodup).2.1).2
    have hnodup := (List.nodup_append.mp hout).1
    rw [hrest] at hnodup
    exact (List.nodup_cons.mp hnodup).1
  -- what the assignment leaves behind, whether it throws or not
  have hwrite : ∀ data, elements { s.setData second data with elements := s.elements + 1 }
      (first :: (before ++ last :: after)) = data :: items := by
    intro data
    rw [hrest, ← hx.2]
    exact elements_setData hsecond
  have hmem : second ∈ first :: (before ++ last :: after ++ lost) := by
    rw [hrest]
    simp
  refine Halts.step (x := follow ((next first).load s).ptr) ?_
  rw [hnext, follow_some, Ends.pure_iff]
  refine Halts.step (moveOut_iff env |>.mpr ⟨fun ht => ?_, fun ht => ?_⟩)
  · have helements := hwrite (env.failed s.elements value x)
    rw [hx.1]
    refine hthrow ht _ rfl ⟨first :: before, last, after, free, ⟨?_, h.tail⟩, le_rfl, ?_,
      helements⟩
    · rw [words_setData]
      exact h.chain
    · exact (hpool.setCell hmem).rest
  · have helements := hwrite (env.movedFrom (s.heap second).data)
    refine Halts.step (exchangeStrong_iff.mpr ⟨fun _ => ?_, fun hne => absurd rfl hne⟩)
    obtain ⟨moved, hmoved⟩ : ∃ moved, moved = head.store ⟨some second, s.members.head.getNextTag⟩
      { s.setData second (env.movedFrom (s.heap second).data) with
        elements := s.elements + 1 } := ⟨_, rfl⟩
    have hpool' : Pool maxSize moved free (first :: (before ++ last :: after ++ lost)) := by
      rw [hmoved]
      exact (hpool.setCell hmem).rest
    have hlinked' : Linked moved before last after := by
      rw [hmoved]
      rw [show s.words first = some second from hnext] at hchain
      have hwords := words_setData (s := s) second (env.movedFrom (s.heap second).data)
        (s.elements + 1)
      exact ⟨hchain.congr fun m _ => (congrFun hwords m).symm, h.tail⟩
    have hitems' : elements moved (before ++ last :: after) = items := by
      rw [hmoved, hrest]
      rw [hrest] at helements
      exact (List.cons.inj helements).2
    show Halts _ _ (fun fuel => giveBack env maxSize fuel first >>= _) _
    rw [← hmoved]
    refine Halts.bind ((halts_giveBack env hpool').mono ?_ fun _ _ he => he)
    rintro ⟨⟩ s' ⟨hbeside, -, free', hpool'', -⟩
    obtain ⟨hlinked'', helements'⟩ := hlinked'.beside hbeside hpool'.not_mem_left
    refine Halts.const_iff.mpr ?_
    rw [hx.1]
    exact hok (eq_false_of_ne_true ht) s' free' hlinked'' hpool'' (helements'.trans hitems')

/-- `try_dequeue` follows the chain to the first element and takes it.  What is assigned
decides whether the element stays. -/
theorem halts_tryDequeue {lag : Nat} {value : T} {items : List T}
    (h : Holds maxSize lag lost s items) :
    Halts
      (fun r s' => match items with
        | [] => r = (false, value) ∧ Holds maxSize lag lost s' []
        | x :: rest =>
            env.throws s.elements = false ∧ r = (true, x) ∧ Holds maxSize lag lost s' rest)
      (fun e s' => e = .thrown ∧ env.throws s.elements = true ∧
        handedOut s'.trace = handedOut s.trace ∧ ∃ x rest lag', items = x :: rest ∧
          Holds maxSize lag' lost s' (env.failed s.elements value x :: rest))
      (fun fuel => tryDequeue env maxSize fuel value) s := by
  obtain ⟨before, last, after, free, hlinked, hlag, hpool, hitems⟩ := h
  refine Halts.loop (k := if before = [] then 1 else 0) (I := fun k value' s' => value' = value ∧
    ∃ t before' last' after', s' = tail.store t s ∧ Linked s' before' last' after' ∧
    before' ++ last' :: after' = before ++ last :: after ∧ after'.length ≤ lag ∧
    k = if before' = [] then 1 else 0) ?_
    ⟨rfl, s.members.tail, before, last, after, rfl, hlinked, rfl, hlag, rfl⟩
  rintro k value' s' ⟨rfl, t, before', last', after', rfl, hlinked', hnodes, hlag', rfl⟩
  have htail : t.ptr = some last' := hlinked'.tail
  have hchain := hlinked'.chain
  have hpool' : Pool maxSize (tail.store t s) free (before' ++ last' :: after' ++ lost) := by
    rw [hnodes]
    exact hpool.rest
  have hitems' : elements (tail.store t s) (before' ++ last' :: after') = items := by
    rw [hnodes]
    exact hitems
  refine Halts.step (Ends.get_iff.mpr (Halts.step (Ends.get_iff.mpr (Halts.step ?_))))
  cases before' with
  | nil =>
      -- head and tail are equal: the queue is empty, or the tail lags and moves on
      obtain ⟨hhead, hrest⟩ : s.members.head.ptr = some last' ∧
        Path s.words (s.words last') after' none := hchain
      show Ends _ _ (follow s.members.head.ptr _)
      rw [hhead, follow_some, Ends.pure_iff]
      refine Halts.step (Ends.get_iff.mpr (Halts.step (Ends.get_iff.mpr ?_)))
      refine Halts.ite_iff.mpr ⟨fun _ => ?_, fun hne => absurd rfl hne⟩
      refine Halts.ite_iff.mpr ⟨fun _ => ?_, fun hne => absurd (hhead.trans htail.symm) hne⟩
      refine Halts.const_iff.mpr ?_
      cases after' with
      | nil =>
          have hnone : s.words last' = none := hrest
          obtain rfl : items = [] := hitems'.symm
          rw [Ends.ite_iff]
          refine ⟨fun _ => ⟨rfl, ?_⟩, fun hsome => absurd hnone hsome⟩
          exact ⟨[], last', [], free, hlinked', hlag', hpool', rfl⟩
      | cons a after' =>
          have hsome : s.words last' = some a := hrest.1
          rw [Ends.ite_iff]
          refine ⟨fun hnone => absurd (hsome.symm.trans hnone) (by simp), fun _ => ?_⟩
          rw [Ends.bind_iff, exchangeStrong_iff]
          refine ⟨fun _ => ?_, fun hne => absurd rfl hne⟩
          simp only [List.length_cons] at hlag'
          exact ⟨0, by simp, rfl, ⟨s.words last', t.getNextTag⟩, [last'], a, after', rfl,
            ⟨hlinked'.chain, hsome⟩, hnodes, by omega, by simp⟩
  | cons first before' =>
      have hhead : s.members.head.ptr = some first := hchain.1
      show Ends _ _ (follow s.members.head.ptr _)
      rw [hhead, follow_some, Ends.pure_iff]
      refine Halts.step (Ends.get_iff.mpr (Halts.step (Ends.get_iff.mpr ?_)))
      refine Halts.ite_iff.mpr ⟨fun _ => ?_, fun hne => absurd rfl hne⟩
      have hne : s.members.head.ptr ≠ t.ptr := by
        rw [hhead, htail]
        intro heq
        refine hpool'.not_mem ?_
        rw [Option.some.inj heq]
        simp
      refine Halts.ite_iff.mpr ⟨fun heq => absurd heq hne, fun _ => ?_⟩
      cases items with
      | nil => simp [elements] at hitems'
      | cons x items =>
          refine halts_take env hlinked' hpool' hitems' ?_ ?_
          · intro ht s' free' hlinked'' hpool'' hitems''
            exact ⟨ht, rfl, before', last', after', free', hlinked'', hlag', hpool'', hitems''⟩
          · intro ht s' htrace hholds
            rw [htrace]
            exact ⟨rfl, ht, rfl, x, items, _, rfl, hholds⟩

/-- `empty` is right when the tail does not lag. -/
theorem halts_empty {E : Stop → State P T → Prop} {items : List T}
    (h : Holds maxSize 0 lost s items) :
    Halts (fun b s' => b = items.isEmpty ∧ Holds maxSize 0 lost s' items) E (fun _ => empty) s := by
  refine Halts.const_iff.mpr ⟨?_, h⟩
  obtain ⟨before, last, after, free, hlinked, hlag, hpool, rfl⟩ := h
  obtain rfl : after = [] := List.eq_nil_of_length_eq_zero (Nat.le_zero.mp hlag)
  rw [hlinked.tail]
  cases before with
  | nil =>
      rw [hlinked.chain.1]
      simp [elements]
  | cons first before =>
      have hne : last ≠ first := by
        rintro rfl
        exact hpool.not_mem (by simp)
      rw [hlinked.chain.1]
      simp [elements, hne]

/-- The constructor makes an empty queue, and one element for the dummy. -/
theorem halts_create {E : Stop → State P T → Prop} (henv : env.throws s.elements = false) :
    Halts (fun _ s' => Holds maxSize 0 [] s' [] ∧ s'.elements = s.elements + 1) E
      (fun fuel => create env maxSize fuel) s := by
  refine Halts.step (Ends.modify_iff.mpr (Halts.step (Ends.modify_iff.mpr ?_)))
  refine Halts.bind ((halts_createPool env).mono ?_ fun _ _ he => he)
  rintro ⟨⟩ s₁ ⟨-, helements, free, hpool, -⟩
  refine Halts.bind ((halts_obtain env hpool).mono ?_ fun _ _ he => he)
  rintro n s₂ ⟨hbeside, -, free', hpool', -⟩
  have hcount : s₂.elements = s.elements := hbeside.elements.trans helements
  refine Halts.step (constructNode_iff env |>.mpr ⟨fun ht => ?_, fun _ => ?_⟩)
  · replace ht : env.throws s₂.elements = true := ht
    rw [hcount, henv] at ht
    cases ht
  · refine Halts.const_iff.mpr ⟨⟨[], n, [], free', ⟨⟨rfl, ?_⟩, rfl⟩, Nat.zero_le _, ?_, rfl⟩,
      congrArg (· + 1) hcount⟩
    · show (Function.update (Function.update s₂.heap n _) n _ n).word = none
      simp [next, Memory.setCell]
    · have hn := List.mem_singleton_self n
      exact ((hpool'.setCell hn).rest.setCell hn).rest

/-- The loop of the destructor gives back the nodes in front of the last one. -/
theorem halts_release {E : Stop → State P T → Prop} {head' tail' : TaggedPtr P}
    {free : List P} (hchain : Path s.words head'.ptr (before ++ [last]) none)
    (htail : tail'.ptr = some last) (hpool : Pool maxSize s free (before ++ [last])) :
    Halts (fun _ s' => ∃ free', Pool maxSize s' free' [last]) E
      (fun fuel => release env maxSize fuel head' tail') s := by
  refine Halts.loop (k := before.length) (I := fun k head' s' => ∃ before free,
    Path s'.words head'.ptr (before ++ [last]) none ∧ Pool maxSize s' free (before ++ [last]) ∧
    k = before.length) ?_ ⟨before, free, hchain, hpool, rfl⟩
  rintro k head' s' ⟨before, free, hchain, hpool, rfl⟩
  rw [htail]
  cases before with
  | nil =>
      refine Halts.ite_iff.mpr ⟨fun _ => ?_, fun hne => absurd hchain.1 hne⟩
      exact Halts.const_iff.mpr ⟨free, hpool⟩
  | cons first before =>
      obtain ⟨hhead, hrest⟩ := hchain
      have hne : head'.ptr ≠ some last := by
        rw [hhead]
        intro heq
        refine hpool.not_mem ?_
        rw [Option.some.inj heq]
        simp
      refine Halts.ite_iff.mpr ⟨fun heq => absurd heq hne, fun _ => ?_⟩
      rw [hhead]
      refine Halts.step (Halts.step (Ends.get_iff.mpr ?_))
      refine Halts.bind ((halts_giveBack env hpool).mono ?_ fun _ _ he => he)
      rintro ⟨⟩ s'' ⟨hbeside, -, free', hpool', -⟩
      refine Halts.const_iff.mpr ⟨before.length, by simp, before, free', ?_, hpool', rfl⟩
      refine hrest.congr fun m hm => ?_
      rw [Memory.words, Memory.words, hbeside.heap_of_mem hpool.not_mem m hm]

/-- The destructor gives back every node, and the pool is full again. -/
theorem halts_destroy {E : Stop → State P T → Prop} {items : List T}
    (h : Holds maxSize 0 [] s items) :
    Halts (fun _ s' => Once s'.trace ∧ ∀ n, outstanding s'.trace n = false) E
      (fun fuel => destroy env maxSize fuel) s := by
  obtain ⟨before, last, after, free, hlinked, hlag, hpool, rfl⟩ := h
  obtain rfl : after = [] := List.eq_nil_of_length_eq_zero (Nat.le_zero.mp hlag)
  refine Halts.step (Ends.get_iff.mpr ?_)
  rw [List.append_nil] at hpool
  refine Halts.bind ((halts_release env hlinked.chain hlinked.tail hpool).mono ?_
    fun _ _ he => he)
  rintro ⟨⟩ s' ⟨free', hpool'⟩
  rw [hlinked.tail]
  refine Halts.step (x := follow (some last)) ?_
  show Halts _ _ _ _
  refine Halts.bind ((halts_giveBack env hpool').mono ?_ fun _ _ he => he)
  rintro ⟨⟩ s'' ⟨-, -, free'', hpool'', -⟩
  refine halts_destroyPool hpool'' fun _ _ _ => ⟨hpool''.once, fun n => ?_⟩
  refine eq_false_of_ne_true fun hout => ?_
  exact absurd ((hpool''.outstanding n).mp hout) (by simp)

/-- An operation does what it does on a list. -/
theorem halts_run {E : Stop → State P T → Prop} (henv : ∀ k, env.throws k = false) (op : Op T)
    (items : List T) (s : State P T) (h : Holds maxSize 0 lost s items) :
    Halts
      (fun answer s' => answer = (op.onList items).1 ∧ Holds maxSize 0 lost s' (op.onList items).2)
      E (runOp env maxSize op) s := by
  have hthrow : ∀ k, ¬env.throws k = true := by
    intro k
    rw [henv]
    simp
  cases op with
  | enqueue value =>
      refine Halts.bind ((halts_enqueue env h).mono ?_ fun e s' he => absurd he.2.1 (hthrow _))
      exact fun _ s' hs' => Halts.const_iff.mpr ⟨rfl, hs'.2⟩
  | emplace value =>
      refine Halts.bind ((halts_emplace env h).mono ?_
        fun e s' he => absurd ⟨henv _, henv _⟩ he.2.1)
      exact fun _ s' hs' => Halts.const_iff.mpr ⟨rfl, hs'.2⟩
  | tryDequeue value =>
      refine Halts.bind ((halts_tryDequeue env h).mono ?_ fun e s' he => absurd he.2.1 (hthrow _))
      cases items with
      | nil =>
          rintro r s' ⟨rfl, hs'⟩
          exact Halts.const_iff.mpr ⟨rfl, hs'⟩
      | cons x items =>
          rintro r s' ⟨-, rfl, hs'⟩
          exact Halts.const_iff.mpr ⟨rfl, hs'⟩
  | empty =>
      refine Halts.bind ((halts_empty h).mono ?_ fun _ _ he => he)
      rintro b s' ⟨rfl, hs'⟩
      exact Halts.const_iff.mpr ⟨rfl, hs'⟩

/-- A queue answers like a list, and gives back every node. -/
theorem halts_life {E : Stop → State P T → Prop} (henv : ∀ k, env.throws k = false)
    (ops : List (Op T)) :
    Halts (fun answers s' => answers = (replay Op.onList ops []).1 ∧ Once s'.trace ∧
        ∀ n, outstanding s'.trace n = false) E
      (fun fuel => life env maxSize ops fuel) s := by
  refine Halts.bind ((halts_create env (henv _)).mono ?_ fun _ _ he => he)
  rintro ⟨⟩ s₁ ⟨h₁, -⟩
  refine Halts.bind ((Halts.sequence (halts_run env henv) ops h₁).mono ?_ fun _ _ he => he)
  rintro answers s₂ ⟨rfl, h₂⟩
  refine Halts.bind ((halts_destroy env h₂).mono ?_ fun _ _ he => he)
  exact fun _ s₃ h₃ => Halts.const_iff.mpr ⟨rfl, h₃⟩

end Specifications

end Queue
end Alone
end Lockfree
end Cyan

import Cyan.Lockfree.StackAlone

/-!
# What the stack does in one thread

The nodes are a chain from `head_`, and every one of them has an element.  `Holds` is what is
known between two operations; the pool has also handed out the nodes that were lost when an
element threw.

Every operation ends.  What it leaves behind when the element throws stands in the
specifications as well: `try_pop` has taken the node out by then.
-/

namespace Cyan
namespace Lockfree
namespace Alone
namespace Stack

open Base Freelist

variable {P T : Type} [DecidableEq P]

/-- The elements in the stack, from the top. -/
def Contains (s : State P T) (items : List T) : Prop :=
  ∃ nodes, Path s.words s.members nodes none ∧ nodes.map (fun n => (s.heap n).data) = items

/-- A stack with these elements that has lost some nodes. -/
def Holds (maxSize : UInt64) (lost : List P) (s : State P T) (items : List T) : Prop :=
  ∃ nodes free, Path s.words s.members nodes none ∧ Pool maxSize s free (nodes ++ lost) ∧
    nodes.map (fun n => (s.heap n).data) = items

omit [DecidableEq P] in
/-- A stack contains one list of elements. -/
theorem Contains.unique {s : State P T} {items items' : List T} (h : Contains s items)
    (h' : Contains s items') : items = items' := by
  obtain ⟨nodes, hpath, rfl⟩ := h
  obtain ⟨nodes', hpath', rfl⟩ := h'
  rw [hpath.unique hpath']

theorem Holds.contains {maxSize : UInt64} {lost : List P} {s : State P T} {items : List T}
    (h : Holds maxSize lost s items) : Contains s items := by
  obtain ⟨nodes, free, hpath, -, hitems⟩ := h
  exact ⟨nodes, hpath, hitems⟩

section Specifications

variable (env : Env P T) {maxSize : UInt64} {s : State P T} {nodes lost free : List P}
variable {items : List T}

omit [DecidableEq P] in
/-- A chain does not change with its head and its nodes. -/
theorem chain_congr {s' : State P T} {nodes : List P} {items : List T}
    (hpath : Path s.words s.members nodes none)
    (hitems : nodes.map (fun n => (s.heap n).data) = items) (hmembers : s'.members = s.members)
    (hheap : ∀ n ∈ nodes, s'.heap n = s.heap n) :
    Path s'.words s'.members nodes none ∧ nodes.map (fun n => (s'.heap n).data) = items := by
  refine ⟨?_, ?_⟩
  · rw [hmembers]
    refine hpath.congr fun n hn => ?_
    rw [Memory.words, Memory.words, hheap n hn]
  · rw [← hitems]
    refine List.map_congr_left fun n hn => ?_
    rw [hheap n hn]

/-- What the pool does with a node besides the chain. -/
theorem chain_beside {s' : State P T} {n : P} (hpath : Path s.words s.members nodes none)
    (hitems : nodes.map (fun n => (s.heap n).data) = items) (hbeside : Beside n s s')
    (hpool : Pool maxSize s' free (n :: (nodes ++ lost))) :
    Path s'.words s'.members nodes none ∧ nodes.map (fun n => (s'.heap n).data) = items :=
  chain_congr hpath hitems hbeside.members (hbeside.heap_of_mem hpool.not_mem_left)

/-- The node besides is lost. -/
theorem holds_lost {n : P} (hpath : Path s.words s.members nodes none)
    (hpool : Pool maxSize s free (n :: (nodes ++ lost)))
    (hitems : nodes.map (fun n => (s.heap n).data) = items) : Holds maxSize (n :: lost) s items :=
  ⟨nodes, free, hpath, hpool.perm List.perm_middle.symm, hitems⟩

/-- A new node becomes the top, or is lost when its element throws. -/
theorem halts_place {Q : Unit → State P T → Prop} {E : Stop → State P T → Prop} {n : P}
    {value : T} (hpath : Path s.words s.members nodes none)
    (hpool : Pool maxSize s free (n :: (nodes ++ lost)))
    (hitems : nodes.map (fun n => (s.heap n).data) = items)
    (hok : env.throws s.elements = false →
      ∀ s', Holds maxSize lost s' (value :: items) → Q () s')
    (hthrow : env.throws s.elements = true →
      ∀ s', s'.trace = s.trace → Holds maxSize (n :: lost) s' items → E .thrown s') :
    Halts Q E (fun fuel => do newNode env n value; link env fuel n) s := by
  refine Halts.step (constructNode_iff env |>.mpr ⟨fun ht => ?_, fun ht => ?_⟩)
  · have hnodes : ∀ m ∈ nodes, (s.setWord n none).heap m = s.heap m := fun m hm =>
      Function.update_of_ne (ne_of_mem_of_not_mem hm hpool.not_mem_left) ..
    have hmembers : (s.setWord n none).members = s.members := rfl
    obtain ⟨hpath', hitems'⟩ := chain_congr hpath hitems hmembers hnodes
    exact hthrow ht _ rfl (holds_lost (s := { s.setWord n none with elements := _ }) hpath'
      (hpool.setCell List.mem_cons_self).rest hitems')
  refine Halts.step (Ends.modify_iff.mpr ?_)
  obtain ⟨made, hmade⟩ : ∃ made, made = Memory.setWord (Memory.setData
    { s.setWord n none with elements := (s.setWord n none).elements + 1 } n value) n
      s.members := ⟨_, rfl⟩
  show Halts _ _ _ (Memory.setWord (Memory.setData _ n value) n s.members)
  rw [← hmade]
  have hself : (made.heap n).word = s.members ∧ (made.heap n).data = value := by
    rw [hmade]
    simp [Memory.setWord, Memory.setData, Memory.setCell]
  have hother : ∀ m, m ≠ n → made.heap m = s.heap m := by
    intro m hm
    rw [hmade]
    simp [Memory.setWord, Memory.setData, Memory.setCell, hm]
  have hmembers : made.members = s.members := by
    rw [hmade]
    rfl
  have hpool' : Pool maxSize made free (n :: (nodes ++ lost)) := by
    have hn : n ∈ n :: (nodes ++ lost) := List.mem_cons_self
    rw [hmade]
    exact ((hpool.setCell hn).rest.setCell hn).setCell hn
  have hnodes : ∀ m ∈ nodes, made.heap m = s.heap m :=
    fun m hm => hother m (ne_of_mem_of_not_mem hm hpool.not_mem_left)
  obtain ⟨hpath', hitems'⟩ := chain_congr hpath hitems hmembers hnodes
  refine halts_pushHead env (hself.1.trans hmembers.symm) fun e => ?_
  refine hok (eq_false_of_ne_true ht) _ ⟨n :: nodes, free, ⟨rfl, ?_⟩, ?_, ?_⟩
  · rw [hmembers] at hpath'
    show Path made.words (made.heap n).word nodes none
    rw [hself.1]
    exact hpath'
  · exact hpool'.rest
  · rw [List.map_cons, ← hitems', ← hself.2]
    rfl

/-- `push` puts the element on the others, or loses a node. -/
theorem halts_push {value : T} (h : Holds maxSize lost s items) :
    Halts (fun _ s' => env.throws s.elements = false ∧ Holds maxSize lost s' (value :: items))
      (fun e s' => e = .thrown ∧ env.throws s.elements = true ∧
        handedOut s'.trace = handedOut s.trace + 1 ∧ ∃ n, Holds maxSize (n :: lost) s' items)
      (fun fuel => push env fuel value) s := by
  obtain ⟨nodes, free, hpath, hpool, hitems⟩ := h
  refine Halts.bind ((halts_obtain env hpool).mono ?_ fun _ _ he => he)
  rintro n s' ⟨hbeside, htrace, free', hpool', -⟩
  obtain ⟨hpath', hitems'⟩ := chain_beside hpath hitems hbeside hpool'
  refine halts_place env hpath' hpool' hitems' ?_ ?_
  · rw [hbeside.elements]
    exact fun ht s'' hholds => ⟨ht, hholds⟩
  · rw [hbeside.elements]
    intro ht s'' htrace' hlost
    rw [htrace', htrace]
    exact ⟨rfl, ht, rfl, n, hlost⟩

/-- `emplace` does the same with two constructions. -/
theorem halts_emplace {value : T} (h : Holds maxSize lost s items) :
    Halts (fun _ s' => (env.throws s.elements = false ∧ env.throws (s.elements + 1) = false) ∧
        Holds maxSize lost s' (value :: items))
      (fun e s' => e = .thrown ∧
        ¬(env.throws s.elements = false ∧ env.throws (s.elements + 1) = false) ∧
        handedOut s'.trace = handedOut s.trace + 1 ∧ ∃ n, Holds maxSize (n :: lost) s' items)
      (fun fuel => emplace env fuel value) s := by
  obtain ⟨nodes, free, hpath, hpool, hitems⟩ := h
  refine Halts.bind ((halts_obtain env hpool).mono ?_ fun _ _ he => he)
  rintro n s' ⟨hbeside, htrace, free', hpool', -⟩
  obtain ⟨hpath', hitems'⟩ := chain_beside hpath hitems hbeside hpool'
  refine Halts.step (construct_iff env |>.mpr ?_)
  rw [hbeside.elements]
  refine ⟨fun ht => ⟨rfl, by simp [ht], ?_, n, ?_⟩, fun ht => ?_⟩
  · show handedOut s'.trace = _
    rw [htrace]
    rfl
  · exact holds_lost (s := { s' with elements := s.elements + 1 }) hpath' hpool'.rest hitems'
  · have hfirst : env.throws s.elements = false := eq_false_of_ne_true ht
    refine halts_place env (s := { s' with elements := s.elements + 1 }) hpath'
      hpool'.rest hitems' ?_ ?_
    · exact fun ht' s'' hholds => ⟨⟨hfirst, ht'⟩, hholds⟩
    · intro ht' s'' htrace' hlost
      replace ht' : env.throws (s.elements + 1) = true := ht'
      rw [htrace']
      refine ⟨rfl, by simp [ht'], ?_, n, hlost⟩
      show handedOut s'.trace = _
      rw [htrace]
      rfl

/-- The loop of `try_pop` takes the first node. -/
theorem halts_popNode {Q : Option P → State P T → Prop} {E : Stop → State P T → Prop} {h : P}
    (hhead : s.members = some h)
    (hok : ∀ e, Q (some h) (head.store (s.words h) { s with exchanges := e })) :
    Halts Q E (fun fuel => popNode env fuel h) s := by
  refine halts_retry env fun e => ?_
  rw [Ends.bind_iff, Ends.get_iff, Ends.bind_iff]
  refine ends_exchangeWeak env (s := { s with exchanges := e }) hhead
    (.inr ⟨some h, rfl, hok (e + 1)⟩) fun hspurious => .inl ⟨hspurious, rfl, rfl⟩

/-- `try_pop` takes the top.  When the assignment throws, the element is gone, and so is its
node. -/
theorem halts_tryPop {value : T} (h : Holds maxSize lost s items) :
    Halts
      (fun r s' => match items with
        | [] => r = (false, value) ∧ Holds maxSize lost s' []
        | x :: rest => env.throws s.elements = false ∧ r = (true, x) ∧ Holds maxSize lost s' rest)
      (fun e s' => e = .thrown ∧ env.throws s.elements = true ∧
        ∃ x rest n, items = x :: rest ∧ Holds maxSize (n :: lost) s' rest)
      (fun fuel => tryPop env maxSize fuel value) s := by
  obtain ⟨nodes, free, hpath, hpool, rfl⟩ := h
  refine Halts.step (Ends.get_iff.mpr ?_)
  cases nodes with
  | nil =>
      have hnone : head.load s = none := hpath
      rw [hnone]
      exact Halts.const_iff.mpr ⟨rfl, [], free, hpath, hpool, rfl⟩
  | cons first rest =>
      obtain ⟨hsome, hrest⟩ := hpath
      have hload : head.load s = some first := hsome
      rw [hload]
      refine Halts.bind (halts_popNode env hsome fun e => ?_)
      obtain ⟨popped, hpopped⟩ : ∃ popped, popped = head.store (s.words first)
        { s with exchanges := e } := ⟨_, rfl⟩
      rw [← hpopped]
      have hheap : popped.heap = s.heap := by
        rw [hpopped]
        rfl
      have helements : popped.elements = s.elements := by
        rw [hpopped]
        rfl
      -- what the assignment leaves behind, whether it throws or not
      have hwrite : ∀ data, Path (popped.setData first data).words popped.members rest none ∧
          rest.map (fun n => ((popped.setData first data).heap n).data) =
            rest.map fun n => (s.heap n).data := by
        intro data
        refine chain_congr (s := popped) ?_ ?_ rfl fun m hm => ?_
        · rw [hpopped]
          exact hrest
        · rw [hheap]
        · exact Function.update_of_ne (ne_of_mem_of_not_mem hm hpool.not_mem_left) ..
      refine Halts.step (moveOut_iff env |>.mpr ?_)
      rw [helements, hheap]
      have hpool' : ∀ data, Pool maxSize
          { popped.setData first data with elements := s.elements + 1 } free
          (first :: (rest ++ lost)) := by
        intro data
        rw [hpopped]
        exact (hpool.rest.setCell List.mem_cons_self).rest
      refine ⟨fun ht => ⟨rfl, ht, _, _, first, rfl, ?_⟩, fun ht => ?_⟩
      · obtain ⟨hpath', hitems'⟩ := hwrite (env.failed s.elements value (s.heap first).data)
        exact holds_lost (s := { popped.setData first _ with elements := s.elements + 1 }) hpath'
          (hpool' _) hitems'
      refine Halts.bind ((halts_giveBack env (hpool' _)).mono ?_ fun _ _ he => he)
      rintro ⟨⟩ s' ⟨hbeside, -, free', hpool'', -⟩
      have hchain := hwrite (env.movedFrom (s.heap first).data)
      obtain ⟨hpath', hitems'⟩ := chain_congr hchain.1 hchain.2 hbeside.members
        (hbeside.heap_of_mem hpool.not_mem_left)
      exact Halts.const_iff.mpr ⟨eq_false_of_ne_true ht, rfl, rest, free', hpath', hpool'', hitems'⟩

/-- The loop of `clear` gives back every node. -/
theorem halts_release {E : Stop → State P T → Prop} {head' : Option P}
    (hchain : Path s.words head' nodes none) (hpool : Pool maxSize s free (nodes ++ lost)) :
    Halts (fun _ s' => s'.members = s.members ∧ ∃ free', Pool maxSize s' free' lost) E
      (fun fuel => release env maxSize fuel head') s := by
  refine Halts.loop (k := nodes.length) (I := fun k head' s' => s'.members = s.members ∧
    ∃ nodes free, Path s'.words head' nodes none ∧ Pool maxSize s' free (nodes ++ lost) ∧
      k = nodes.length) ?_ ⟨rfl, nodes, free, hchain, hpool, rfl⟩
  rintro k head' s' ⟨hmembers, nodes, free, hchain, hpool, rfl⟩
  cases nodes with
  | nil =>
      obtain rfl : head' = none := hchain
      exact Halts.const_iff.mpr ⟨hmembers, free, hpool⟩
  | cons first nodes =>
      obtain ⟨rfl, hrest⟩ := hchain
      refine Halts.step (Ends.get_iff.mpr ?_)
      refine Halts.bind ((halts_giveBack env hpool).mono ?_ fun _ _ he => he)
      rintro ⟨⟩ s'' ⟨hbeside, -, free', hpool', -⟩
      refine Halts.const_iff.mpr ⟨nodes.length, by simp, hbeside.members.trans hmembers, nodes,
        free', hrest.congr fun m hm => ?_, hpool', rfl⟩
      rw [Memory.words, Memory.words, hbeside.heap_of_mem hpool.not_mem_left m hm]

/-- `clear` leaves nothing behind. -/
theorem halts_clear {E : Stop → State P T → Prop} (h : Holds maxSize lost s items) :
    Halts (fun _ s' => Holds maxSize lost s' []) E (fun fuel => clear env maxSize fuel) s := by
  obtain ⟨nodes, free, hpath, hpool, -⟩ := h
  refine Halts.step (Ends.get_iff.mpr (Halts.bind ?_))
  refine halts_retry env fun e => ?_
  rw [Ends.bind_iff]
  refine ends_exchangeWeak env (s := { s with exchanges := e }) rfl (.inr ⟨_, rfl, ?_⟩)
    fun hspurious => .inl ⟨hspurious, rfl, rfl⟩
  have hpool' : Pool maxSize (head.store none { s with exchanges := e + 1 }) free
      (nodes ++ lost) := hpool.rest
  refine (halts_release env (s := head.store none { s with exchanges := e + 1 }) hpath
    hpool').mono ?_ fun _ _ he => he
  rintro ⟨⟩ s' ⟨hmembers, free', hpool''⟩
  exact ⟨[], free', hmembers, hpool'', rfl⟩

/-- The constructor makes an empty stack. -/
theorem halts_create {E : Stop → State P T → Prop} :
    Halts (fun _ s' => Holds maxSize [] s' []) E (fun fuel => create env maxSize fuel) s := by
  refine Halts.bind ((halts_createPool env).mono ?_ fun _ _ he => he)
  rintro ⟨⟩ s' ⟨-, -, free, hpool, -⟩
  refine Halts.const_iff.mpr ⟨[], free, rfl, ?_, rfl⟩
  exact hpool.rest

/-- The destructor gives back every node, and the pool is full again. -/
theorem halts_destroy {E : Stop → State P T → Prop} (h : Holds maxSize [] s items) :
    Halts (fun _ s' => Once s'.trace ∧ ∀ n, outstanding s'.trace n = false) E
      (fun fuel => destroy env maxSize fuel) s := by
  refine Halts.bind ((halts_clear env h).mono ?_ fun _ _ he => he)
  rintro ⟨⟩ s' ⟨nodes, free, -, hpool, hitems⟩
  obtain rfl := List.map_eq_nil_iff.mp hitems
  refine halts_destroyPool hpool fun _ _ _ => ⟨hpool.once, fun n => ?_⟩
  refine eq_false_of_ne_true fun hout => ?_
  exact absurd ((hpool.outstanding n).mp hout) (by simp)

/-- `empty` looks at `head_`. -/
theorem halts_empty {E : Stop → State P T → Prop} (h : Holds maxSize lost s items) :
    Halts (fun b s' => b = items.isEmpty ∧ Holds maxSize lost s' items) E (fun _ => empty) s := by
  refine Halts.const_iff.mpr ⟨?_, h⟩
  obtain ⟨nodes, free, hpath, hpool, rfl⟩ := h
  show decide (s.members = none) = _
  cases nodes with
  | nil =>
      rw [show s.members = none from hpath]
      rfl
  | cons first nodes =>
      rw [hpath.1]
      rfl

/-- An operation does what it does on a list. -/
theorem halts_run {E : Stop → State P T → Prop} (henv : ∀ k, env.throws k = false) (op : Op T)
    (items : List T) (s : State P T) (h : Holds maxSize lost s items) :
    Halts
      (fun answer s' => answer = (op.onList items).1 ∧ Holds maxSize lost s' (op.onList items).2) E
      (runOp env maxSize op) s := by
  have hthrow : ∀ k, ¬env.throws k = true := by
    intro k
    rw [henv]
    simp
  cases op with
  | push value =>
      refine Halts.bind ((halts_push env h).mono ?_ fun e s' he => absurd he.2.1 (hthrow _))
      exact fun _ s' hs' => Halts.const_iff.mpr ⟨rfl, hs'.2⟩
  | emplace value =>
      refine Halts.bind ((halts_emplace env h).mono ?_
        fun e s' he => absurd ⟨henv _, henv _⟩ he.2.1)
      exact fun _ s' hs' => Halts.const_iff.mpr ⟨rfl, hs'.2⟩
  | tryPop value =>
      refine Halts.bind ((halts_tryPop env h).mono ?_ fun e s' he => absurd he.2.1 (hthrow _))
      cases items with
      | nil =>
          rintro r s' ⟨rfl, hs'⟩
          exact Halts.const_iff.mpr ⟨rfl, hs'⟩
      | cons x items =>
          rintro r s' ⟨-, rfl, hs'⟩
          exact Halts.const_iff.mpr ⟨rfl, hs'⟩
  | clear =>
      refine Halts.bind ((halts_clear env h).mono ?_ fun _ _ he => he)
      exact fun _ s' hs' => Halts.const_iff.mpr ⟨rfl, hs'⟩
  | empty =>
      refine Halts.bind ((halts_empty h).mono ?_ fun _ _ he => he)
      rintro b s' ⟨rfl, hs'⟩
      exact Halts.const_iff.mpr ⟨rfl, hs'⟩

/-- A stack answers like a list, and gives back every node. -/
theorem halts_life {E : Stop → State P T → Prop} (henv : ∀ k, env.throws k = false)
    (ops : List (Op T)) :
    Halts (fun answers s' => answers = (replay Op.onList ops []).1 ∧ Once s'.trace ∧
        ∀ n, outstanding s'.trace n = false) E
      (fun fuel => life env maxSize ops fuel) s := by
  refine Halts.bind ((halts_create env).mono ?_ fun _ _ he => he)
  intro _ s₁ h₁
  refine Halts.bind ((Halts.sequence (halts_run env henv) ops h₁).mono ?_ fun _ _ he => he)
  rintro answers s₂ ⟨rfl, h₂⟩
  refine Halts.bind ((halts_destroy env h₂).mono ?_ fun _ _ he => he)
  exact fun _ s₃ h₃ => Halts.const_iff.mpr ⟨rfl, h₃⟩

end Specifications

end Stack
end Alone
end Lockfree
end Cyan

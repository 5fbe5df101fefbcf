import Cyan.Lockfree.PoolAlone

/-!
# What the free list does in one thread

Every member function of the free list ends, and does not throw.  `allocate` takes a node
that the container does not have, whether the list has one or the system has to be asked,
and `deallocate` takes back one that it has, whether there is room for it or not.

`Pool` is all that a container has to know: which nodes are free and which are its own.  For the
system both are the same, the nodes that the pool has not returned (`Tallies`).
-/

namespace Cyan
namespace Lockfree
namespace Alone

open Base Freelist

variable {κ P T : Type} [DecidableEq P]

/-- What the pool leaves alone when it hands out a node or takes it back: the members of the
container, the elements and the other nodes. -/
structure Beside (n : P) (s s' : Memory κ P T) : Prop where
  members : s'.members = s.members
  elements : s'.elements = s.elements
  heap : ∀ m, m ≠ n → s'.heap m = s.heap m

omit [DecidableEq P] in
theorem Beside.heap_of_mem {n : P} {s s' : Memory κ P T} {nodes : List P} (h : Beside n s s')
    (hn : n ∉ nodes) : ∀ m ∈ nodes, s'.heap m = s.heap m :=
  fun m hm => h.heap m (ne_of_mem_of_not_mem hm hn)

section Loops

variable (env : Env P T) {s : Memory κ P T}

section

omit [DecidableEq P]

/-- A loop around a weak exchange that finds the expected value ends with the exchange. -/
theorem halts_retry {α β : Type} {Q : α → Memory κ P T → Prop}
    {E : Stop → Memory κ P T → Prop} {body : β → Run κ P T (β ⊕ α)} {b : β}
    (hbody : ∀ e, Ends
      (fun r s' => (env.spurious e = true ∧ r = .inl b ∧ s' = { s with exchanges := e + 1 }) ∨
        ∃ a, r = .inr a ∧ Q a s') E (body b { s with exchanges := e })) :
    Halts Q E (fun fuel => loop .running body fuel b) s := by
  obtain ⟨j, hle, hj⟩ := env.fair s.exchanges
  refine Halts.loop (k := j - s.exchanges) (I := fun k b' s' => b' = b ∧ ∃ e,
    s' = { s with exchanges := e } ∧ e ≤ j ∧ k = j - e) ?_ ⟨rfl, s.exchanges, rfl, hle, rfl⟩
  rintro k b' s' ⟨rfl, e, rfl, hej, rfl⟩
  refine Halts.const_iff.mpr ((hbody e).mono ?_ fun _ _ he => he)
  rintro r s' (⟨hspurious, rfl, rfl⟩ | ⟨a, rfl, ha⟩)
  · have hne : e ≠ j := by
      rintro rfl
      rw [hj] at hspurious
      cases hspurious
    exact ⟨j - (e + 1), by omega, rfl, e + 1, rfl, by omega, rfl⟩
  · exact ha

/-- A weak exchange that finds the expected value: it succeeds or fails for no reason. -/
theorem ends_exchangeWeak {α : Type} [DecidableEq α] {Q : Bool × α → Memory κ P T → Prop}
    {E : Stop → Memory κ P T → Prop} {member : Atomic κ P T α} {expected desired : α}
    (hload : member.load s = expected)
    (hok : Q (true, expected) (member.store desired { s with exchanges := s.exchanges + 1 }))
    (hfail : env.spurious s.exchanges = true →
      Q (false, expected) { s with exchanges := s.exchanges + 1 }) :
    Ends Q E (exchangeWeak env member expected desired s) := by
  rw [exchangeWeak, Ends.bind_iff, Ends.get_iff, Ends.bind_iff, Ends.set_iff, Ends.ite_iff]
  refine ⟨fun _ => hok, fun hno => ?_⟩
  rw [hload]
  refine hfail (eq_true_of_ne_false fun hspurious => hno ⟨hload, hspurious⟩)

end

/-- `while (!head_.compare_exchange_weak(head, head->next));` takes the first node. -/
theorem halts_popHead {Q : P → Memory κ P T → Prop} {E : Stop → Memory κ P T → Prop} {h : P}
    (hhead : s.head = some h)
    (hok : ∀ e, Q h { s with head := (s.heap h).word, exchanges := e }) :
    Halts Q E (fun fuel => popHead env fuel (some h)) s := by
  refine halts_retry env fun e => ?_
  rw [Ends.bind_iff, Ends.get_iff, Ends.bind_iff]
  exact ends_exchangeWeak env (s := { s with exchanges := e }) hhead
    (.inr ⟨h, rfl, hok (e + 1)⟩) fun hspurious => .inl ⟨hspurious, rfl, rfl⟩

/-- `while (!head_.compare_exchange_weak(n->next, n));` puts the node in front. -/
theorem halts_pushHead {Q : Unit → Memory κ P T → Prop} {E : Stop → Memory κ P T → Prop}
    {member : Atomic κ P T (Option P)} {n : P} (hword : (s.heap n).word = member.load s)
    (hok : ∀ e, Q () (member.store (some n) { s with exchanges := e })) :
    Halts Q E (fun fuel => pushHead env member fuel n) s := by
  refine halts_retry env fun e => ?_
  rw [Ends.bind_iff, Ends.get_iff, Ends.bind_iff]
  refine ends_exchangeWeak env (s := { s with exchanges := e }) ?_
    (.inr ⟨(), rfl, hok (e + 1)⟩) fun hspurious => .inl ⟨hspurious, rfl, ?_⟩
  · rw [member.load_exchanges]
    exact hword.symm
  · -- the failed exchange writes what is there already
    show Memory.setWord _ n (s.heap n).word = _
    rw [Memory.setWord]
    exact congrArg (fun heap => { s with heap := heap, exchanges := e + 1 })
      (Function.update_eq_self n s.heap)

end Loops

section Members

variable (env : Env P T) {maxSize : UInt64} {s : Memory κ P T} {free out : List P}

omit [DecidableEq P] in
/-- The size that the free list has counted is its length. -/
theorem FreeNodes.size_eq_iff (h : FreeNodes maxSize s free) :
    s.size = maxSize ↔ free.length = maxSize.toNat := by
  have hlt := maxSize.toNat_lt
  have hbound := h.bound
  rw [h.size, ← UInt64.toNat_inj, UInt64.toNat_ofNat_of_lt' (by show _ < 2 ^ 64; omega)]

/-- The words of the nodes after a write. -/
theorem Memory.words_setCell {n : P} {cell : Cell P T} :
    (s.setCell n cell).words = Function.update s.words n cell.word := by
  funext m
  by_cases hm : m = n
  · subst hm
    simp [Memory.setCell, Memory.words]
  · simp [Memory.setCell, Memory.words, hm]

/-- `deallocate` puts the node into the list, or gives it back to the system when the list is
full. -/
theorem halts_deallocate {E : Stop → Memory κ P T → Prop} {n : P}
    (h : FreeNodes maxSize s free) (hnew : n ∉ free) (hn : n ∈ s.mapped) :
    Halts (fun _ s' => Beside n s s' ∧ s'.trace = s.trace ∧
        (free.length = maxSize.toNat ∧ FreeNodes maxSize s' free ∧
            s'.mapped = s.mapped.erase n ∧ s'.system = .deallocated n :: s.system ∨
          FreeNodes maxSize s' (n :: free) ∧ s'.mapped = s.mapped ∧ s'.system = s.system)) E
      (fun fuel => deallocate env maxSize fuel n) s := by
  refine Halts.step (Ends.get_iff.mpr (Halts.ite_iff.mpr ⟨fun hfull => ?_, fun hroom => ?_⟩))
  · refine Halts.const_iff.mpr ⟨⟨rfl, rfl, fun _ _ => rfl⟩, rfl, .inl ⟨?_, ?_, rfl, rfl⟩⟩
    · exact h.size_eq_iff.mp hfull
    · refine ⟨h.chain, h.size, h.bound, fun m hm => ?_⟩
      exact (List.mem_erase_of_ne (ne_of_mem_of_not_mem hm hnew)).mpr (h.mapped m hm)
  · have hlt : free.length < maxSize.toNat :=
      Nat.lt_of_le_of_ne h.bound fun heq => hroom (h.size_eq_iff.mpr heq)
    refine Halts.step (Ends.modify_iff.mpr (Halts.bind (halts_pushHead env ?_ fun e => ?_)))
    · simp [Memory.setWord, Memory.setCell, poolHead]
    · refine Halts.const_iff.mpr
        ⟨⟨rfl, rfl, fun m hm => ?_⟩, rfl, .inr ⟨⟨?_, ?_, hlt, ?_⟩, rfl, rfl⟩⟩
      · exact Function.update_of_ne hm ..
      · show Path (s.setWord n s.head).words _ _ _
        rw [Memory.setWord, Memory.words_setCell]
        exact h.chain.cons_update hnew
      · show s.size + 1 = _
        rw [h.size, List.length_cons, UInt64.ofNat_add]
        rfl
      · rintro m (_ | ⟨_, hm⟩)
        · exact hn
        · exact h.mapped m hm

/-- A node goes out. -/
theorem Tallies.allocated {trace : List (Event P)} {nodes : List P} {n : P}
    (h : Tallies trace nodes) (hn : n ∉ nodes) : Tallies (.allocated n :: trace) (n :: nodes) := by
  refine ⟨⟨?_, h.once⟩, fun m => ?_⟩
  · exact eq_false_of_ne_true fun hout => hn ((h.outstanding n).mp hout)
  · rw [Freelist.outstanding, Bool.or_eq_true, h.outstanding m, decide_eq_true_iff,
      List.mem_cons, eq_comm]

/-- A node comes in. -/
theorem Tallies.deallocated {trace : List (Event P)} {nodes : List P} {n : P}
    (h : Tallies trace (n :: nodes)) (hn : n ∉ nodes) :
    Tallies (.deallocated n :: trace) nodes := by
  refine ⟨⟨(h.outstanding n).mpr List.mem_cons_self, h.once⟩, fun m => ?_⟩
  rw [Freelist.outstanding, Bool.and_eq_true, h.outstanding m, decide_eq_true_iff, List.mem_cons]
  constructor
  · rintro ⟨hne, rfl | hm⟩
    · exact absurd rfl hne
    · exact hm
  · rintro hm
    exact ⟨(ne_of_mem_of_not_mem hm hn).symm, .inr hm⟩

theorem Tallies.perm {trace : List (Event P)} {nodes nodes' : List P} (h : Tallies trace nodes)
    (hperm : nodes.Perm nodes') : Tallies trace nodes' :=
  ⟨h.once, fun n => (h.outstanding n).trans hperm.mem_iff⟩

theorem Pool.tallies (h : Pool maxSize s free out) : Tallies s.trace out :=
  ⟨h.once, h.outstanding⟩

/-- A node is outside once. -/
theorem Pool.not_mem {n : P} (h : Pool maxSize s free (n :: out)) : n ∉ out := by
  have hnodup := List.nodup_append.mp h.nodup
  exact (List.nodup_cons.mp hnodup.2.1).1

theorem Pool.not_mem_left {n : P} {nodes lost : List P}
    (h : Pool maxSize s free (n :: (nodes ++ lost))) : n ∉ nodes :=
  fun hn => h.not_mem (List.mem_append_left _ hn)

/-- The order of the nodes outside does not matter. -/
theorem Pool.perm {out' : List P} (h : Pool maxSize s free out) (hperm : out.Perm out') :
    Pool maxSize s free out' where
  toFreeNodes := h.toFreeNodes
  enough := by
    rw [← hperm.length_eq]
    exact h.enough
  nodup := (hperm.append_left free).nodup_iff.mp h.nodup
  mappedOut n hn := h.mappedOut n (hperm.mem_iff.mpr hn)
  once := h.once
  outstanding n := (h.outstanding n).trans hperm.mem_iff

/-- The pool is not made of the members of the container, nor of what `Env` is asked. -/
theorem Pool.rest {members : κ} {exchanges elements : Nat} (h : Pool maxSize s free out) :
    Pool maxSize { s with members := members, exchanges := exchanges, elements := elements }
      free out :=
  ⟨⟨h.chain, h.size, h.bound, h.mapped⟩, h.enough, h.nodup, h.mappedOut, h.once, h.outstanding⟩

/-- A container may write the nodes that it has. -/
theorem Pool.setCell {n : P} {cell : Cell P T} (h : Pool maxSize s free out) (hn : n ∈ out) :
    Pool maxSize (s.setCell n cell) free out := by
  have hfree : n ∉ free := fun hmem => (List.disjoint_of_nodup_append h.nodup) hmem hn
  refine ⟨⟨?_, h.size, h.bound, h.mapped⟩, h.enough, h.nodup, h.mappedOut, h.once,
    h.outstanding⟩
  rw [Memory.words_setCell]
  exact h.chain.update hfree

/-- `pool_.allocate()` takes a node that the container does not have. -/
theorem halts_obtain {E : Stop → Memory κ P T → Prop} (h : Pool maxSize s free out) :
    Halts (fun n s' => Beside n s s' ∧ s'.trace = .allocated n :: s.trace ∧
        ∃ free', Pool maxSize s' free' (n :: out) ∧
          (Tallies s.system (free ++ out) → Tallies s'.system (free' ++ n :: out))) E
      (fun fuel => obtain env fuel) s := by
  have hchain := h.chain
  refine Halts.bind (Halts.step (Ends.get_iff.mpr ?_))
  cases hhead : s.head with
  | none =>
      -- the list is empty, and the system has a node that is nowhere else
      rw [hhead] at hchain
      obtain rfl := hchain.eq_nil_of_none
      have hfresh := env.pick_fresh s.requests s.mapped
      have hnew : env.pick s.requests s.mapped ∉ out := fun hmem =>
        hfresh (h.mappedOut _ hmem)
      obtain ⟨honce, hout⟩ := h.tallies.allocated hnew
      have henough := h.enough
      refine Halts.const_iff.mpr ?_
      show Halts _ _ _ _
      refine Halts.const_iff.mpr ⟨⟨rfl, rfl, fun m hm => ?_⟩, rfl, [], ⟨⟨?_, h.size, h.bound, ?_⟩,
        ?_, ?_, ?_, honce, hout⟩, fun htallies => htallies.allocated hnew⟩
      · exact Function.update_of_ne hm ..
      · exact hhead
      · simp
      · simp only [List.length_nil, List.length_cons] at henough ⊢
        omega
      · exact List.nodup_cons.mpr ⟨hnew, h.nodup⟩
      · rintro m (_ | ⟨_, hm⟩)
        · exact List.mem_cons_self
        · exact List.mem_cons_of_mem _ (h.mappedOut m hm)
  | some n =>
      -- the first node of the list goes out
      cases free with
      | nil =>
          rw [hhead] at hchain
          cases hchain
      | cons n' free =>
          obtain ⟨hn', hrest⟩ := hchain
          obtain rfl : n = n' := by
            rw [hhead] at hn'
            exact Option.some.inj hn'
          have hnodup := List.nodup_cons.mp h.nodup
          have hnew : n ∉ out := fun hmem => hnodup.1 (List.mem_append_right _ hmem)
          obtain ⟨honce, hout⟩ := h.tallies.allocated hnew
          have henough := h.enough
          have hbound := h.bound
          refine Halts.bind (halts_popHead env hhead fun e => ?_)
          refine Halts.const_iff.mpr ?_
          show Halts _ _ _ _
          refine Halts.const_iff.mpr ⟨⟨rfl, rfl, fun _ _ => rfl⟩, rfl, free,
            ⟨⟨hrest, ?_, ?_, fun m hm => ?_⟩, ?_, ?_, ?_, honce, hout⟩,
            fun htallies => htallies.perm List.perm_middle.symm⟩
          · show s.size - 1 = _
            rw [h.size, List.length_cons, UInt64.ofNat_add]
            exact UInt64.add_sub_cancel ..
          · simp only [List.length_cons] at hbound
            omega
          · exact h.mapped m (List.mem_cons_of_mem _ hm)
          · simp only [List.length_cons] at henough ⊢
            omega
          · exact List.perm_middle.nodup_iff.mpr h.nodup
          · rintro m (_ | ⟨_, hm⟩)
            · exact h.mapped n List.mem_cons_self
            · exact h.mappedOut m hm

/-- `pool_.deallocate(n)` takes back a node that the container has. -/
theorem halts_giveBack {E : Stop → Memory κ P T → Prop} {n : P}
    (h : Pool maxSize s free (n :: out)) :
    Halts (fun _ s' => Beside n s s' ∧ s'.trace = .deallocated n :: s.trace ∧
        ∃ free', Pool maxSize s' free' out ∧
          (Tallies s.system (free ++ n :: out) → Tallies s'.system (free' ++ out))) E
      (fun fuel => giveBack env maxSize fuel n) s := by
  have hnodup := List.nodup_cons.mp (List.perm_middle.nodup_iff.mp h.nodup)
  have hfree : n ∉ free := fun hmem => hnodup.1 (List.mem_append_left _ hmem)
  obtain ⟨honce, houtside⟩ := h.tallies.deallocated h.not_mem
  have henough := h.enough
  have hnodes : FreeNodes maxSize { s with trace := .deallocated n :: s.trace } free :=
    ⟨h.chain, h.size, h.bound, h.mapped⟩
  refine Halts.step (Ends.modify_iff.mpr ?_)
  refine (halts_deallocate env hnodes hfree (h.mappedOut n List.mem_cons_self)).mono ?_
    fun _ _ he => he
  rintro ⟨⟩ s' ⟨⟨hmembers, helements, hheap⟩, htrace, hcases⟩
  refine ⟨⟨hmembers, helements, hheap⟩, htrace, ?_⟩
  rcases hcases with ⟨hfull, hnodes', hmapped, hsystem⟩ | ⟨hnodes', hmapped, hsystem⟩
  · -- the list is full without the node
    refine ⟨free, ⟨hnodes', by omega, hnodup.2, fun m hm => ?_, ?_, ?_⟩, fun htallies => ?_⟩
    · have hne : m ≠ n := ne_of_mem_of_not_mem hm h.not_mem
      rw [hmapped]
      exact (List.mem_erase_of_ne hne).mpr (h.mappedOut m (List.mem_cons_of_mem _ hm))
    · rw [htrace]
      exact honce
    · rw [htrace]
      exact houtside
    · rw [hsystem]
      exact (htallies.perm List.perm_middle).deallocated hnodup.1
  · refine ⟨n :: free, ⟨hnodes', ?_, ?_, fun m hm => ?_, ?_, ?_⟩, fun htallies => ?_⟩
    · simp only [List.length_cons] at henough ⊢
      omega
    · exact List.perm_middle.nodup_iff.mp h.nodup
    · rw [hmapped]
      exact h.mappedOut m (List.mem_cons_of_mem _ hm)
    · rw [htrace]
      exact honce
    · rw [htrace]
      exact houtside
    · rw [hsystem]
      exact htallies.perm List.perm_middle

/-- One round of the constructor's loop, and then the rest, as long as there is room. -/
theorem halts_fill {E : Stop → Memory κ P T → Prop} (rounds : Nat)
    (h : FreeNodes maxSize s free) (hrounds : free.length + rounds = maxSize.toNat) :
    Halts (fun _ s' => s'.members = s.members ∧ s'.elements = s.elements ∧
        s'.trace = s.trace ∧ ∃ free', free'.length = maxSize.toNat ∧ FreeNodes maxSize s' free' ∧
          (Tallies s.system free → Tallies s'.system free')) E
      (fun fuel => fill env maxSize fuel rounds) s := by
  induction rounds generalizing s free with
  | zero => exact Halts.const_iff.mpr ⟨rfl, rfl, rfl, free, hrounds, h, id⟩
  | succ rounds ih =>
      have hfresh := env.pick_fresh s.requests s.mapped
      have hnew : env.pick s.requests s.mapped ∉ free := fun hmem => hfresh (h.mapped _ hmem)
      have hnodes : FreeNodes maxSize (s.handOut (env.pick s.requests s.mapped)
          (env.garbage s.requests)) free := by
        refine ⟨h.chain.congr fun m hm => ?_, h.size, h.bound, fun m hm => ?_⟩
        · have hne : m ≠ env.pick s.requests s.mapped := ne_of_mem_of_not_mem hm hnew
          show _ = (Function.update s.heap _ _ m).word
          rw [Function.update_of_ne hne]
        · exact List.mem_cons_of_mem _ (h.mapped m hm)
      refine Halts.step (x := systemAllocate env) ?_
      show Halts _ _ _ _
      refine Halts.bind ((halts_deallocate env hnodes hnew List.mem_cons_self).mono ?_
        fun _ _ he => he)
      rintro ⟨⟩ s' ⟨hbeside, htrace, ⟨hfull, -⟩ | ⟨hnodes', -, hsystem⟩⟩
      · -- there is room for every round
        omega
      · refine (ih hnodes' ?_).mono ?_ fun _ _ he => he
        · simp only [List.length_cons]
          omega
        · rintro ⟨⟩ s'' ⟨hmembers, helements, htrace', free', hfull, hnodes'', hkeep⟩
          refine ⟨hmembers.trans hbeside.members, helements.trans hbeside.elements,
            htrace'.trans htrace, free', hfull, hnodes'', fun htallies => hkeep ?_⟩
          rw [hsystem]
          exact htallies.allocated hnew

/-- `freelist::freelist` fills the list. -/
theorem halts_createPool {E : Stop → Memory κ P T → Prop} :
    Halts (fun _ s' => s'.members = s.members ∧ s'.elements = s.elements ∧
        ∃ free', Pool maxSize s' free' [] ∧ Tallies s'.system free') E
      (fun fuel => createPool env maxSize fuel) s := by
  have hnodes : FreeNodes maxSize
      { s with head := none, size := 0, trace := [], system := [] } [] :=
    ⟨rfl, rfl, Nat.zero_le _, by simp⟩
  refine Halts.step (Ends.modify_iff.mpr ?_)
  refine (halts_fill env maxSize.toNat hnodes (by simp)).mono ?_ fun _ _ he => he
  rintro ⟨⟩ s' ⟨hmembers, helements, htrace, free, hfull, hnodes, hkeep⟩
  replace htrace : s'.trace = [] := htrace
  have hnone : Tallies ([] : List (Event P)) [] :=
    ⟨trivial, fun n => by simp [Freelist.outstanding]⟩
  refine ⟨hmembers, helements, free, ⟨hnodes, by omega, ?_, by simp, ?_, ?_⟩, hkeep hnone⟩
  · rw [List.append_nil]
    exact hnodes.chain.nodup
  · rw [htrace]
    exact hnone.once
  · rw [htrace]
    exact hnone.outstanding

/-- The loop of the destructor ends at the end of the list, and has returned its nodes. -/
theorem halts_releaseAll {E : Stop → Memory κ P T → Prop} {Q : Unit → Memory κ P T → Prop}
    {head : Option P} (h : Path s.words head free none)
    (hok : ∀ mapped system, (Tallies s.system free → Tallies system []) →
      Q () { s with mapped := mapped, system := system }) :
    Halts Q E (fun fuel => releaseAll fuel head) s := by
  refine Halts.loop (k := free.length) (I := fun k head s' => ∃ mapped system left,
    s' = { s with mapped := mapped, system := system } ∧ k = left.length ∧
      Path s.words head left none ∧ (Tallies s.system free → Tallies system left)) ?_
    ⟨s.mapped, s.system, free, rfl, rfl, h, id⟩
  rintro k head s' ⟨mapped, system, left, rfl, rfl, hpath, hkeep⟩
  refine Halts.const_iff.mpr ?_
  cases left with
  | nil =>
      obtain rfl : head = none := hpath
      exact hok mapped system hkeep
  | cons n left =>
      have hnew : n ∉ left := (List.nodup_cons.mp hpath.nodup).1
      obtain ⟨rfl, hrest⟩ := hpath
      exact ⟨left.length, by simp, _, _, left, rfl, rfl, hrest,
        fun htallies => (hkeep htallies).deallocated hnew⟩

/-- `freelist::~freelist` ends, and its assertions hold, when no node is outside. -/
theorem halts_destroyPool {E : Stop → Memory κ P T → Prop} {Q : Unit → Memory κ P T → Prop}
    (h : Pool maxSize s free [])
    (hok : ∀ mapped system, (Tallies s.system free → Tallies system []) →
      Q () { s with mapped := mapped, system := system }) :
    Halts Q E (fun fuel => destroyPool maxSize fuel) s := by
  have hbound := h.bound
  have hfull : free.length = maxSize.toNat := by
    have henough := h.enough
    rw [List.length_nil] at henough
    omega
  refine Halts.ite_iff.mpr ⟨fun hzero => ?_, fun hmax => ?_⟩
  · -- a list without room has nothing to return
    rw [hzero] at hfull
    obtain rfl := List.length_eq_zero_iff.mp hfull
    exact Halts.const_iff.mpr (hok s.mapped s.system id)
  refine Halts.step (Ends.get_iff.mpr (Halts.ite_iff.mpr ⟨fun hsize => ?_, fun _ => ?_⟩))
  · exact absurd (h.size_eq_iff.mpr hfull) hsize
  · refine Halts.step (Ends.get_iff.mpr (Halts.ite_iff.mpr ⟨fun hhead => ?_, fun _ => ?_⟩))
    · have hchain := h.chain
      rw [hhead] at hchain
      rw [hchain.eq_nil_of_none] at hfull
      exact absurd (UInt64.toNat_inj.mp hfull.symm) hmax
    · exact halts_releaseAll h.chain hok

end Members

section Elements

variable (env : Env P T) {s : Memory κ P T}

section

omit [DecidableEq P]

theorem exchangeStrong_iff {α : Type} [DecidableEq α] {Q : Bool → Memory κ P T → Prop}
    {E : Stop → Memory κ P T → Prop} {member : Atomic κ P T α} {expected desired : α} :
    Ends Q E (exchangeStrong member expected desired s) ↔
      (member.load s = expected → Q true (member.store desired s)) ∧
      (¬member.load s = expected → Q false s) := by
  rw [exchangeStrong, Ends.bind_iff, Ends.get_iff, Ends.ite_iff]
  rfl

theorem construct_iff {Q : T → Memory κ P T → Prop} {E : Stop → Memory κ P T → Prop}
    {value : T} : Ends Q E (construct env value s) ↔
      (env.throws s.elements = true → E .thrown { s with elements := s.elements + 1 }) ∧
      (¬env.throws s.elements = true → Q value { s with elements := s.elements + 1 }) := by
  rw [construct, Ends.bind_iff, Ends.get_iff, Ends.bind_iff, Ends.set_iff, Ends.ite_iff]
  rfl

end

theorem constructNode_iff {Q : Unit → Memory κ P T → Prop} {E : Stop → Memory κ P T → Prop}
    {next : Memory κ P T → Memory κ P T} {n : P} {value : T} :
    Ends Q E (constructNode env next n value s) ↔
      (env.throws (next s).elements = true →
        E .thrown { next s with elements := (next s).elements + 1 }) ∧
      (¬env.throws (next s).elements = true →
        Q () (Memory.setData { next s with elements := (next s).elements + 1 } n value)) := by
  rw [constructNode, Ends.bind_iff, Ends.modify_iff, Ends.bind_iff, construct_iff]
  rfl

theorem moveOut_iff {Q : T → Memory κ P T → Prop} {E : Stop → Memory κ P T → Prop}
    {value : T} {n : P} : Ends Q E (moveOut env value n s) ↔
      (env.throws s.elements = true → E .thrown
        { s.setData n (env.failed s.elements value (s.heap n).data) with
          elements := s.elements + 1 }) ∧
      (¬env.throws s.elements = true → Q (s.heap n).data
        { s.setData n (env.movedFrom (s.heap n).data) with elements := s.elements + 1 }) := by
  rw [moveOut, Ends.bind_iff, Ends.get_iff, Ends.ite_iff]
  rfl

omit [DecidableEq P] in
@[simp] theorem follow_some {n : P} : (follow (some n) : Run κ P T P) = pure n :=
  rfl

end Elements

end Alone
end Lockfree
end Cyan

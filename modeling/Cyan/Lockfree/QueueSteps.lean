import Cyan.Lockfree.QueueShape

/-!
# Every step of the queue keeps its shape

One lemma per way in which a step changes the shared memory: local steps
(`Inv.of_same`), the exchange on `tail_` (`Inv.exchangeTail`), the pool
(`Inv.allocate`, `Inv.release`), the construction of a node (`Inv.construct`),
the exchange on a node's `next` (`Inv.link`) and the exchange on `head_`
(`Inv.take`).  Each of them says which shape the new memory has.
-/

namespace Cyan
namespace Lockfree
namespace Queue

open Base

variable {Thread P T : Type*} [DecidableEq Thread] [DecidableEq P]
variable {s s' : State Thread P T} {sh sh' : Shape Thread P}

/-- An event that is not an exchange on `head_` or `tail_`. -/
def Event.Neutral : Event T → Prop
  | .swing => False
  | .take _ _ => False
  | _ => True

theorem swings_cons_of_neutral {e : Event T} {tr : List (Event T)}
    (he : e.Neutral) : swings (e :: tr) = swings tr := by
  cases e <;> first | rfl | exact he.elim

theorem takes_cons_of_neutral {e : Event T} {tr : List (Event T)}
    (he : e.Neutral) : takes (e :: tr) = takes tr := by
  cases e <;> first | rfl | exact he.elim

/-! ## Frame lemmas for the state updates -/

section

omit [DecidableEq P]

@[simp] theorem goto_pc_self (t : Thread) (k : Pc P T) :
    (s.goto t k).pc t = k := by
  simp [State.goto]

theorem goto_pc_of_ne {t u : Thread} (k : Pc P T) (hne : u ≠ t) :
    (s.goto t k).pc u = s.pc u := by
  simp [State.goto, hne]

end

omit [DecidableEq Thread] in
/-- A write of data or of the constructor's mark does not touch any `next`. -/
theorem setNode_next {p : P} {node : Node P T}
    (hnext : node.next = (s.heap p).next) (q : P) :
    ((s.setNode p node).heap q).next = (s.heap q).next := by
  by_cases hq : q = p
  · subst hq
    simp [State.setNode, hnext]
  · simp [State.setNode, hq]

/-! ## Local steps -/

/-- The part of the state that shapes are about is unchanged. -/
structure SameMemory (s s' : State Thread P T) : Prop where
  head : s'.head = s.head
  tail : s'.tail = s.tail
  next : ∀ p, (s'.heap p).next = (s.heap p).next
  allocated : s'.allocated = s.allocated
  takes : takes s'.trace = takes s.trace
  swings : swings s'.trace = swings s.trace

omit [DecidableEq Thread] [DecidableEq P] in
theorem SameMemory.nextPtr_eq (h : SameMemory s s') : nextPtr s' = nextPtr s := by
  funext p
  simp [nextPtr, h.next p]

omit [DecidableEq P] in
theorem SameMemory.goto (t : Thread) (k : Pc P T) : SameMemory s (s.goto t k) :=
  ⟨rfl, rfl, fun _ => rfl, rfl, rfl, rfl⟩

omit [DecidableEq Thread] [DecidableEq P] in
theorem SameMemory.emit {e : Event T} (he : e.Neutral) :
    SameMemory s (s.emit e) :=
  ⟨rfl, rfl, fun _ => rfl, rfl, takes_cons_of_neutral he,
    swings_cons_of_neutral he⟩

omit [DecidableEq Thread] in
theorem SameMemory.setNode {p : P} {node : Node P T}
    (hnext : node.next = (s.heap p).next) :
    SameMemory s (s.setNode p node) :=
  ⟨rfl, rfl, setNode_next hnext, rfl, rfl, rfl⟩

section

omit [DecidableEq Thread] [DecidableEq P]

theorem SameMemory.trans {s'' : State Thread P T} (h : SameMemory s s')
    (h' : SameMemory s' s'') : SameMemory s s'' where
  head := h'.head.trans h.head
  tail := h'.tail.trans h.tail
  next p := (h'.next p).trans (h.next p)
  allocated := h'.allocated.trans h.allocated
  takes := h'.takes.trans h.takes
  swings := h'.swings.trans h.swings

/-- Nobody can see a local step. -/
theorem Rely.of_same (h : SameMemory s s') (u : Thread) :
    Rely s sh s' sh u where
  swings_le := Nat.le_of_eq h.swings.symm
  takes_le := Nat.le_of_eq h.takes.symm
  tail_eq _ := h.tail
  head_eq _ := h.head
  tail_next _ a _ _ := h.next a
  head_next _ a _ _ := h.next a
  off_head _ hne := by rw [h.tail, h.head]; exact hne
  used _ hp := hp
  own _ _ := rfl
  stamp _ _ := rfl
  held _ hp := .inl hp

/-- The layout does not depend on anything but the memory and the private
nodes. -/
theorem Global.of_same (h : Global s sh) (hsame : SameMemory s s')
    (hroot : ∀ t, (s'.pc t).root = (s.pc t).root) : Global s' sh where
  path o := by
    rw [hsame.nextPtr_eq]
    have hentry : entry s' o = entry s o := by
      cases o with
      | none => exact congrArg TaggedPtr.ptr hsame.head
      | some t => exact hroot t
    rw [hentry]
    exact h.path o
  mem_chain := h.mem_chain
  tail_mem := by rw [hsame.tail]; exact h.tail_mem
  head_tag := by rw [hsame.head, hsame.takes]; exact h.head_tag
  tail_tag := by rw [hsame.tail, hsame.swings]; exact h.tail_tag
  allocated p := by rw [hsame.allocated]; exact h.allocated p
  linked o p hp := by rw [hsame.next]; exact h.linked o p hp
  unlinked p hused hoff := by rw [hsame.next]; exact h.unlinked p hused hoff
  stamps := h.stamps
  stamp_lt := h.stamp_lt

end

omit [DecidableEq P] in
/-- A step is in order if the layout is, the other threads can only see what
`Rely` allows, and the thread itself may rely on what it does next. -/
theorem Inv.of_rely {t : Thread} (hinv : Inv s sh) (hglobal : Global s' sh')
    (hpc : ∀ u, u ≠ t → s'.pc u = s.pc u)
    (hrely : ∀ u, u ≠ t → Rely s sh s' sh' u)
    (hself : Local s' sh' t (s'.pc t)) : Inv s' sh' := by
  refine ⟨hglobal, fun u => ?_⟩
  by_cases hu : u = t
  · exact hu ▸ hself
  · rw [hpc u hu]
    exact local_rely hinv.global (hrely u hu) (hinv.threads u)

omit [DecidableEq Thread] [DecidableEq P] in
/-- A step of the memory that every thread can tolerate where it stands. -/
theorem Inv.of_rely_all (hinv : Inv s sh) (hglobal : Global s' sh')
    (hpc : s'.pc = s.pc) (hrely : ∀ u, Rely s sh s' sh' u) : Inv s' sh' := by
  refine ⟨hglobal, fun u => ?_⟩
  rw [hpc]
  exact local_rely hinv.global (hrely u) (hinv.threads u)

omit [DecidableEq P] in
/-- Local steps keep the shape. -/
theorem Inv.of_same {t : Thread} (hinv : Inv s sh) (hsame : SameMemory s s')
    (hpc : ∀ u, u ≠ t → s'.pc u = s.pc u)
    (hroot : (s'.pc t).root = (s.pc t).root)
    (hself : Local s' sh t (s'.pc t)) : Inv s' sh := by
  refine hinv.of_rely (hinv.global.of_same hsame fun u => ?_) hpc
    (fun u _ => .of_same hsame u) hself
  by_cases hu : u = t
  · exact hu ▸ hroot
  · rw [hpc u hu]

/-! ## The exchange on `tail_` -/

omit [DecidableEq Thread] [DecidableEq P] in
/-- The node of `tail_` is never in front of the node of `head_`, so a
successor of `tail_` is never the node of `head_`. -/
theorem Global.next_ne_head (h : Global s sh) {a b : P}
    (ha : a ∈ sh.chain none) (hnext : nextPtr s a = some b) :
    s.head.ptr ≠ some b := by
  intro hhead
  have hpath := h.path none
  rw [entry, hhead] at hpath
  obtain ⟨l₁, l₂, hl, hrest⟩ := hpath.suffix_of_mem ha
  rw [hnext] at hrest
  -- the path from `b` would be its own proper suffix
  have heq : sh.chain none = l₂ := hpath.unique hrest
  have hlen := congrArg List.length hl
  rw [heq] at hlen
  simp at hlen
  omega

omit [DecidableEq Thread] in
/-- A successful exchange moves `tail_` one node along the chain. -/
theorem Inv.exchangeTail {tail newTail : TaggedPtr P} (hinv : Inv s sh)
    (hready : SwingReady s tail newTail) (hbound : swings s.trace < 2 ^ 64) :
    Inv (exchangeTail s tail newTail) sh := by
  unfold Queue.exchangeTail
  split
  · rename_i heq
    obtain ⟨hptr, a, ha, hseen⟩ := hready
    obtain ⟨htag, hnext⟩ := hseen.current hbound hinv.global.tail_tag heq
    have hglobal := hinv.global
    obtain ⟨b, hb⟩ := Option.ne_none_iff_exists'.mp hptr
    obtain ⟨a', ha', hta⟩ := hglobal.tail_mem
    have haa : a' = a := by
      rw [heq, ha] at hta
      exact (Option.some.inj hta).symm
    subst haa
    rw [hb] at hnext
    have hbmem : b ∈ sh.chain none := (hglobal.path none).next_mem ha' hnext
    refine hinv.of_rely_all ?_ rfl fun u => ?_
    · exact {
        path := hglobal.path
        mem_chain := hglobal.mem_chain
        tail_mem := ⟨b, hbmem, hb⟩
        head_tag := hglobal.head_tag
        tail_tag := by
          change newTail.tag = _
          rw [htag, ← heq, hglobal.tail_tag, ofNat_tag_succ]
          rfl
        allocated := hglobal.allocated
        linked := hglobal.linked
        unlinked := hglobal.unlinked
        stamps := hglobal.stamps
        stamp_lt := hglobal.stamp_lt }
    · exact {
        swings_le := Nat.le_succ _
        takes_le := Nat.le_refl _
        tail_eq := fun h => absurd h (Nat.succ_ne_self _)
        head_eq := fun _ => rfl
        tail_next := fun _ _ _ _ => rfl
        head_next := fun _ _ _ _ => rfl
        off_head := fun _ _ => by
          change newTail.ptr ≠ s.head.ptr
          rw [hb]
          exact (hglobal.next_ne_head ha' hnext).symm
        used := fun _ h => h
        own := fun _ _ => rfl
        stamp := fun _ _ => rfl
        held := fun _ h => .inl h }
  · exact hinv

omit [DecidableEq Thread] [DecidableEq P] in
/-- The node of `head_` is on its chain. -/
theorem Global.head_mem (h : Global s sh) {p : P} (hp : s.head.ptr = some p) :
    p ∈ sh.chain none := by
  have hpath := h.path none
  rw [entry, hp] at hpath
  obtain ⟨a, ha, -⟩ := h.tail_mem
  cases hchain : sh.chain none with
  | nil => rw [hchain] at ha; cases ha
  | cons b l =>
      rw [hchain] at hpath
      obtain ⟨hb, -⟩ := hpath
      cases hb
      exact List.mem_cons_self

/-! ## A node on no chain -/

section OffChain

variable {n : P} (hglobal : Global s sh) (hoff : ∀ o, sh.loc n ≠ .linked o)

include hglobal hoff

section

omit [DecidableEq Thread] [DecidableEq P]

theorem Global.ne_of_mem_chain {o : Option Thread} {p : P} (hp : p ∈ sh.chain o) : p ≠ n := by
  rintro rfl
  exact hoff o ((hglobal.mem_chain o p).mp hp)

/-- `tail_` and `head_` do not refer to it. -/
theorem Global.ne_of_entry {p : P} (hp : s.tail.ptr = some p ∨ s.head.ptr = some p) : p ≠ n := by
  rcases hp with hp | hp
  · obtain ⟨a, ha, hta⟩ := hglobal.tail_mem
    rw [hp] at hta
    cases hta
    exact hglobal.ne_of_mem_chain hoff ha
  · exact hglobal.ne_of_mem_chain hoff (hglobal.head_mem hp)

end

omit [DecidableEq Thread] in
/-- It may go to another place that is on no chain. -/
theorem Global.mem_chain_move {loc' : P → Loc Thread} (hself : ∀ o, loc' n ≠ .linked o)
    (hother : ∀ p, p ≠ n → loc' p = sh.loc p) (o : Option Thread) (p : P) :
    p ∈ sh.chain o ↔ loc' p = .linked o := by
  by_cases hp : p = n
  · subst hp
    constructor
    · intro hmem
      exact absurd ((hglobal.mem_chain o p).mp hmem) (hoff o)
    · intro h
      exact absurd h (hself o)
  · rw [hother p hp]
    exact hglobal.mem_chain o p

end OffChain

/-! ## The pool -/

/-- `allocate` hands out a node that belongs to the pool. -/
def Shape.allocate (sh : Shape Thread P) (t : Thread) (n : P) :
    Shape Thread P :=
  { sh with
    loc := Function.update sh.loc n (.raw t)
    stamp := Function.update sh.stamp n sh.clock
    clock := sh.clock + 1 }

/-- `deallocate` returns a node to the pool. -/
def Shape.release (sh : Shape Thread P) (n : P) : Shape Thread P :=
  { sh with loc := Function.update sh.loc n .pooled }

omit [DecidableEq Thread] in
theorem Inv.allocate {n : P} (hinv : Inv s sh) (t : Thread)
    (hfree : s.allocated n = false) :
    Inv { s with allocated := Function.update s.allocated n true }
      (sh.allocate t n) := by
  have hglobal := hinv.global
  have hpool : sh.loc n = .pooled := by
    by_contra hne
    rw [(hglobal.allocated n).mpr hne] at hfree
    cases hfree
  have hoff : ∀ o, sh.loc n ≠ .linked o := fun o => by rw [hpool]; simp
  have hloc : ∀ p, p ≠ n → (sh.allocate t n).loc p = sh.loc p := fun p hp =>
    Function.update_of_ne hp _ _
  have hstamp : ∀ p, p ≠ n → (sh.allocate t n).stamp p = sh.stamp p :=
    fun p hp => Function.update_of_ne hp _ _
  have hself : (sh.allocate t n).loc n = .raw t := Function.update_self ..
  have hchain : ∀ {o p}, p ∈ sh.chain o → p ≠ n := hglobal.ne_of_mem_chain hoff
  refine hinv.of_rely_all ?_ rfl fun u => ?_
  · exact {
      path := hglobal.path
      mem_chain := hglobal.mem_chain_move hoff (fun o => by rw [hself]; simp) hloc
      tail_mem := hglobal.tail_mem
      head_tag := hglobal.head_tag
      tail_tag := hglobal.tail_tag
      allocated := fun p => by
        by_cases hp : p = n
        · subst hp
          simp [hself]
        · rw [hloc p hp]
          simpa [hp] using hglobal.allocated p
      linked := fun o p hp => by
        by_cases hpn : p = n
        · subst hpn
          rw [hself] at hp
          exact absurd hp (by simp)
        · rw [hloc p hpn] at hp
          exact hglobal.linked o p hp
      unlinked := fun p hused hnot => by
        by_cases hpn : p = n
        · subst hpn
          exact hglobal.unlinked p hused hoff
        · exact hglobal.unlinked p hused fun o => by
            rw [← hloc p hpn]; exact hnot o
      stamps := fun v => by
        refine List.Pairwise.imp_of_mem ?_ (hglobal.stamps v)
        intro a b ha hb hab
        rw [hstamp a (hchain ha), hstamp b (hchain hb)]
        exact hab
      stamp_lt := fun p hp => by
        change _ < sh.clock + 1
        by_cases hpn : p = n
        · subst hpn
          simp [Shape.allocate]
        · rw [hloc p hpn] at hp
          rw [hstamp p hpn]
          exact Nat.lt_succ_of_lt (hglobal.stamp_lt p hp) }
  · exact {
      swings_le := Nat.le_refl _
      takes_le := Nat.le_refl _
      tail_eq := fun _ => rfl
      head_eq := fun _ => rfl
      tail_next := fun _ _ _ _ => rfl
      head_next := fun _ _ _ _ => rfl
      off_head := fun _ h => h
      used := fun _ h => h
      own := fun p hp => by
        refine hloc p ?_
        rintro rfl
        rw [hpool] at hp
        rcases hp with hp | hp <;> cases hp
      stamp := fun p hp => by
        refine hstamp p ?_
        rintro rfl
        exact hp hpool
      held := fun p hp => by
        by_cases hpn : p = n
        · subst hpn
          right
          simp [Shape.allocate]
        · rw [hloc p hpn] at hp
          exact .inl hp }

/-- A node that a dequeue has taken off the list goes back to the pool; only
the pointer word of its `next` changes. -/
theorem Inv.release {t : Thread} {n : P} (word : Option P) (hinv : Inv s sh)
    (hloc : sh.loc n = .retired t) (hpc : s.pc t = .idle) :
    Inv ({ s with allocated := Function.update s.allocated n false }.setNext n
      ⟨word, (s.heap n).next.tag⟩) (sh.release n) := by
  have hglobal := hinv.global
  have hoff : ∀ o, sh.loc n ≠ .linked o := fun o => by rw [hloc]; simp
  have hother : ∀ p, p ≠ n → (sh.release n).loc p = sh.loc p := fun p hp =>
    Function.update_of_ne hp _ _
  have hself : (sh.release n).loc n = .pooled := Function.update_self ..
  set s' := ({ s with allocated := Function.update s.allocated n false }.setNext
    n ⟨word, (s.heap n).next.tag⟩) with hs'
  have hheap : ∀ p, p ≠ n → s'.heap p = s.heap p := fun p hp =>
    Function.update_of_ne hp _ _
  have htag : ∀ p, (s'.heap p).next.tag = (s.heap p).next.tag := by
    intro p
    by_cases hp : p = n
    · subst hp
      simp [hs', State.setNext, State.setNode]
    · rw [hheap p hp]
  -- the node is on no chain, so the write is invisible along all of them
  refine hinv.of_rely (t := t) ?_ (fun _ _ => rfl) (fun u hu => ?_) ?_
  · exact {
      path := fun o => by
        refine (hglobal.path o).congr fun a ha => ?_
        rw [nextPtr, nextPtr, hheap a (hglobal.ne_of_mem_chain hoff ha)]
      mem_chain := hglobal.mem_chain_move hoff (fun o => by rw [hself]; simp) hother
      tail_mem := hglobal.tail_mem
      head_tag := hglobal.head_tag
      tail_tag := hglobal.tail_tag
      allocated := fun p => by
        by_cases hp : p = n
        · subst hp
          simp [hself, hs', State.setNext, State.setNode]
        · rw [hother p hp, ← hglobal.allocated p]
          simp [hs', State.setNext, State.setNode, hp]
      linked := fun o p hp => by
        have hpn : p ≠ n := by
          rintro rfl
          rw [hself] at hp
          exact absurd hp (by simp)
        rw [hother p hpn] at hp
        rw [hheap p hpn]
        exact hglobal.linked o p hp
      unlinked := fun p hused hnot => by
        rw [htag]
        by_cases hpn : p = n
        · subst hpn
          exact hglobal.unlinked p hused hoff
        · exact hglobal.unlinked p hused fun o => by
            rw [← hother p hpn]; exact hnot o
      stamps := hglobal.stamps
      stamp_lt := fun p hp => by
        have hpn : p ≠ n := by
          rintro rfl
          exact hp hself
        rw [hother p hpn] at hp
        exact hglobal.stamp_lt p hp }
  · exact {
      swings_le := Nat.le_refl _
      takes_le := Nat.le_refl _
      tail_eq := fun _ => rfl
      head_eq := fun _ => rfl
      tail_next := fun _ a ha _ => by
        rw [hheap a (hglobal.ne_of_entry hoff (.inl ha))]
      head_next := fun _ a ha _ => by
        rw [hheap a (hglobal.ne_of_entry hoff (.inr ha))]
      off_head := fun _ h => h
      used := fun _ h => h
      own := fun p hp => by
        refine hother p ?_
        rintro rfl
        rw [hloc] at hp
        rcases hp with hp | hp
        · cases hp
        · cases hp
          exact hu rfl
      stamp := fun _ _ => rfl
      held := fun p hp => by
        by_cases hpn : p = n
        · subst hpn
          rw [hself] at hp
          exact hp.elim
        · rw [hother p hpn] at hp
          exact .inl hp }
  · change Local s' (sh.release n) t (s.pc t)
    rw [hpc]
    trivial

/-! ## The construction of a node -/

/-- A constructed node is a chain of its own until it is linked. -/
def Shape.construct (sh : Shape Thread P) (t : Thread) (n : P) :
    Shape Thread P :=
  { sh with
    chain := Function.update sh.chain (some t) [n]
    loc := Function.update sh.loc n (.linked (some t))
    used := fun p => p = n ∨ sh.used p }

/-- Placement new resets `next`; the node starts its own chain. -/
theorem Inv.construct {t : Thread} {op : Nat} {value : T} {n : P}
    (hinv : Inv s sh) (hpc : s.pc t = .initNext op value n) :
    Inv ((s.setNode n { s.heap n with next := ⟨none, 0⟩, op := op }).goto t
      (.initData op value n)) (sh.construct t n) := by
  have hglobal := hinv.global
  have hraw : sh.loc n = .raw t := by
    have hlocal := hinv.threads t
    rw [hpc] at hlocal
    exact hlocal
  have hoff : ∀ o, sh.loc n ≠ .linked o := fun o => by rw [hraw]; simp
  have hempty : sh.chain (some t) = [] := by
    have hpath := hglobal.path (some t)
    rw [entry, hpc] at hpath
    exact hpath.eq_nil_of_none
  set s' := ((s.setNode n { s.heap n with next := ⟨none, 0⟩, op := op }).goto t
    (.initData op value n)) with hs'
  have hheap : ∀ p, p ≠ n → s'.heap p = s.heap p := fun p hp =>
    Function.update_of_ne hp _ _
  have hheap_self : (s'.heap n).next = ⟨none, 0⟩ := by
    simp [hs', State.goto, State.setNode]
  have hloc : ∀ p, p ≠ n → (sh.construct t n).loc p = sh.loc p := fun p hp =>
    Function.update_of_ne hp _ _
  have hloc_self : (sh.construct t n).loc n = .linked (some t) :=
    Function.update_self ..
  have hchain : ∀ o, o ≠ some t → (sh.construct t n).chain o = sh.chain o :=
    fun o ho => Function.update_of_ne ho _ _
  have hchain_self : (sh.construct t n).chain (some t) = [n] :=
    Function.update_self ..
  have hentry : ∀ o, o ≠ some t → entry s' o = entry s o := by
    intro o ho
    cases o with
    | none => rfl
    | some u =>
        have hu : u ≠ t := fun h => ho (congrArg some h)
        exact congrArg Pc.root (goto_pc_of_ne _ hu)
  refine hinv.of_rely (t := t) ?_ (fun u hu => goto_pc_of_ne _ hu)
    (fun u hu => ?_) ?_
  · exact {
      path := fun o => by
        by_cases ho : o = some t
        · subst ho
          rw [hchain_self]
          refine ⟨congrArg Pc.root (goto_pc_self t _), ?_⟩
          rw [nextPtr, hheap_self]
          rfl
        · rw [hchain o ho, hentry o ho]
          refine (hglobal.path o).congr fun a ha => ?_
          rw [nextPtr, nextPtr, hheap a (hglobal.ne_of_mem_chain hoff ha)]
      mem_chain := fun o p => by
        by_cases ho : o = some t
        · subst ho
          rw [hchain_self, List.mem_singleton]
          by_cases hp : p = n
          · subst hp
            simp [hloc_self]
          · rw [hloc p hp, ← hglobal.mem_chain, hempty]
            simp [hp]
        · rw [hchain o ho, hglobal.mem_chain]
          by_cases hp : p = n
          · subst hp
            rw [hloc_self]
            constructor
            · intro h
              exact absurd h (hoff o)
            · intro h
              cases h
              exact absurd rfl ho
          · rw [hloc p hp]
      tail_mem := by
        rw [hchain none (by simp)]
        exact hglobal.tail_mem
      head_tag := hglobal.head_tag
      tail_tag := hglobal.tail_tag
      allocated := fun p => by
        by_cases hp : p = n
        · subst hp
          have halloc : s.allocated p = true :=
            (hglobal.allocated p).mpr (by rw [hraw]; simp)
          rw [hloc_self]
          exact ⟨fun _ => by simp, fun _ => halloc⟩
        · rw [hloc p hp]
          exact hglobal.allocated p
      linked := fun o p hp => by
        by_cases hpn : p = n
        · subst hpn
          exact ⟨.inl rfl, .inl hheap_self⟩
        · rw [hloc p hpn] at hp
          obtain ⟨hused, hword⟩ := hglobal.linked o p hp
          exact ⟨.inr hused, by rw [hheap p hpn]; exact hword⟩
      unlinked := fun p hused hnot => by
        have hpn : p ≠ n := by
          rintro rfl
          exact hnot _ hloc_self
        rcases hused with rfl | hused
        · exact absurd rfl hpn
        · rw [hheap p hpn]
          exact hglobal.unlinked p hused fun o => by
            rw [← hloc p hpn]; exact hnot o
      stamps := fun u => by
        by_cases hu : some u = some t
        · rw [hu, hchain_self]
          exact List.pairwise_singleton _ _
        · rw [hchain _ hu]
          exact hglobal.stamps u
      stamp_lt := fun p hp => by
        refine hglobal.stamp_lt p ?_
        by_cases hpn : p = n
        · subst hpn
          rw [hraw]
          simp
        · rw [← hloc p hpn]
          exact hp }
  · have hnext : ∀ {a : P}, nextPtr s a ≠ none ∧ a ≠ n →
        (s'.heap a).next = (s.heap a).next := fun h => by rw [hheap _ h.2]
    exact {
      swings_le := Nat.le_refl _
      takes_le := Nat.le_refl _
      tail_eq := fun _ => rfl
      head_eq := fun _ => rfl
      tail_next := fun _ a ha h => hnext ⟨h, hglobal.ne_of_entry hoff (.inl ha)⟩
      head_next := fun _ a ha h => hnext ⟨h, hglobal.ne_of_entry hoff (.inr ha)⟩
      off_head := fun _ h => h
      used := fun _ h => .inr h
      own := fun p hp => by
        refine hloc p ?_
        rintro rfl
        rw [hraw] at hp
        rcases hp with hp | hp
        · cases hp
          exact hu rfl
        · cases hp
      stamp := fun _ _ => rfl
      held := fun p hp => by
        by_cases hpn : p = n
        · subst hpn
          rw [hraw]
          exact .inl trivial
        · rw [hloc p hpn] at hp
          exact .inl hp }
  · rw [goto_pc_self]
    trivial

/-! ## The exchange on a node's `next` -/

/-- An enqueue's chain joins the chain `o`. -/
def Shape.link (sh : Shape Thread P) (t : Thread) (o : Option Thread) :
    Shape Thread P :=
  { sh with
    chain := Function.update
      (Function.update sh.chain o (sh.chain o ++ sh.chain (some t))) (some t) []
    loc := fun p => if p ∈ sh.chain (some t) then .linked o else sh.loc p }

theorem Shape.link_chain_target {t : Thread} {o : Option Thread} (hot : o ≠ some t) :
    (sh.link t o).chain o = sh.chain o ++ sh.chain (some t) := by
  simp [Shape.link, hot]

theorem Shape.link_chain_self (t : Thread) (o : Option Thread) :
    (sh.link t o).chain (some t) = [] := by
  simp [Shape.link]

theorem Shape.link_chain_of_ne {t : Thread} {o o' : Option Thread} (hoo : o' ≠ o)
    (hot : o' ≠ some t) : (sh.link t o).chain o' = sh.chain o' := by
  simp [Shape.link, hoo, hot]

/-- Joining two chains moves every node of the second one to the first. -/
theorem Shape.link_mem_chain {t : Thread} {o : Option Thread} (hot : o ≠ some t)
    (hmem : ∀ o' p, p ∈ sh.chain o' ↔ sh.loc p = .linked o') (o' : Option Thread)
    (p : P) : p ∈ (sh.link t o).chain o' ↔ (sh.link t o).loc p = .linked o' := by
  by_cases hp : p ∈ sh.chain (some t)
  · have hloc : (sh.link t o).loc p = .linked o := if_pos hp
    rw [hloc]
    by_cases hoo : o' = o
    · subst hoo
      simp [Shape.link_chain_target hot, hp]
    · have hne : ¬ (Loc.linked o : Loc Thread) = .linked o' := by
        rintro ⟨⟩
        exact hoo rfl
      refine iff_of_false (fun hin => ?_) hne
      by_cases hot' : o' = some t
      · subst hot'
        simp [Shape.link_chain_self] at hin
      · rw [Shape.link_chain_of_ne hoo hot', hmem, (hmem _ p).mp hp] at hin
        cases hin
        exact hot' rfl
  · have hloc : (sh.link t o).loc p = sh.loc p := if_neg hp
    rw [hloc, ← hmem]
    by_cases hot' : o' = some t
    · subst hot'
      simpa [Shape.link_chain_self] using hp
    · by_cases hoo : o' = o
      · subst hoo
        simp [Shape.link_chain_target hot, hp]
      · rw [Shape.link_chain_of_ne hoo hot']

section

omit [DecidableEq Thread] [DecidableEq P]

/-- A chain starts with its youngest node. -/
theorem Global.stamp_le_entry {n y : P} {u : Thread} (h : Global s sh)
    (hentry : entry s (some u) = some n) (hy : y ∈ sh.chain (some u)) :
    sh.stamp y ≤ sh.stamp n := by
  have hpath := h.path (some u)
  have hpair := h.stamps u
  rw [hentry] at hpath
  cases hchain : sh.chain (some u) with
  | nil => rw [hchain] at hy; cases hy
  | cons b l =>
      rw [hchain] at hy hpair hpath
      obtain ⟨hb, -⟩ := hpath
      cases hb
      rcases List.mem_cons.mp hy with rfl | hyl
      · exact Nat.le_refl _
      · exact Nat.le_of_lt ((List.pairwise_cons.mp hpair).1 y hyl)

/-- A chain ends in its oldest node. -/
theorem Global.last_le_stamp {a x : P} {u : Thread} (h : Global s sh)
    (ha : a ∈ sh.chain (some u)) (hlast : nextPtr s a = none)
    (hx : x ∈ sh.chain (some u)) : sh.stamp a ≤ sh.stamp x := by
  obtain ⟨l₀, hl₀⟩ := (h.path (some u)).exists_snoc ha hlast
  have hpair := h.stamps u
  rw [hl₀] at hpair hx
  rcases List.mem_append.mp hx with hx | hx
  · exact Nat.le_of_lt ((List.pairwise_append.mp hpair).2.2 x hx a (by simp))
  · exact Nat.le_of_eq (congrArg sh.stamp (List.mem_singleton.mp hx).symm)

/-- A successful exchange on `tail->next` finds a constructed node: it is on
the chain of `head_`, or on the chain of an enqueue whose node is younger. -/
theorem Inv.link_target {t : Thread} {op : Nat} {n a : P}
    {tail next : TaggedPtr P} (hinv : Inv s sh)
    (hpc : s.pc t = .casNext op n tail next) (ha : tail.ptr = some a)
    (hfound : (s.heap a).next = next) :
    ∃ o, o ≠ some t ∧ sh.loc a = .linked o ∧
      ((sh.loc a).Held → sh.stamp n < sh.stamp a) := by
  have hglobal := hinv.global
  have hlocal := hinv.threads t
  rw [hpc] at hlocal
  obtain ⟨hnull, -, hstale⟩ := hlocal
  obtain ⟨hused, hstamp⟩ := hstale a ha
  have hlinked : ∃ o, sh.loc a = .linked o := by
    by_contra hnone
    push Not at hnone
    have htag := hglobal.unlinked a hused hnone
    rw [hfound, hnull] at htag
    cases htag
  obtain ⟨o, ho⟩ := hlinked
  refine ⟨o, ?_, ho, hstamp⟩
  rintro rfl
  -- a node behind `n` on its own chain was allocated before `n`
  have hlt : sh.stamp n < sh.stamp a := hstamp (by rw [ho]; trivial)
  have hamem := (hglobal.mem_chain _ a).mpr ho
  have hle : sh.stamp a ≤ sh.stamp n :=
    hglobal.stamp_le_entry (by rw [entry, hpc]; rfl) hamem
  omega

end

/-- The exchange on `tail->next` joins the enqueue's chain to the chain it
links behind. -/
theorem Inv.link {t : Thread} {op : Nat} {n a : P} {tail next : TaggedPtr P}
    {o : Option Thread} (hinv : Inv s sh)
    (hpc : s.pc t = .casNext op n tail next) (ha : tail.ptr = some a)
    (hfound : (s.heap a).next = next) (hot : o ≠ some t)
    (ho : sh.loc a = .linked o)
    (hstamp : (sh.loc a).Held → sh.stamp n < sh.stamp a) :
    Inv (((s.setNext a ⟨some n, next.getNextTag⟩).emit (.link op)).goto t
      (.reloadTail op n tail)) (sh.link t o) := by
  have hglobal := hinv.global
  have hlocal := hinv.threads t
  rw [hpc] at hlocal
  obtain ⟨hnull, hseen, -⟩ := hlocal
  set s' := (((s.setNext a ⟨some n, next.getNextTag⟩).emit (.link op)).goto t
    (.reloadTail op n tail)) with hs'
  have hamem : a ∈ sh.chain o := (hglobal.mem_chain o a).mpr ho
  have hlast : nextPtr s a = none := by rw [nextPtr, hfound, hnull]
  have hheap : ∀ p, p ≠ a → s'.heap p = s.heap p := fun p hp =>
    Function.update_of_ne hp _ _
  have hheap_self : (s'.heap a).next = ⟨some n, 1⟩ := by
    simp [hs', State.goto, State.emit, State.setNext, State.setNode, hnull]
  have hnextPtr : nextPtr s' = Function.update (nextPtr s) a (some n) := by
    funext p
    by_cases hp : p = a
    · subst hp
      simp [nextPtr, hheap_self]
    · simp [nextPtr, hheap p hp, hp]
  have hroot : entry s (some t) = some n := by rw [entry, hpc]; rfl
  have hmine : Path (nextPtr s) (some n) (sh.chain (some t)) none := by
    rw [← hroot]
    exact hglobal.path (some t)
  have hanot : ∀ o', o' ≠ o → a ∉ sh.chain o' := by
    intro o' hne hmem
    have := (hglobal.mem_chain o' a).mp hmem
    rw [ho] at this
    cases this
    exact hne rfl
  have hchain_o : (sh.link t o).chain o = sh.chain o ++ sh.chain (some t) :=
    Shape.link_chain_target hot
  have hchain_t : (sh.link t o).chain (some t) = [] := Shape.link_chain_self t o
  have hchain : ∀ o', o' ≠ o → o' ≠ some t →
      (sh.link t o).chain o' = sh.chain o' := fun _ => Shape.link_chain_of_ne
  have hloc_mine : ∀ p ∈ sh.chain (some t), (sh.link t o).loc p = .linked o :=
    fun p hp => if_pos hp
  have hloc : ∀ p, p ∉ sh.chain (some t) → (sh.link t o).loc p = sh.loc p :=
    fun p hp => if_neg hp
  have hmine_loc : ∀ p ∈ sh.chain (some t), sh.loc p = .linked (some t) :=
    fun p hp => (hglobal.mem_chain _ p).mp hp
  have hpcs : ∀ u, u ≠ t → s'.pc u = s.pc u := fun u hu => goto_pc_of_ne _ hu
  refine hinv.of_rely (t := t) ?_ hpcs (fun u hu => ?_) ?_
  · exact {
      path := fun o' => by
        rw [hnextPtr]
        by_cases hot' : o' = some t
        · subst hot'
          rw [hchain_t]
          exact congrArg Pc.root (goto_pc_self t _)
        · have hentry : entry s' o' = entry s o' := by
            cases o' with
            | none => rfl
            | some u => exact congrArg Pc.root (hpcs u fun h => hot' (h ▸ rfl))
          rw [hentry]
          by_cases hoo : o' = o
          · subst hoo
            rw [hchain_o]
            obtain ⟨l₀, hl₀⟩ := (hglobal.path o').exists_snoc hamem hlast
            have hpath := hglobal.path o'
            rw [hl₀] at hpath ⊢
            exact hpath.link hmine (hanot _ (Ne.symm hot'))
          · rw [hchain o' hoo hot']
            exact (hglobal.path o').update (hanot o' hoo)
      mem_chain := Shape.link_mem_chain hot hglobal.mem_chain
      tail_mem := by
        obtain ⟨b, hb, htb⟩ := hglobal.tail_mem
        refine ⟨b, ?_, htb⟩
        by_cases hoo : none = o
        · rw [hoo] at hb ⊢
          rw [hchain_o]
          exact List.mem_append_left _ hb
        · rw [hchain none hoo (by simp)]
          exact hb
      head_tag := hglobal.head_tag
      tail_tag := hglobal.tail_tag
      allocated := fun p => by
        change s.allocated p = true ↔ _
        rw [hglobal.allocated]
        by_cases hp : p ∈ sh.chain (some t)
        · rw [hloc_mine p hp, hmine_loc p hp]
          simp
        · rw [hloc p hp]
      linked := fun o' p hp => by
        have hold : ∃ o'', sh.loc p = .linked o'' := by
          by_cases hmem : p ∈ sh.chain (some t)
          · exact ⟨_, hmine_loc p hmem⟩
          · rw [hloc p hmem] at hp
            exact ⟨_, hp⟩
        obtain ⟨o'', hold⟩ := hold
        obtain ⟨hused, hword⟩ := hglobal.linked o'' p hold
        refine ⟨hused, ?_⟩
        by_cases hpa : p = a
        · subst hpa
          rw [hheap_self]
          exact .inr ⟨by simp, rfl⟩
        · rw [hheap p hpa]
          exact hword
      unlinked := fun p hused hnot => by
        have hmem : p ∉ sh.chain (some t) := fun h => hnot o (hloc_mine p h)
        have hoff : ∀ o', sh.loc p ≠ .linked o' := fun o' => by
          rw [← hloc p hmem]; exact hnot o'
        have hpa : p ≠ a := by
          rintro rfl
          exact hoff o ho
        rw [hheap p hpa]
        exact hglobal.unlinked p hused hoff
      stamps := fun u => by
        by_cases hut : some u = some t
        · rw [hut, hchain_t]
          exact List.Pairwise.nil
        · by_cases huo : some u = o
          · -- the joined chain: everything behind `a` is older than `a`
            subst huo
            rw [hchain_o]
            refine List.pairwise_append.mpr
              ⟨hglobal.stamps u, hglobal.stamps t, ?_⟩
            have han : sh.stamp n < sh.stamp a := hstamp (by rw [ho]; trivial)
            intro x hx y hy
            have hbefore := hglobal.last_le_stamp hamem hlast hx
            have hbehind := hglobal.stamp_le_entry hroot hy
            change sh.stamp y < sh.stamp x
            omega
          · rw [hchain _ huo hut]
            exact hglobal.stamps u
      stamp_lt := fun p hp => by
        refine hglobal.stamp_lt p ?_
        by_cases hmem : p ∈ sh.chain (some t)
        · rw [hmine_loc p hmem]
          simp
        · rw [← hloc p hmem]
          exact hp }
  · have hnext : ∀ {b : P}, nextPtr s b ≠ none →
        (s'.heap b).next = (s.heap b).next := by
      intro b hb
      rw [hheap b]
      rintro rfl
      exact hb hlast
    exact {
      swings_le := Nat.le_refl _
      takes_le := Nat.le_refl _
      tail_eq := fun _ => rfl
      head_eq := fun _ => rfl
      tail_next := fun _ _ _ h => hnext h
      head_next := fun _ _ _ h => hnext h
      off_head := fun _ h => h
      used := fun _ h => h
      own := fun p hp => by
        refine hloc p fun hmem => ?_
        rw [hmine_loc p hmem] at hp
        rcases hp with hp | hp <;> cases hp
      stamp := fun _ _ => rfl
      held := fun p hp => by
        by_cases hmem : p ∈ sh.chain (some t)
        · rw [hmine_loc p hmem]
          exact .inl trivial
        · rw [hloc p hmem] at hp
          exact .inl hp }
  · rw [goto_pc_self]
    obtain ⟨b, hb, hseen⟩ := hseen
    rw [ha] at hb
    cases hb
    refine ⟨a, ha, hseen.mono (Nat.le_refl _) (fun _ => rfl) fun _ _ _ => ?_⟩
    exact congrArg TaggedPtr.ptr hheap_self

/-! ## The exchange on `head_` -/

/-- The first node of the queue is taken off by a dequeue. -/
def Shape.take (sh : Shape Thread P) (t : Thread) (h : P) : Shape Thread P :=
  { sh with
    chain := Function.update sh.chain none (sh.chain none).tail
    loc := Function.update sh.loc h (.retired t) }

section

omit [DecidableEq Thread] [DecidableEq P]

/-- As long as `head_` is what a dequeue loaded, the node it loaded is first on
the chain, its successor is second, and `tail_` is past the first. -/
theorem Inv.window_chain {h x : P} {head next : TaggedPtr P} (hinv : Inv s sh)
    (hbound : takes s.trace < 2 ^ 64)
    (hready : HeadSeen s head fun h =>
      (s.heap h).next = next ∧ s.tail.ptr ≠ head.ptr)
    (hh : head.ptr = some h) (hx : next.ptr = some x) (heq : s.head = head) :
    s.tail.ptr ≠ some h ∧ ∃ rest, sh.chain none = h :: x :: rest := by
  have hglobal := hinv.global
  obtain ⟨h', hh', hseen⟩ := hready
  rw [hh] at hh'
  cases hh'
  obtain ⟨hnext, htail⟩ := hseen.current hbound hglobal.head_tag heq
  rw [hh] at htail
  refine ⟨htail, ?_⟩
  have hpath := hglobal.path none
  rw [entry, heq, hh] at hpath
  obtain ⟨a, ha, hta⟩ := hglobal.tail_mem
  cases hchain : sh.chain none with
  | nil => rw [hchain] at ha; cases ha
  | cons b l =>
      rw [hchain] at hpath ha
      obtain ⟨hb, hrest⟩ := hpath
      cases hb
      rw [nextPtr, hnext, hx] at hrest
      cases l with
      | nil => exact absurd hrest (by simp)
      | cons c l =>
          obtain ⟨hc, -⟩ := hrest
          cases hc
          exact ⟨l, rfl⟩

/-- A head loaded before a successful exchange on `head_` is not found again
after it. -/
theorem HeadSeen.stale {head : TaggedPtr P} {fact : P → Prop}
    (h : HeadSeen s head fact) (hbound : takes s.trace + 1 < 2 ^ 64)
    (htag : s'.head.tag = UInt64.ofNat (takes s.trace + 1)) :
    s'.head ≠ head := by
  rintro rfl
  obtain ⟨a, -, k, hk, hold, -⟩ := h
  have := ofNat_tag_inj (by omega) hbound (hold.symm.trans htag)
  omega

end

/-- The exchange on `head_` takes the dummy off the chain and makes its
successor the dummy. -/
theorem Inv.take {h x : P} {rest : List P} {tag : UInt64} (t : Thread)
    (op item : Nat) (hinv : Inv s sh)
    (hchain : sh.chain none = h :: x :: rest) (htail : s.tail.ptr ≠ some h)
    (htag : tag = s.head.tag + 1) :
    Inv ({ s with head := ⟨some x, tag⟩ }.emit (.take op item))
      (sh.take t h) := by
  have hglobal := hinv.global
  have hpath := hglobal.path none
  rw [hchain] at hpath
  obtain ⟨hhead, hx, -⟩ := hpath
  have hloc_h : sh.loc h = .linked none :=
    (hglobal.mem_chain none h).mp (by rw [hchain]; exact List.mem_cons_self)
  have hnodup := (hglobal.path none).nodup
  rw [hchain] at hnodup
  have hnot : h ∉ x :: rest := (List.nodup_cons.mp hnodup).1
  have hchain_none : (sh.take t h).chain none = x :: rest := by
    simp [Shape.take, hchain]
  have hchain_some : ∀ u, (sh.take t h).chain (some u) = sh.chain (some u) :=
    fun u => by simp [Shape.take]
  have hloc : ∀ p, p ≠ h → (sh.take t h).loc p = sh.loc p := fun p hp =>
    Function.update_of_ne hp _ _
  have hloc_self : (sh.take t h).loc h = .retired t := Function.update_self ..
  refine hinv.of_rely_all ?_ rfl fun u => ?_
  · exact {
      path := fun o => by
        cases o with
        | none =>
            rw [hchain_none]
            have hpath := hglobal.path none
            rw [hchain] at hpath
            refine ⟨rfl, ?_⟩
            exact hpath.2.2
        | some u =>
            rw [hchain_some]
            exact hglobal.path (some u)
      mem_chain := fun o p => by
        by_cases hp : p = h
        · subst hp
          rw [hloc_self]
          constructor
          · intro hmem
            cases o with
            | none => rw [hchain_none] at hmem; exact absurd hmem hnot
            | some u =>
                rw [hchain_some, hglobal.mem_chain, hloc_h] at hmem
                exact absurd hmem (by simp)
          · intro hmem
            exact absurd hmem (by simp)
        · rw [hloc p hp, ← hglobal.mem_chain]
          cases o with
          | none =>
              rw [hchain_none, hchain]
              simp [hp]
          | some u => rw [hchain_some]
      tail_mem := by
        obtain ⟨a, ha, hta⟩ := hglobal.tail_mem
        refine ⟨a, ?_, hta⟩
        rw [hchain_none]
        rw [hchain] at ha
        rcases List.mem_cons.mp ha with rfl | ha
        · exact absurd hta htail
        · exact ha
      head_tag := by
        change tag = _
        rw [htag, hglobal.head_tag, ofNat_tag_succ]
        rfl
      tail_tag := hglobal.tail_tag
      allocated := fun p => by
        change s.allocated p = true ↔ _
        rw [hglobal.allocated]
        by_cases hp : p = h
        · subst hp
          rw [hloc_self, hloc_h]
          simp
        · rw [hloc p hp]
      linked := fun o p hp => by
        have hph : p ≠ h := by
          rintro rfl
          rw [hloc_self] at hp
          cases hp
        rw [hloc p hph] at hp
        exact hglobal.linked o p hp
      unlinked := fun p hused hoff => by
        by_cases hp : p = h
        · subst hp
          rcases (hglobal.linked none p hloc_h).2 with hnull | ⟨-, h1⟩
          · rw [nextPtr, hnull] at hx
            cases hx
          · exact h1
        · exact hglobal.unlinked p hused fun o => by
            rw [← hloc p hp]; exact hoff o
      stamps := fun u => by
        rw [hchain_some]
        exact hglobal.stamps u
      stamp_lt := fun p hp => by
        refine hglobal.stamp_lt p ?_
        by_cases hph : p = h
        · subst hph
          rw [hloc_h]
          simp
        · rw [← hloc p hph]
          exact hp }
  · exact {
      swings_le := Nat.le_refl _
      takes_le := Nat.le_succ _
      tail_eq := fun _ => rfl
      head_eq := fun h => absurd h (Nat.succ_ne_self _)
      tail_next := fun _ _ _ _ => rfl
      head_next := fun h => absurd h (Nat.succ_ne_self _)
      off_head := fun h => absurd h (Nat.succ_ne_self _)
      used := fun _ hp => hp
      own := fun p hp => by
        refine hloc p ?_
        rintro rfl
        rw [hloc_h] at hp
        rcases hp with hp | hp <;> cases hp
      stamp := fun _ _ => rfl
      held := fun p hp => by
        by_cases hph : p = h
        · subst hph
          rw [hloc_self] at hp
          exact hp.elim
        · rw [hloc p hph] at hp
          exact .inl hp }

end Queue
end Lockfree
end Cyan

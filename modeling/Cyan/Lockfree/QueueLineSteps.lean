import Cyan.Lockfree.QueueLine

/-!
# Moving along the line

One lemma for each way in which a step of the queue moves along the line of its nodes:
the exchange on `tail_` (`InLine.exchange`), the exchange on `head_` (`InLine.take`) and
the exchange on the last node's `next` (`InLine.link`), and those for the pool and the
constructor.  `InLine.step` puts them together.
-/

namespace Cyan
namespace Lockfree
namespace Queue

open Base

variable {Thread P T : Type*} [DecidableEq Thread] [DecidableEq P]
variable {s s' : State Thread P T} {used used' : P → Bool} {row row' : List P}
variable {h h' l l' : Nat}

/-! ## Steps that move along the line -/

section

omit [DecidableEq Thread] [DecidableEq P]

/-- Two positions with the same node are the same. -/
theorem Line.position (hline : Line s used row h l) {i j : Nat} (hi : i < row.length)
    (heq : row[i]? = row[j]?) : i = j :=
  (List.getElem?_inj hi hline.nodup).mp heq

/-- Nothing changes for the threads when a field moves forward. -/
theorem Threads.later (hline : Line s used row h l) (hthreads : Threads s used row h l)
    (hlater : Later s row h l s' row h' l') (hpc : s'.pc = s.pc) (hheap : s'.heap = s.heap)
    (htrace : s.trace.length ≤ s'.trace.length) : Threads s' used row h' l' where
  own hn := hthreads.own (hpc ▸ hn)
  one hn hn' := hthreads.one (hpc ▸ hn) (hpc ▸ hn')
  built hn := by
    rw [hpc] at hn ⊢
    rw [hheap]
    exact hthreads.built hn
  asks hop := by
    rw [hpc] at hop
    rw [hheap]
    obtain ⟨hlt, hfresh⟩ := hthreads.asks hop
    exact ⟨Nat.lt_of_lt_of_le hlt htrace, hfresh⟩
  asksOne hop hop' := hthreads.asksOne (hpc ▸ hop) (hpc ▸ hop')
  sees t := by
    rw [hpc]
    exact hlater.sees (Nat.lt_of_le_of_lt hline.le hline.lt) hline.lt (hthreads.sees t)

end

omit [DecidableEq Thread] in
/-- The exchange on `tail_` moves it to the next node, or it has moved before. -/
theorem InLine.exchange {tail newTail : TaggedPtr P} (hin : InLine s used row h l)
    (hready : TailAt s row l tail fun i => newTail.ptr = row[i + 1]? ∧ i + 1 < row.length) :
    ∃ l', InLine (exchangeTail s tail newTail) used row h l' ∧
      ∀ {i}, i ≤ l → tail.ptr = row[i]? → i + 1 ≤ l' := by
  have hline := hin.shape
  obtain ⟨i, hi, hptr, hnow, hnext, hlt⟩ := hready
  have hpos : ∀ {j}, j ≤ l → tail.ptr = row[j]? → j = i := by
    intro j hj hjptr
    have hjl : j < row.length := Nat.lt_of_le_of_lt hj hline.lt
    exact hline.position hjl (hjptr.symm.trans hptr)
  unfold exchangeTail
  split
  · rename_i hsame
    obtain rfl : l = i := by
      refine hline.position hline.lt ?_
      rw [← hline.tail, hsame, hptr]
    refine ⟨l + 1, ⟨?_, ?_⟩, fun hj hjptr => Nat.le_of_eq (by rw [hpos hj hjptr])⟩
    · exact {
        nodup := hline.nodup
        head := hline.head
        tail := hnext
        le := Nat.le_succ_of_le hline.le
        lt := hlt
        next := hline.next
        tag := hline.tag
        used := hline.used
        linked := fun hi hp => List.mem_cons_of_mem _ (hline.linked hi hp)
        returned := fun hmem => by
          obtain ⟨j, p, hj, hjl, hp⟩ :=
            hline.returned ((Event.mem_cons_of_silent (by rfl) (by rfl)).mp hmem)
          exact ⟨j, p, hj, Nat.le_succ_of_le hjl, hp⟩
        taken := fun hi hih hp => by
          obtain ⟨d, hd⟩ := hline.taken hi hih hp
          exact ⟨d, List.mem_cons_of_mem _ hd⟩
        takes := fun hmem =>
          hline.takes ((Event.mem_cons_of_silent (by rfl) (by rfl)).mp hmem)
        ops := hline.ops
        old := fun hi hp => Nat.lt_succ_of_lt (hline.old hi hp) }
    · refine hin.threads.later hline ?_ rfl rfl (Nat.le_succ _)
      exact ⟨List.prefix_refl row, Nat.le_refl h, Nat.le_succ l, fun heq => by omega,
        fun _ _ => rfl⟩
  · rename_i hother
    refine ⟨l, hin, fun {j} hj hjptr => ?_⟩
    have hne : j ≠ l := by
      rintro rfl
      exact hother (hnow (hpos hj hjptr).symm)
    omega

omit [DecidableEq Thread] [DecidableEq P] in
/-- An enqueue returns behind `tail_`. -/
theorem InLine.emitReturn {op : Nat} (hin : InLine s used row h l)
    (hret : ∃ i p, 0 < i ∧ i ≤ l ∧ row[i]? = some p ∧ (s.heap p).op = op) :
    InLine (s.emit (.retEnqueue op)) used row h l := by
  have hline := hin.shape
  refine ⟨?_, hin.threads.later hline ?_ rfl rfl (Nat.le_succ _)⟩
  · exact { hline with
      linked := fun hi hp => List.mem_cons_of_mem _ (hline.linked hi hp)
      returned := fun hmem => by
        rcases List.mem_cons.mp hmem with heq | hmem
        · cases heq
          exact hret
        · exact hline.returned hmem
      taken := fun hi hih hp => by
        obtain ⟨d, hd⟩ := hline.taken hi hih hp
        exact ⟨d, List.mem_cons_of_mem _ hd⟩
      takes := fun hmem => by
        rcases List.mem_cons.mp hmem with heq | hmem
        · cases heq
        · exact hline.takes hmem
      old := fun hi hp => Nat.lt_succ_of_lt (hline.old hi hp) }
  · exact ⟨List.prefix_refl row, Nat.le_refl h, Nat.le_refl l, fun _ => rfl, fun _ _ => rfl⟩

omit [DecidableEq P] in
/-- The exchange on `head_` moves it to the next node. -/
theorem InLine.take {t : Thread} {op : Nat} {value : T} {next : TaggedPtr P} {old : T × T}
    {a x : P} (hin : InLine s used row h l)
    (hpc : s.pc t = .casHead op value s.head next old) (ha : s.head.ptr = some a)
    (hx : next.ptr = some x) :
    InLine (({ s with head := ⟨next.ptr, s.head.getNextTag⟩ }.emit
      (.take op (s.heap x).op)).goto t (.deallocate op value (s.heap x).op a))
      used row (h + 1) l := by
  have hline := hin.shape
  have hsees := hin.threads.sees t
  rw [hpc] at hsees
  obtain ⟨j, hj, hptr, hnext, hjl⟩ := hsees
  have hpos : h = j := by
    refine hline.position (Nat.lt_of_le_of_lt hline.le hline.lt) ?_
    rw [← hline.head, hptr]
  subst hpos
  -- `next` was loaded from the node that `head_` still points to
  have hxnext : row[h + 1]? = some x := by
    rcases hnext with hback | hnull | ⟨hnext, -⟩
    · exact absurd hback (Nat.lt_irrefl h)
    · rw [hnull] at hx
      cases hx
    · rw [← hnext, hx]
  refine ⟨?_, hin.threads.step (t := t) hline ?_ ?_ (fun _ hn => hn) (Nat.le_succ _)
    (fun _ _ _ => ⟨rfl, rfl⟩) (fun i p hp => .inl hp) ?_ ?_ ?_ ?_⟩
  · exact {
      nodup := hline.nodup
      head := by
        show next.ptr = _
        rw [hx, hxnext]
      tail := hline.tail
      le := hjl
      lt := hline.lt
      next := fun hi hp => hline.next (by omega) hp
      tag := hline.tag
      used := hline.used
      linked := fun hi hp => List.mem_cons_of_mem _ (hline.linked hi hp)
      returned := fun hmem => by
        rcases List.mem_cons.mp hmem with heq | hmem
        · cases heq
        · exact hline.returned hmem
      taken := fun {i p} hi hih hp => by
        rcases Nat.lt_or_ge h i with hlast | hbefore
        · obtain rfl : i = h + 1 := by omega
          rw [hxnext] at hp
          cases hp
          exact ⟨op, List.mem_cons_self ..⟩
        · obtain ⟨d, hd⟩ := hline.taken hi hbefore hp
          exact ⟨d, List.mem_cons_of_mem _ hd⟩
      takes := fun hmem => by
        rcases List.mem_cons.mp hmem with heq | hmem
        · cases heq
          exact ⟨h + 1, x, Nat.succ_pos h, Nat.le_refl _, hxnext, rfl⟩
        · obtain ⟨i, p, hi, hih, hp⟩ := hline.takes hmem
          exact ⟨i, p, hi, Nat.le_succ_of_le hih, hp⟩
      ops := hline.ops
      old := fun hi hp => Nat.lt_succ_of_lt (hline.old hi hp) }
  · exact ⟨List.prefix_refl row, Nat.le_succ h, Nat.le_refl l, fun _ => rfl, fun _ _ => rfl⟩
  · exact fun u hu => goto_pc_of_ne _ hu
  · rw [goto_pc_self]
    intro n hn
    cases hn
  · rw [goto_pc_self]
    intro n hn
    cases hn
  · rw [goto_pc_self]
    intro op hop
    cases hop
  · rw [goto_pc_self]
    exact ⟨h, Nat.lt_succ_self h, by rw [← hline.head, ha]⟩

/-- The pool hands out a node that has never been used. -/
theorem InLine.allocate {t : Thread} {op : Nat} {value : T} {n : P}
    (hin : InLine s used row h l) (hpc : s.pc t = .allocate op value)
    (hfresh : used n = false) :
    InLine ({ s with allocated := Function.update s.allocated n true }.goto t
      (.initNext op value n)) (Function.update used n true) row h l := by
  have hused : ∀ p, used p = true → Function.update used n true p = true := by
    intro p hp
    by_cases hpn : p = n
    · rw [hpn, Function.update_self]
    · rw [Function.update_of_ne hpn, hp]
  have halike : Alike s row h ({ s with
      allocated := Function.update s.allocated n true }.goto t (.initNext op value n)) :=
    ⟨rfl, rfl, fun _ _ => rfl, fun _ _ => rfl, fun _ _ _ => rfl, .inl rfl⟩
  have hasks : (s.pc t).asks = some op := by
    rw [hpc]
    rfl
  refine ⟨halike.keeps hin.shape hused, hin.threads.step (t := t) hin.shape halike.later ?_
    hused (Nat.le_refl _) (fun _ _ _ => ⟨rfl, rfl⟩) (fun i p hp => .inl hp) ?_ ?_ ?_ ?_⟩
  · exact fun u hu => goto_pc_of_ne _ hu
  · rw [goto_pc_self]
    intro p hp
    cases hp
    refine ⟨Function.update_self .., fun hmem => ?_, .inr hfresh⟩
    rw [hin.shape.used n hmem] at hfresh
    cases hfresh
  · rw [goto_pc_self]
    intro p hp
    cases hp
  · rw [goto_pc_self]
    intro op' hop
    cases hop
    obtain ⟨hlt, hne⟩ := hin.threads.asks hasks
    exact ⟨hlt, hne, .inl hasks⟩
  · rw [goto_pc_self]
    trivial

/-- The constructor resets `next` of the thread's own node. -/
theorem InLine.initNext {t : Thread} {op : Nat} {value : T} {n : P}
    (hin : InLine s used row h l) (hpc : s.pc t = .initNext op value n) :
    InLine ((s.setNode n { s.heap n with next := ⟨none, 0⟩, op := op }).goto t
      (.initData op value n)) used row h l := by
  have hown : (s.pc t).own = some n := by
    rw [hpc]
    rfl
  have hasks : (s.pc t).asks = some op := by
    rw [hpc]
    rfl
  obtain ⟨hused, hoff⟩ := hin.threads.own hown
  have hother : ∀ {p}, p ≠ n → (s.setNode n { s.heap n with
      next := ⟨none, 0⟩, op := op }).heap p = s.heap p :=
    fun hp => Function.update_of_ne hp ..
  have hline : ∀ {p}, p ∈ row → p ≠ n := fun hp heq => hoff (heq ▸ hp)
  have halike : Alike s row h ((s.setNode n { s.heap n with
      next := ⟨none, 0⟩, op := op }).goto t (.initData op value n)) :=
    ⟨rfl, rfl, fun p hp => congrArg Node.op (hother (hline hp)),
      fun p hp => congrArg (fun x => x.next.tag) (hother (hline hp)),
      fun p hp _ => congrArg (fun x => x.next.ptr) (hother (hline hp)), .inl rfl⟩
  refine ⟨halike.keeps hin.shape fun _ hp => hp,
    hin.threads.step (t := t) hin.shape halike.later ?_ (fun _ hp => hp) (Nat.le_refl _) ?_
      (fun i p hp => .inl hp) ?_ ?_ ?_ ?_⟩
  · exact fun u hu => goto_pc_of_ne _ hu
  · intro p _ hp
    have hpn : p ≠ n := fun heq => hp (heq ▸ hown)
    exact ⟨congrArg Node.next (hother hpn), congrArg Node.op (hother hpn)⟩
  · rw [goto_pc_self]
    intro p hp
    cases hp
    exact ⟨hused, hoff, .inl hown⟩
  · rw [goto_pc_self]
    intro p hp
    cases hp
    have hself : (s.setNode n { s.heap n with next := ⟨none, 0⟩, op := op }).heap n =
        { s.heap n with next := ⟨none, 0⟩, op := op } := Function.update_self ..
    show ((s.setNode n _).heap n).next = _ ∧ _ = some ((s.setNode n _).heap n).op
    rw [hself]
    exact ⟨rfl, rfl⟩
  · rw [goto_pc_self]
    intro op' hop
    cases hop
    obtain ⟨hlt, hne⟩ := hin.threads.asks hasks
    refine ⟨hlt, fun i p hi hp heq => hne i p hi hp ?_, .inl hasks⟩
    rw [← heq]
    exact (halike.op p (List.mem_of_getElem? hp)).symm
  · rw [goto_pc_self]
    trivial

omit [DecidableEq P] in
/-- What stands in a row with one more node at its end. -/
theorem snoc_cases {n p : P} {j : Nat} (hp : (row ++ [n])[j]? = some p) :
    row[j]? = some p ∧ j < row.length ∨ j = row.length ∧ p = n := by
  have hj := (List.getElem?_eq_some_iff.mp hp).1
  rw [List.length_append, List.length_singleton] at hj
  by_cases hjl : j < row.length
  · rw [List.getElem?_append_left hjl] at hp
    exact .inl ⟨hp, hjl⟩
  · obtain rfl : j = row.length := by omega
    rw [List.getElem?_concat_length] at hp
    exact .inr ⟨rfl, (Option.some.inj hp).symm⟩

/-- Node `n`, which an enqueue has built, is linked behind the last node `a`. -/
structure Links (s s' : State Thread P T) (row : List P) (op : Nat) (a n : P) : Prop where
  head : s'.head = s.head
  tail : s'.tail = s.tail
  trace : s'.trace = .link op :: s.trace
  self : (s'.heap a).next = ⟨some n, 1⟩
  other : ∀ p, p ≠ a → (s'.heap p).next = (s.heap p).next
  ops : ∀ p, (s'.heap p).op = (s.heap p).op
  /-- `a` is the last node -/
  last : ∃ i, row[i]? = some a ∧ i + 1 = row.length
  /-- `n` is new, and it carries the item of `op` -/
  off : n ∉ row
  null : (s.heap n).next = ⟨none, 0⟩
  item : (s.heap n).op = op
  old : op < s.trace.length
  fresh : ∀ j p, 0 < j → row[j]? = some p → (s.heap p).op ≠ op

section

omit [DecidableEq Thread] [DecidableEq P]

/-- A node of the row that is not the last has a successor in it. -/
theorem Links.before {op : Nat} {a n p : P} {j : Nat} (hlinks : Links s s' row op a n)
    (hp : row[j]? = some p) (hpa : p ≠ a) : j + 1 < row.length := by
  obtain ⟨i, hai, hlast⟩ := hlinks.last
  have hj := (List.getElem?_eq_some_iff.mp hp).1
  by_contra hge
  obtain rfl : j = i := by omega
  rw [hai] at hp
  exact hpa (Option.some.inj hp).symm

/-- Where the last node stands. -/
theorem Links.atEnd {op : Nat} {a n : P} {j : Nat} (hlinks : Links s s' row op a n)
    (hline : Line s used row h l) (hp : row[j]? = some a) : j + 1 = row.length := by
  obtain ⟨i, hai, hlast⟩ := hlinks.last
  rw [hline.position (List.getElem?_eq_some_iff.mp hp).1 (hp.trans hai.symm)]
  exact hlast

/-- The new node is not the one that it is linked to. -/
theorem Links.ne {op : Nat} {a n : P} (hlinks : Links s s' row op a n) : n ≠ a := by
  obtain ⟨i, hai, -⟩ := hlinks.last
  rintro rfl
  exact hlinks.off (List.mem_of_getElem? hai)

end

omit [DecidableEq Thread] in
/-- The row grows at its end. -/
theorem Line.link {op : Nat} {a n : P} (hline : Line s used row h l)
    (hlinks : Links s s' row op a n) (hused : used n = true) :
    Line s' used (row ++ [n]) h l := by
  have hget : ∀ {j}, j < row.length → (row ++ [n])[j]? = row[j]? :=
    fun hj => List.getElem?_append_left hj
  have hhl : h < row.length := Nat.lt_of_le_of_lt hline.le hline.lt
  exact {
    nodup := List.nodup_append.mpr ⟨hline.nodup, List.nodup_singleton n, fun p hp q hq => by
      rw [List.mem_singleton.mp hq]
      exact fun heq => hlinks.off (heq ▸ hp)⟩
    head := by
      rw [hlinks.head, hget hhl]
      exact hline.head
    tail := by
      rw [hlinks.tail, hget hline.lt]
      exact hline.tail
    le := hline.le
    lt := by
      rw [List.length_append]
      exact Nat.lt_succ_of_lt hline.lt
    next := fun {j p} hj hp => by
      rcases snoc_cases hp with ⟨hp, hjl⟩ | ⟨rfl, rfl⟩
      · by_cases hpa : p = a
        · subst hpa
          rw [hlinks.self, hlinks.atEnd hline hp, List.getElem?_concat_length]
        · rw [hlinks.other p hpa, hget (hlinks.before hp hpa)]
          exact hline.next hj hp
      · rw [hlinks.other _ hlinks.ne, hlinks.null]
        exact (List.getElem?_eq_none (by simp)).symm
    tag := fun {j p} hp => by
      rw [List.length_append, List.length_singleton]
      rcases snoc_cases hp with ⟨hp, hjl⟩ | ⟨rfl, rfl⟩
      · rw [if_pos (by omega)]
        by_cases hpa : p = a
        · rw [hpa, hlinks.self]
        · rw [hlinks.other p hpa, hline.tag hp, if_pos (hlinks.before hp hpa)]
      · rw [hlinks.other _ hlinks.ne, hlinks.null, if_neg (by omega)]
    used := fun p hp => by
      rcases List.mem_append.mp hp with hp | hp
      · exact hline.used p hp
      · rw [List.mem_singleton.mp hp]
        exact hused
    linked := fun {j p} hj hp => by
      rw [hlinks.ops, hlinks.trace]
      rcases snoc_cases hp with ⟨hp, -⟩ | ⟨-, rfl⟩
      · exact List.mem_cons_of_mem _ (hline.linked hj hp)
      · rw [hlinks.item]
        exact List.mem_cons_self ..
    returned := fun hmem => by
      rw [hlinks.trace] at hmem
      rcases List.mem_cons.mp hmem with heq | hmem
      · cases heq
      · obtain ⟨j, p, hj, hjl, hp, heq⟩ := hline.returned hmem
        exact ⟨j, p, hj, hjl, (hget (Nat.lt_of_le_of_lt hjl hline.lt)).trans hp,
          (hlinks.ops p).trans heq⟩
    taken := fun {j p} hj hjh hp => by
      rw [hlinks.ops, hlinks.trace]
      obtain ⟨d, hd⟩ := hline.taken hj hjh
        ((hget (Nat.lt_of_le_of_lt hjh hhl)).symm.trans hp)
      exact ⟨d, List.mem_cons_of_mem _ hd⟩
    takes := fun hmem => by
      rw [hlinks.trace] at hmem
      rcases List.mem_cons.mp hmem with heq | hmem
      · cases heq
      · obtain ⟨j, p, hj, hjh, hp, heq⟩ := hline.takes hmem
        have hjl : j < row.length := (List.getElem?_eq_some_iff.mp hp).1
        exact ⟨j, p, hj, hjh, (hget hjl).trans hp, (hlinks.ops p).trans heq⟩
    ops := fun {j k p q} hj hk hp hq heq => by
      have hsame : (s.heap p).op = (s.heap q).op :=
        (hlinks.ops p).symm.trans (heq.trans (hlinks.ops q))
      rcases snoc_cases hp with ⟨hpold, -⟩ | ⟨hjend, hpn⟩
      · rcases snoc_cases hq with ⟨hqold, -⟩ | ⟨-, hqn⟩
        · exact hline.ops hj hk hpold hqold hsame
        · rw [hqn, hlinks.item] at hsame
          exact absurd hsame (hlinks.fresh j p hj hpold)
      · rcases snoc_cases hq with ⟨hqold, -⟩ | ⟨hkend, -⟩
        · rw [hpn, hlinks.item] at hsame
          exact absurd hsame.symm (hlinks.fresh k q hk hqold)
        · rw [hjend, hkend]
    old := fun {j p} hj hp => by
      rw [hlinks.ops, hlinks.trace, List.length_cons]
      rcases snoc_cases hp with ⟨hp, -⟩ | ⟨-, rfl⟩
      · exact Nat.lt_succ_of_lt (hline.old hj hp)
      · rw [hlinks.item]
        exact Nat.lt_succ_of_lt hlinks.old }

/-- The exchange on the last node's `next` is such a link. -/
theorem InLine.links {t : Thread} {op : Nat} {n a : P} {tail next : TaggedPtr P}
    (hin : InLine s used row h l) (hpc : s.pc t = .casNext op n tail next)
    (ha : tail.ptr = some a) (hfound : (s.heap a).next = next) :
    Links s (((s.setNext a ⟨some n, next.getNextTag⟩).emit (.link op)).goto t
      (.reloadTail op n tail)) row op a n := by
  have hline := hin.shape
  have hsees := hin.threads.sees t
  rw [hpc] at hsees
  obtain ⟨rfl, i, hi, hptr, -, -⟩ := hsees
  have hasks : (s.pc t).asks = some op := by
    rw [hpc]
    rfl
  have hoff := (hin.threads.own (t := t) (n := n) (by rw [hpc]; rfl)).2
  obtain ⟨hnull, hop⟩ := hin.threads.built (t := t) (n := n) (by rw [hpc]; rfl)
  rw [hasks] at hop
  obtain ⟨hlt, hfresh⟩ := hin.threads.asks hasks
  have hai : row[i]? = some a := hptr.symm.trans ha
  -- the word is still the reset one, so the node is the last
  have hlast : i + 1 = row.length := by
    have htag := hline.tag hai
    rw [hfound] at htag
    have hil : i < row.length := (List.getElem?_eq_some_iff.mp hai).1
    by_contra hne
    rw [if_pos (by omega)] at htag
    cases htag
  have hself : (s.setNext a ⟨some n, (⟨none, 0⟩ : TaggedPtr P).getNextTag⟩).heap a =
      { s.heap a with next := ⟨some n, 1⟩ } := by
    show Function.update s.heap a _ a = _
    rw [Function.update_self, TaggedPtr.getNextTag_eq]
    rfl
  have hother : ∀ p, p ≠ a →
      (s.setNext a ⟨some n, (⟨none, 0⟩ : TaggedPtr P).getNextTag⟩).heap p = s.heap p :=
    fun p hp => Function.update_of_ne hp ..
  exact {
    head := rfl
    tail := rfl
    trace := rfl
    self := congrArg Node.next hself
    other := fun p hp => congrArg Node.next (hother p hp)
    ops := fun p => by
      by_cases hpa : p = a
      · rw [hpa]
        exact (congrArg Node.op hself).trans rfl
      · exact congrArg Node.op (hother p hpa)
    last := ⟨i, hai, hlast⟩
    off := hoff
    null := hnull
    item := (Option.some.inj hop).symm
    old := hlt
    fresh := hfresh }

/-- The exchange on the last node's `next` puts a new node at the end of the line. -/
theorem InLine.link {t : Thread} {op : Nat} {n a : P} {tail next : TaggedPtr P}
    (hin : InLine s used row h l) (hpc : s.pc t = .casNext op n tail next)
    (ha : tail.ptr = some a) (hfound : (s.heap a).next = next) :
    InLine (((s.setNext a ⟨some n, next.getNextTag⟩).emit (.link op)).goto t
      (.reloadTail op n tail)) used (row ++ [n]) h l := by
  have hline := hin.shape
  have hlinks := hin.links hpc ha hfound
  have hsees := hin.threads.sees t
  rw [hpc] at hsees
  obtain ⟨-, i, hi, hptr, hnow, -⟩ := hsees
  have hown : (s.pc t).own = some n := by
    rw [hpc]
    rfl
  have hasks : (s.pc t).asks = some op := by
    rw [hpc]
    rfl
  have hai : row[i]? = some a := hptr.symm.trans ha
  have hlast : i + 1 = row.length := hlinks.atEnd hline hai
  refine ⟨hline.link hlinks (hin.threads.own hown).1,
    hin.threads.step (t := t) hline ?_ ?_ (fun _ hp => hp) (Nat.le_succ _) ?_ ?_ ?_ ?_ ?_ ?_⟩
  · exact ⟨List.prefix_append row [n], Nat.le_refl h, Nat.le_refl l, fun _ => rfl,
      fun p _ => hlinks.ops p⟩
  · exact fun u hu => goto_pc_of_ne _ hu
  · intro p hp _
    have hpa : p ≠ a := fun heq => hp (heq ▸ List.mem_of_getElem? hai)
    exact ⟨hlinks.other p hpa, hlinks.ops p⟩
  · intro j p hp
    rcases snoc_cases hp with ⟨hp, -⟩ | ⟨-, rfl⟩
    · exact .inl hp
    · exact .inr ⟨hown, hasks.trans (congrArg some ((hlinks.ops p).trans hlinks.item).symm)⟩
  · rw [goto_pc_self]
    intro p hp
    cases hp
  · rw [goto_pc_self]
    intro p hp
    cases hp
  · rw [goto_pc_self]
    intro op' hop'
    cases hop'
  · rw [goto_pc_self]
    have hil : i < row.length := Nat.lt_of_le_of_lt hi hline.lt
    have hend : (row ++ [n])[i + 1]? = some n := by
      rw [hlast]
      exact List.getElem?_concat_length
    refine ⟨i, hi, hptr.trans (List.getElem?_append_left hil).symm, hnow, hend, ?_⟩
    exact (hlinks.ops n).trans hlinks.item

/-! ## Every step -/

/-- The positions after a step. -/
def Moves (used : P → Bool) (row : List P) (h : Nat) (s' : State Thread P T) : Prop :=
  ∃ row' h' l', InLine s' used row' h' l' ∧ row <+: row' ∧ h ≤ h' ∧
    (row' = row ∨ h' = h)

omit [DecidableEq Thread] [DecidableEq P] in
theorem InLine.stays (hin : InLine s' used row h l) : Moves used row h s' :=
  ⟨row, h, l, hin, List.prefix_refl row, Nat.le_refl h, .inl rfl⟩

section

omit [DecidableEq P]

/-- A thread moves on within its call. -/
theorem InLine.moveOn {t : Thread} {k k' : Pc P T} (hin : InLine s used row h l)
    (hpc : s.pc t = k) (hroot : k'.root = k.root) (hown : k'.own = k.own)
    (hasks : k'.asks = k.asks) (hsees : Sees s row h l k') :
    Moves used row h (s.goto t k') := by
  subst hpc
  exact (hin.goto hroot hown hasks hsees).stays

/-- A thread moves on outside an enqueue. -/
theorem InLine.quit {t : Thread} {k : Pc P T} (hin : InLine s used row h l)
    (hown : k.own = none) (hasks : k.asks = none) (hsees : Sees s row h l k) :
    Moves used row h (s.goto t k) :=
  (hin.leave (.goto row h t k) rfl (fun _ _ => ⟨rfl, rfl⟩) hown hasks hsees).stays

end

omit [DecidableEq Thread] [DecidableEq P] in
/-- What a load of the successor of a node says. -/
theorem Line.nextAt (hline : Line s used row h l) {i m : Nat} {a : P} (hm : h ≤ m)
    (ha : row[i]? = some a) : NextAt row m i (s.heap a).next := by
  rcases Nat.lt_or_ge i m with hback | hfront
  · exact .inl hback
  · have hptr := hline.next (Nat.le_trans hm hfront) ha
    have htag := hline.tag ha
    by_cases hlt : i + 1 < row.length
    · exact .inr (.inr ⟨hptr, hlt⟩)
    · rw [if_neg hlt] at htag
      rw [List.getElem?_eq_none (by omega)] at hptr
      refine .inr (.inl ?_)
      cases hword : (s.heap a).next
      rw [hword] at hptr htag
      exact congrArg₂ TaggedPtr.mk hptr htag

section

omit [DecidableEq P]

/-- A loaded successor that is not null. -/
theorem NextAt.of_ne {m : Nat} {next : TaggedPtr P} (hat : NextAt row m m next)
    (hne : next.ptr ≠ none) : next.ptr = row[m + 1]? ∧ m + 1 < row.length := by
  rcases hat with hback | hnull | hnext
  · exact absurd hback (Nat.lt_irrefl m)
  · rw [hnull] at hne
    exact absurd rfl hne
  · exact hnext

/-- A loaded successor that is null is the reset word. -/
theorem NextAt.of_null {m : Nat} {next : TaggedPtr P} (hat : NextAt row m m next)
    (hnull : next.ptr = none) : next = ⟨none, 0⟩ := by
  rcases hat with hback | hnull | ⟨hptr, hlt⟩
  · exact absurd hback (Nat.lt_irrefl m)
  · exact hnull
  · rw [hnull, List.getElem?_eq_getElem hlt] at hptr
    cases hptr

end

section

omit [DecidableEq Thread] [DecidableEq P]

/-- A thread moves on after it has loaded `tail_` or `head_`. -/
theorem InLine.tailAt (hin : InLine s used row h l) {fact : Nat → Prop} (hl : fact l) :
    TailAt s row l s.tail fact :=
  ⟨l, Nat.le_refl l, hin.shape.tail, fun _ => rfl, hl⟩

theorem InLine.headAt (hin : InLine s used row h l) {fact : Nat → Prop} (hh : fact h) :
    HeadAt row h s.head fact :=
  ⟨h, Nat.le_refl h, hin.shape.head, hh⟩

end

theorem InLine.stepEnqueue {t : Thread} (hin : InLine s used row h l)
    (hstep : stepEnqueue s t (s.pc t) = some s') : Moves used row h s' := by
  have hline := hin.shape
  have hsees := hin.threads.sees t
  cases hpc : s.pc t with
  | initNext op value n =>
      rw [hpc] at hstep
      cases hstep
      exact (hin.initNext hpc).stays
  | initData op value n =>
      rw [hpc] at hstep
      cases hstep
      have hword : ∀ p, ((s.setData n value).heap p).next = (s.heap p).next ∧
          ((s.setData n value).heap p).op = (s.heap p).op := by
        intro p
        by_cases hp : p = n
        · subst hp
          simp [State.setData, State.setNode]
        · simp [State.setData, State.setNode, hp]
      refine InLine.stays (hin.local (t := t) (k := .loadTail op n)
        ⟨rfl, rfl, fun p _ => (hword p).2, fun p _ => congrArg _ (hword p).1,
          fun p _ _ => congrArg _ (hword p).1, .inl rfl⟩ rfl (fun p _ => hword p)
        (.inl (by rw [hpc]; rfl)) (.inl (by rw [hpc]; rfl)) (fun p hp => ?_) trivial)
      have hbuilt := hin.threads.built (t := t) (n := p) (by rw [hpc]; exact hp)
      rw [hpc] at hbuilt
      exact hbuilt
  | loadTail op n =>
      rw [hpc] at hstep
      cases hstep
      exact hin.moveOn hpc rfl rfl rfl (hin.tailAt trivial)
  | loadNext op n tail =>
      rw [hpc] at hstep hsees
      obtain ⟨i, hi, hptr, hnow, -⟩ := hsees
      have hil : i < row.length := Nat.lt_of_le_of_lt hi hline.lt
      simp only [Queue.stepEnqueue] at hstep
      split at hstep
      · rename_i hnull
        rw [hnull, List.getElem?_eq_getElem hil] at hptr
        cases hptr
      · rename_i a ha
        cases hstep
        rw [ha] at hptr
        refine hin.moveOn hpc rfl rfl rfl ?_
        exact ⟨i, hi, ha.trans hptr, hnow, hline.nextAt hline.le hptr.symm⟩
  | recheckTail op n tail next =>
      rw [hpc] at hstep hsees
      obtain ⟨i, hi, hptr, hnow, hat⟩ := hsees
      simp only [Queue.stepEnqueue] at hstep
      split at hstep
      · rename_i hsame
        obtain rfl : l = i := hline.position hline.lt (by rw [← hline.tail, ← hsame, hptr])
        split at hstep
        · rename_i hnull
          cases hstep
          exact hin.moveOn hpc rfl rfl rfl ⟨hat.of_null hnull, l, hi, hptr, hnow, trivial⟩
        · rename_i hne
          cases hstep
          exact hin.moveOn hpc rfl rfl rfl ⟨l, hi, hptr, hnow, hat.of_ne hne⟩
      · cases hstep
        exact hin.moveOn hpc rfl rfl rfl trivial
  | casNext op n tail next =>
      rw [hpc] at hstep
      simp only [Queue.stepEnqueue] at hstep
      split at hstep
      · cases hstep
        exact hin.quit rfl rfl trivial
      · rename_i a ha
        split at hstep
        · rename_i hfound
          cases hstep
          exact ⟨row ++ [n], h, l, hin.link hpc ha hfound, List.prefix_append row [n],
            Nat.le_refl h, .inr rfl⟩
        · cases hstep
          exact hin.moveOn hpc rfl rfl rfl trivial
  | reloadTail op n tail =>
      rw [hpc] at hstep hsees
      cases hstep
      obtain ⟨i, hi, hptr, hnow, hn, hop⟩ := hsees
      exact hin.moveOn hpc rfl rfl rfl ⟨i, hi, hptr, hnow, n, hn, rfl, hop⟩
  | swingTail op tail newTail =>
      rw [hpc] at hstep hsees
      cases hstep
      obtain ⟨i, hi, hptr, hnow, n, hn, hnew, hop⟩ := hsees
      have hready : TailAt s row l tail fun i =>
          newTail.ptr = row[i + 1]? ∧ i + 1 < row.length :=
        ⟨i, hi, hptr, hnow, hnew.trans hn.symm, (List.getElem?_eq_some_iff.mp hn).1⟩
      obtain ⟨l', hin', hbehind⟩ := hin.exchange hready
      have hreturned : ∃ j p, 0 < j ∧ j ≤ l' ∧ row[j]? = some p ∧
          ((exchangeTail s tail newTail).heap p).op = op := by
        refine ⟨i + 1, n, Nat.succ_pos i, hbehind hi hptr, hn, ?_⟩
        rw [exchangeTail_heap]
        exact hop
      exact (hin'.emitReturn hreturned).quit rfl rfl trivial
  | helpTail op n tail newTail =>
      rw [hpc] at hstep hsees
      cases hstep
      obtain ⟨l', hin', -⟩ := hin.exchange hsees
      have hpc' := (congrFun (exchangeTail_pc tail newTail) t).trans hpc
      exact hin'.moveOn hpc' rfl rfl rfl trivial
  | _ => rw [hpc] at hstep; cases hstep

theorem InLine.stepDequeue {movedFrom : T → T} {t : Thread} (hin : InLine s used row h l)
    (hstep : stepDequeue movedFrom s t (s.pc t) = some s') : Moves used row h s' := by
  have hline := hin.shape
  have hsees := hin.threads.sees t
  have hhead : ∀ {j}, s.head.ptr = row[j]? → h = j := fun hj =>
    hline.position (Nat.lt_of_le_of_lt hline.le hline.lt) (hline.head.symm.trans hj)
  cases hpc : s.pc t with
  | loadHead op value =>
      rw [hpc] at hstep
      cases hstep
      exact hin.moveOn hpc rfl rfl rfl (hin.headAt trivial)
  | loadTailAt op value head =>
      rw [hpc] at hstep hsees
      cases hstep
      obtain ⟨j, hj, hptr, -⟩ := hsees
      exact hin.moveOn hpc rfl rfl rfl
        ⟨j, hj, hptr, hin.tailAt (Nat.le_trans hj hline.le)⟩
  | loadHeadNext op value head tail =>
      rw [hpc] at hstep hsees
      obtain ⟨j, hj, hptr, htail⟩ := hsees
      simp only [Queue.stepDequeue] at hstep
      split at hstep
      · cases hstep
        exact hin.quit rfl rfl trivial
      · rename_i a ha
        cases hstep
        have hat := hline.nextAt (Nat.le_refl h) (hptr.symm.trans ha)
        exact hin.moveOn hpc rfl rfl rfl ⟨j, hj, hptr, hat, htail⟩
  | recheckHead op value head tail next =>
      rw [hpc] at hstep hsees
      obtain ⟨j, hj, hptr, hat, i, hi, htail, hnow, hji⟩ := hsees
      simp only [Queue.stepDequeue] at hstep
      split at hstep
      · rename_i hsame
        obtain rfl := hhead (hsame ▸ hptr)
        split at hstep
        · rename_i hmeet
          obtain rfl : h = i := by
            refine hline.position (Nat.lt_of_le_of_lt hline.le hline.lt) ?_
            rw [← hptr, hmeet, htail]
          split at hstep
          · cases hstep
            exact InLine.stays (hin.leave (t := t) (k := .idle)
              ⟨rfl, rfl, fun _ _ => rfl, fun _ _ => rfl, fun _ _ _ => rfl,
                .inr ⟨.retDequeue op none value, rfl, rfl⟩⟩
              rfl (fun _ _ => ⟨rfl, rfl⟩) rfl rfl trivial)
          · rename_i hne
            cases hstep
            exact hin.moveOn hpc rfl rfl rfl ⟨h, hi, htail, hnow, hat.of_ne hne⟩
        · rename_i happart
          cases hstep
          have hne : h ≠ i := by
            rintro rfl
            exact happart (hptr.trans htail.symm)
          exact hin.moveOn hpc rfl rfl rfl ⟨h, hj, hptr, hat, by omega⟩
      · cases hstep
        exact hin.moveOn hpc rfl rfl rfl trivial
  | helpTailAt op value tail node =>
      rw [hpc] at hstep hsees
      cases hstep
      obtain ⟨l', hin', -⟩ := hin.exchange hsees
      exact hin'.quit rfl rfl trivial
  | moveData op value head next =>
      rw [hpc] at hstep hsees
      simp only [Queue.stepDequeue] at hstep
      split at hstep
      · cases hstep
        exact hin.quit rfl rfl trivial
      · rename_i x hx
        cases hstep
        have hword : ∀ p, ((s.setData x (movedFrom (s.heap x).data)).heap p).next =
            (s.heap p).next ∧
            ((s.setData x (movedFrom (s.heap x).data)).heap p).op = (s.heap p).op := by
          intro p
          by_cases hp : p = x
          · subst hp
            simp [State.setData, State.setNode]
          · simp [State.setData, State.setNode, hp]
        exact InLine.stays (hin.leave (t := t)
          (k := .casHead op (s.heap x).data head next (value, (s.heap x).data))
          ⟨rfl, rfl, fun p _ => (hword p).2, fun p _ => congrArg _ (hword p).1,
            fun p _ _ => congrArg _ (hword p).1, .inl rfl⟩
          rfl (fun p _ => hword p) rfl rfl hsees)
  | casHead op value head next old =>
      rw [hpc] at hstep
      simp only [Queue.stepDequeue] at hstep
      split at hstep
      · rename_i a x ha hx
        split at hstep
        · rename_i hsame
          subst hsame
          cases hstep
          exact ⟨row, h + 1, l, hin.take hpc ha hx, List.prefix_refl row, Nat.le_succ h,
            .inl rfl⟩
        · cases hstep
          exact hin.moveOn hpc rfl rfl rfl trivial
      · cases hstep
        exact hin.quit rfl rfl trivial
  | _ => rw [hpc] at hstep; cases hstep

/-- The action hands out no node twice. -/
def fresh (used : P → Bool) : Action Thread P T → Bool
  | .allocate _ n => !used n
  | _ => true

/-- The nodes that have been handed out after the action. -/
def handOut (used : P → Bool) : Action Thread P T → P → Bool
  | .allocate _ n => Function.update used n true
  | _ => used

section

omit [DecidableEq P]

/-- A call begins. -/
theorem InLine.begin {t : Thread} {k : Pc P T} {e : Event T} (hin : InLine s used row h l)
    (hown : k.own = none) (hasks : k.asks = none ∨ k.asks = some s.trace.length)
    (he : e.silent = true) (hsees : Sees s row h l k) :
    Moves used row h ((s.goto t k).emit e) := by
  refine InLine.stays (hin.local (t := t) (k := k)
    ⟨rfl, rfl, fun _ _ => rfl, fun _ _ => rfl, fun _ _ _ => rfl, .inr ⟨e, he, rfl⟩⟩
    rfl (fun _ _ => ⟨rfl, rfl⟩) (.inr hown) ?_ (fun n hn => ?_) hsees)
  · rcases hasks with hnone | hnew
    · exact .inr (.inl hnone)
    · exact .inr (.inr ⟨hnew, Nat.lt_succ_self _⟩)
  · rw [Pc.own_of_root hn] at hown
    cases hown

theorem InLine.beginEnqueue {t : Thread} {value : T} (hin : InLine s used row h l)
    (hstep : beginEnqueue s t value = some s') : Moves used row h s' := by
  unfold Queue.beginEnqueue at hstep
  split at hstep <;> cases hstep
  exact hin.begin rfl (.inr rfl) rfl trivial

end

/-- Every step keeps the line, and does not both link a node and move `head_`. -/
theorem InLine.step {movedFrom : T → T} {a : Action Thread P T}
    (hin : InLine s used row h l) (hfresh : fresh used a = true)
    (hstep : step movedFrom s a = some s') : Moves (handOut used a) row h s' := by
  cases a with
  | enqueue t value => exact hin.beginEnqueue hstep
  | emplace t value => exact hin.beginEnqueue hstep
  | tryDequeue t value =>
      simp only [Queue.step, tryDequeue] at hstep
      split at hstep <;> cases hstep
      exact hin.begin rfl (.inl rfl) rfl trivial
  | run t =>
      simp only [Queue.step, Option.orElse_eq_orElse, Option.orElse_eq_or,
        Option.or_eq_some_iff] at hstep
      rcases hstep with hstep | ⟨-, hstep⟩
      · exact hin.stepEnqueue hstep
      · exact hin.stepDequeue hstep
  | allocate t n =>
      simp only [Queue.step] at hstep
      split at hstep
      · rename_i op value hpc
        split at hstep <;> cases hstep
        exact (hin.allocate hpc (by simpa [fresh] using hfresh)).stays
      · cases hstep
  | deallocate t word =>
      simp only [Queue.step] at hstep
      split at hstep
      · rename_i op value item n hpc
        cases hstep
        have hsees := hin.threads.sees t
        rw [hpc] at hsees
        obtain ⟨j, hj, hn⟩ := hsees
        have hmem : n ∈ row := List.mem_of_getElem? hn
        have hself : ∀ p, (Function.update s.heap n { s.heap n with
            next := ⟨word, (s.heap n).next.tag⟩ } p).op = (s.heap p).op ∧
            (Function.update s.heap n { s.heap n with
              next := ⟨word, (s.heap n).next.tag⟩ } p).next.tag = (s.heap p).next.tag := by
          intro p
          by_cases hp : p = n
          · subst hp
            simp
          · simp [hp]
        refine InLine.stays (hin.leave (t := t) (k := .idle)
          ⟨rfl, rfl, fun p _ => (hself p).1, fun p _ => (hself p).2, fun p _ hp => ?_,
            .inr ⟨.retDequeue op (some item) value, rfl, rfl⟩⟩ rfl (fun p hp => ?_) rfl rfl
          trivial)
        · have hpn : p ≠ n := fun heq => hp j hj (heq ▸ hn)
          show (Function.update s.heap n _ p).next.ptr = _
          rw [Function.update_of_ne hpn]
        · have hpn : p ≠ n := fun heq => hp (heq ▸ hmem)
          show (Function.update s.heap n _ p).next = _ ∧ (Function.update s.heap n _ p).op = _
          rw [Function.update_of_ne hpn]
          exact ⟨rfl, rfl⟩
      · cases hstep

omit [DecidableEq Thread] in
/-- A new queue has only the dummy in its line. -/
theorem InLine.initial (heap : P → Node P T) (dummy : P) (data : T) :
    InLine (initial heap dummy data : State Thread P T) (fun p => p = dummy) [dummy] 0 0 := by
  have honly : ∀ {i : Nat} {p}, [dummy][i]? = some p → i = 0 ∧ p = dummy := by
    intro i p hp
    have hi : i < 1 := (List.getElem?_eq_some_iff.mp hp).1
    obtain rfl : i = 0 := by omega
    cases hp
    exact ⟨rfl, rfl⟩
  have hself : (Queue.initial heap dummy data : State Thread P T).heap dummy =
      ⟨⟨none, 0⟩, data, 0⟩ := Function.update_self ..
  refine ⟨?_, ?_⟩
  · exact {
      nodup := List.nodup_singleton dummy
      head := rfl
      tail := rfl
      le := Nat.le_refl 0
      lt := Nat.zero_lt_one
      next := fun _ hp => by
        obtain ⟨rfl, rfl⟩ := honly hp
        rw [hself]
        rfl
      tag := fun hp => by
        obtain ⟨rfl, rfl⟩ := honly hp
        rw [hself]
        rfl
      used := fun p hp => by simpa using hp
      linked := fun hi hp => absurd (honly hp).1 (Nat.ne_of_gt hi)
      returned := fun hmem => (nomatch hmem)
      taken := fun hi _ hp => absurd (honly hp).1 (Nat.ne_of_gt hi)
      takes := fun hmem => (nomatch hmem)
      ops := fun hi _ hp _ _ => absurd (honly hp).1 (Nat.ne_of_gt hi)
      old := fun hi hp => absurd (honly hp).1 (Nat.ne_of_gt hi) }
  · exact {
      own := fun hn => (nomatch hn)
      one := fun hn => (nomatch hn)
      built := fun hn => (nomatch hn)
      asks := fun hop => (nomatch hop)
      asksOne := fun hop => (nomatch hop)
      sees := fun _ => trivial }

end Queue
end Lockfree
end Cyan

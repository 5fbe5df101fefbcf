import Mathlib.Data.List.Pairwise
import Cyan.Lockfree.Queue

/-!
# The shape of the queue under any interleaving

This module finds the inductive invariant of the queue.  The nodes that have
been constructed and not yet dequeued fall into chains: one chain starts at
`head_`, and one starts at the private node of every enqueue that has not
linked it yet.  A chain of the second kind can be longer than one node:
placement new resets the tag of `next`, so an enqueue that stalled in front of
its exchange can link its node behind a recycled node that is itself not in the
queue.

* `Shape` names what the memory alone does not show: the chains, where every
  node belongs, and the order of the allocations.
* `Global` ties the memory to a shape, and `Local` says what a thread may still
  rely on about the values it has loaded.
* `Rely` is what one thread can see of a step of another one; `Local` survives
  it (`local_rely`), so each step only has to be checked for the thread that
  makes it.

Chains stay disjoint and acyclic because an enqueue that links behind a private
node allocated its own node before that one (`Global.stamps`).  The tags of
`head_` and `tail_` identify a state of the field only below `2 ^ 64`
exchanges, which is the bound `Bounded`.
-/

namespace Cyan
namespace Lockfree
namespace Queue

open Base

variable {Thread P T : Type*}

/-! ## Counting the exchanges -/

/-- The number of successful exchanges on `tail_`. -/
def swings : List (Event T) → Nat
  | [] => 0
  | .swing :: tr => swings tr + 1
  | _ :: tr => swings tr

/-- The number of successful exchanges on `head_`. -/
def takes : List (Event T) → Nat
  | [] => 0
  | .take _ _ :: tr => takes tr + 1
  | _ :: tr => takes tr

/-- Fewer than `2 ^ 64` successful exchanges on `head_` and on `tail_`. -/
def Bounded (s : State Thread P T) : Prop :=
  takes s.trace < 2 ^ 64 ∧ swings s.trace < 2 ^ 64

/-- Where a node belongs: to the pool, to an enqueue that has not constructed
it, to a chain, or to a dequeue that has taken it off the list. -/
inductive Loc (Thread : Type*)
  | pooled
  | raw (t : Thread)
  | linked (o : Option Thread)
  | retired (t : Thread)

/-- The node is handed out for an enqueue and not behind `head_`. -/
def Loc.Held : Loc Thread → Prop
  | .raw _ => True
  | .linked (some _) => True
  | _ => False

/-- The chains (`none` is the one behind `head_`), the place of every node, the
time of its last allocation, and whether it was ever constructed. -/
structure Shape (Thread P : Type*) where
  chain : Option Thread → List P
  loc : P → Loc Thread
  stamp : P → Nat
  clock : Nat
  used : P → Prop

/-- The private node of an enqueue between its construction and its link. -/
def Pc.root : Pc P T → Option P
  | .initData _ _ n => some n
  | .loadTail _ n => some n
  | .loadNext _ n _ => some n
  | .recheckTail _ n _ _ => some n
  | .casNext _ n _ _ => some n
  | .helpTail _ n _ _ => some n
  | _ => none

/-- The successor function of the memory. -/
def nextPtr (s : State Thread P T) (p : P) : Option P :=
  (s.heap p).next.ptr

/-- Where a chain starts. -/
def entry (s : State Thread P T) : Option Thread → Option P
  | none => s.head.ptr
  | some t => (s.pc t).root

/-- What a constructed node's `next` can be: reset, or exchanged once. -/
def LinkWord (next : TaggedPtr P) : Prop :=
  next = ⟨none, 0⟩ ∨ next.ptr ≠ none ∧ next.tag = 1

/-- The memory is laid out as the shape says. -/
structure Global (s : State Thread P T) (sh : Shape Thread P) : Prop where
  path : ∀ o, Path (nextPtr s) (entry s o) (sh.chain o) none
  mem_chain : ∀ o p, p ∈ sh.chain o ↔ sh.loc p = .linked o
  tail_mem : ∃ a ∈ sh.chain none, s.tail.ptr = some a
  head_tag : s.head.tag = UInt64.ofNat (takes s.trace)
  tail_tag : s.tail.tag = UInt64.ofNat (swings s.trace)
  allocated : ∀ p, s.allocated p = true ↔ sh.loc p ≠ .pooled
  linked : ∀ o p, sh.loc p = .linked o → sh.used p ∧ LinkWord (s.heap p).next
  unlinked : ∀ p, sh.used p → (∀ o, sh.loc p ≠ .linked o) →
    (s.heap p).next.tag = 1
  stamps : ∀ t, (sh.chain (some t)).Pairwise fun a b => sh.stamp b < sh.stamp a
  stamp_lt : ∀ p, sh.loc p ≠ .pooled → sh.stamp p < sh.clock

/-- `v` was loaded from a field that has now been exchanged `count` times and
holds `current`; as long as it has not been exchanged since, `fact` holds. -/
def Seen (count : Nat) (current v : TaggedPtr P) (fact : Prop) : Prop :=
  ∃ k ≤ count, v.tag = UInt64.ofNat k ∧ (k = count → v = current ∧ fact)

/-- `tail` was loaded from `tail_`. -/
def TailSeen (s : State Thread P T) (tail : TaggedPtr P) (fact : P → Prop) :
    Prop :=
  ∃ a, tail.ptr = some a ∧ Seen (swings s.trace) s.tail tail (fact a)

/-- `head` was loaded from `head_`. -/
def HeadSeen (s : State Thread P T) (head : TaggedPtr P) (fact : P → Prop) :
    Prop :=
  ∃ h, head.ptr = some h ∧ Seen (takes s.trace) s.head head (fact h)

/-- If the exchange of `tail` for `newTail` succeeds, it moves `tail_` to the
successor of its node and raises the tag by one. -/
def SwingReady (s : State Thread P T) (tail newTail : TaggedPtr P) : Prop :=
  newTail.ptr ≠ none ∧ TailSeen s tail fun a =>
    newTail.tag = tail.tag + 1 ∧ nextPtr s a = newTail.ptr

/-- What a thread may rely on at each point of its program. -/
def Local (s : State Thread P T) (sh : Shape Thread P) (t : Thread) :
    Pc P T → Prop
  | .initNext _ _ n => sh.loc n = .raw t
  | .loadNext _ _ tail => TailSeen s tail fun _ => True
  | .recheckTail _ _ tail next => TailSeen s tail fun a =>
      (next.ptr = none → next.tag = 0) ∧
        (next.ptr ≠ none → (s.heap a).next = next)
  | .casNext _ n tail next => next = ⟨none, 0⟩ ∧
      (TailSeen s tail fun _ => True) ∧
      ∀ a, tail.ptr = some a → sh.used a ∧
        ((sh.loc a).Held → sh.stamp n < sh.stamp a)
  | .reloadTail _ n tail => TailSeen s tail fun a => nextPtr s a = some n
  | .swingTail _ tail newTail => SwingReady s tail newTail
  | .helpTail _ _ tail newTail => SwingReady s tail newTail
  | .helpTailAt _ _ tail node => SwingReady s tail node
  | .loadTailAt _ _ head => HeadSeen s head fun _ => True
  | .loadHeadNext _ _ head tail => (TailSeen s tail fun _ => True) ∧
      HeadSeen s head fun h =>
        tail.ptr ≠ head.ptr → s.tail.ptr ≠ head.ptr ∧ nextPtr s h ≠ none
  | .recheckHead _ _ head tail next => (TailSeen s tail fun _ => True) ∧
      HeadSeen s head fun h => (next.ptr ≠ none → (s.heap h).next = next) ∧
        (tail.ptr ≠ head.ptr → s.tail.ptr ≠ head.ptr ∧ next.ptr ≠ none)
  | .moveData _ _ head next => next.ptr ≠ none ∧
      HeadSeen s head fun h => (s.heap h).next = next ∧ s.tail.ptr ≠ head.ptr
  | .casHead _ _ head next _ => next.ptr ≠ none ∧
      HeadSeen s head fun h => (s.heap h).next = next ∧ s.tail.ptr ≠ head.ptr
  | .deallocate _ _ _ n => sh.loc n = .retired t
  | .fault => False
  | _ => True

/-- The invariant: the memory has the shape, and no thread relies on anything
that is no longer so. -/
structure Inv (s : State Thread P T) (sh : Shape Thread P) : Prop where
  global : Global s sh
  threads : ∀ t, Local s sh t (s.pc t)

/-! ## What one thread sees of another -/

/-- What thread `u` can observe of a step of another thread. -/
structure Rely (s : State Thread P T) (sh : Shape Thread P)
    (s' : State Thread P T) (sh' : Shape Thread P) (u : Thread) : Prop where
  swings_le : swings s.trace ≤ swings s'.trace
  takes_le : takes s.trace ≤ takes s'.trace
  tail_eq : swings s'.trace = swings s.trace → s'.tail = s.tail
  head_eq : takes s'.trace = takes s.trace → s'.head = s.head
  tail_next : swings s'.trace = swings s.trace → ∀ a, s.tail.ptr = some a →
    nextPtr s a ≠ none → (s'.heap a).next = (s.heap a).next
  head_next : takes s'.trace = takes s.trace → ∀ h, s.head.ptr = some h →
    nextPtr s h ≠ none → (s'.heap h).next = (s.heap h).next
  off_head : takes s'.trace = takes s.trace → s.tail.ptr ≠ s.head.ptr →
    s'.tail.ptr ≠ s'.head.ptr
  used : ∀ p, sh.used p → sh'.used p
  own : ∀ p, sh.loc p = .raw u ∨ sh.loc p = .retired u → sh'.loc p = sh.loc p
  stamp : ∀ p, sh.loc p ≠ .pooled → sh'.stamp p = sh.stamp p
  held : ∀ p, (sh'.loc p).Held → (sh.loc p).Held ∨ sh.clock ≤ sh'.stamp p

/-- A loaded value stays as good as it was across a step that only exchanges
the field forward. -/
theorem Seen.mono {count count' : Nat} {current current' v : TaggedPtr P}
    {fact fact' : Prop} (h : Seen count current v fact)
    (hle : count ≤ count') (hcurrent : count' = count → current' = current)
    (hfact : count' = count → v = current → fact → fact') :
    Seen count' current' v fact' := by
  obtain ⟨k, hk, htag, hnow⟩ := h
  refine ⟨k, Nat.le_trans hk hle, htag, fun heq => ?_⟩
  have hcount : count' = count := by omega
  obtain ⟨hv, hf⟩ := hnow (by omega)
  exact ⟨hv.trans (hcurrent hcount).symm, hfact hcount hv hf⟩

/-- Below the bound, an exchange that finds the loaded value finds the field
unchanged since the load. -/
theorem Seen.current {count : Nat} {current v : TaggedPtr P} {fact : Prop}
    (h : Seen count current v fact) (hbound : count < 2 ^ 64)
    (htag : current.tag = UInt64.ofNat count) (heq : current = v) : fact := by
  obtain ⟨k, hk, hvtag, hnow⟩ := h
  have hkc : k = count := by
    refine ofNat_tag_inj (by omega) hbound ?_
    rw [← hvtag, ← heq, htag]
  exact (hnow hkc).2

variable {s s' : State Thread P T} {sh sh' : Shape Thread P}

theorem TailSeen.rely {u : Thread} {tail : TaggedPtr P} {fact fact' : P → Prop}
    (h : TailSeen s tail fact) (hrely : Rely s sh s' sh' u)
    (hfact : ∀ a, swings s'.trace = swings s.trace → s.tail.ptr = some a →
      fact a → fact' a) :
    TailSeen s' tail fact' := by
  obtain ⟨a, ha, hseen⟩ := h
  refine ⟨a, ha, hseen.mono hrely.swings_le hrely.tail_eq ?_⟩
  intro hcount hv hf
  exact hfact a hcount (hv ▸ ha) hf

theorem HeadSeen.rely {u : Thread} {head : TaggedPtr P} {fact fact' : P → Prop}
    (h : HeadSeen s head fact) (hrely : Rely s sh s' sh' u)
    (hfact : ∀ a, takes s'.trace = takes s.trace → s.head.ptr = some a →
      head = s.head → fact a → fact' a) :
    HeadSeen s' head fact' := by
  obtain ⟨a, ha, hseen⟩ := h
  refine ⟨a, ha, hseen.mono hrely.takes_le hrely.head_eq ?_⟩
  intro hcount hv hf
  exact hfact a hcount (hv ▸ ha) hv hf

theorem SwingReady.rely {u : Thread} {tail newTail : TaggedPtr P}
    (h : SwingReady s tail newTail) (hrely : Rely s sh s' sh' u) :
    SwingReady s' tail newTail := by
  obtain ⟨hptr, hseen⟩ := h
  refine ⟨hptr, hseen.rely hrely ?_⟩
  rintro a hcount ha ⟨htag, hnext⟩
  refine ⟨htag, ?_⟩
  have hsame := hrely.tail_next hcount a ha (by rw [hnext]; exact hptr)
  rw [nextPtr, hsame]
  exact hnext

/-- The facts that an about-to-exchange dequeue relies on survive. -/
theorem HeadSeen.rely_ready {u : Thread} {head next : TaggedPtr P}
    (hptr : next.ptr ≠ none) (hrely : Rely s sh s' sh' u)
    (h : HeadSeen s head fun h =>
      (s.heap h).next = next ∧ s.tail.ptr ≠ head.ptr) :
    HeadSeen s' head fun h =>
      (s'.heap h).next = next ∧ s'.tail.ptr ≠ head.ptr := by
  refine h.rely hrely ?_
  rintro a hcount ha hhead ⟨hnext, htail⟩
  have hsame := hrely.head_next hcount a ha (by rw [nextPtr, hnext]; exact hptr)
  refine ⟨hsame.trans hnext, ?_⟩
  rw [hhead] at htail ⊢
  rw [← hrely.head_eq hcount]
  exact hrely.off_head hcount htail

/-- A thread's private node is on its own chain. -/
theorem Global.loc_root (h : Global s sh) {t : Thread} {n : P}
    (hroot : (s.pc t).root = some n) : sh.loc n = .linked (some t) := by
  rw [← h.mem_chain]
  have hpath := h.path (some t)
  rw [entry, hroot] at hpath
  cases hchain : sh.chain (some t) with
  | nil => rw [hchain] at hpath; exact absurd hpath (by simp)
  | cons a l =>
      rw [hchain] at hpath
      obtain ⟨han, -⟩ := hpath
      cases han
      exact List.mem_cons_self

/-- Whatever a thread relies on survives every step of the others. -/
theorem local_rely {u : Thread} (hglobal : Global s sh)
    (hrely : Rely s sh s' sh' u) (h : Local s sh u (s.pc u)) :
    Local s' sh' u (s.pc u) := by
  cases hpc : s.pc u with
  | initNext op value n =>
      rw [hpc] at h
      exact (hrely.own n (.inl h)).trans h
  | deallocate op value item n =>
      rw [hpc] at h
      exact (hrely.own n (.inr h)).trans h
  | loadNext op n tail =>
      rw [hpc] at h
      exact TailSeen.rely h hrely fun _ _ _ _ => trivial
  | recheckTail op n tail next =>
      rw [hpc] at h
      refine TailSeen.rely h hrely ?_
      rintro a hcount ha ⟨hnull, hnext⟩
      refine ⟨hnull, fun hptr => ?_⟩
      have hnext := hnext hptr
      rw [hrely.tail_next hcount a ha (by rw [nextPtr, hnext]; exact hptr)]
      exact hnext
  | casNext op n tail next =>
      rw [hpc] at h
      obtain ⟨hnext, hseen, hstale⟩ := h
      refine ⟨hnext, hseen.rely hrely fun _ _ _ _ => trivial, ?_⟩
      intro a ha
      obtain ⟨hused, hstamp⟩ := hstale a ha
      refine ⟨hrely.used a hused, fun hheld => ?_⟩
      have hn : sh.loc n = .linked (some u) :=
        hglobal.loc_root (by rw [hpc]; rfl)
      have hnpool : sh.loc n ≠ .pooled := by rw [hn]; simp
      rw [hrely.stamp n hnpool]
      have hnclock := hglobal.stamp_lt n hnpool
      rcases hrely.held a hheld with hold | hnew
      · have hapool : sh.loc a ≠ .pooled := by
          intro hpool
          rw [hpool] at hold
          exact hold
        rw [hrely.stamp a hapool]
        exact hstamp hold
      · omega
  | reloadTail op n tail =>
      rw [hpc] at h
      refine TailSeen.rely h hrely ?_
      intro a hcount ha hnext
      rw [nextPtr, hrely.tail_next hcount a ha (by rw [hnext]; simp)]
      exact hnext
  | swingTail op tail newTail => rw [hpc] at h; exact SwingReady.rely h hrely
  | helpTail op n tail newTail => rw [hpc] at h; exact SwingReady.rely h hrely
  | helpTailAt op value tail node => rw [hpc] at h; exact SwingReady.rely h hrely
  | loadTailAt op value head =>
      rw [hpc] at h
      exact HeadSeen.rely h hrely fun _ _ _ _ _ => trivial
  | loadHeadNext op value head tail =>
      rw [hpc] at h
      obtain ⟨htail, hhead⟩ := h
      refine ⟨htail.rely hrely fun _ _ _ _ => trivial, hhead.rely hrely ?_⟩
      intro a hcount ha heq hfact hne
      obtain ⟨hoff, hnext⟩ := hfact hne
      rw [heq] at hoff ⊢
      refine ⟨?_, ?_⟩
      · rw [← hrely.head_eq hcount]
        exact hrely.off_head hcount hoff
      · rw [nextPtr, hrely.head_next hcount a ha hnext]
        exact hnext
  | recheckHead op value head tail next =>
      rw [hpc] at h
      obtain ⟨htail, hhead⟩ := h
      refine ⟨htail.rely hrely fun _ _ _ _ => trivial, hhead.rely hrely ?_⟩
      rintro a hcount ha heq ⟨hsame, hne⟩
      refine ⟨fun hptr => ?_, fun htne => ?_⟩
      · have hnext := hsame hptr
        rw [hrely.head_next hcount a ha (by rw [nextPtr, hnext]; exact hptr)]
        exact hnext
      · obtain ⟨hoff, hptr⟩ := hne htne
        refine ⟨?_, hptr⟩
        rw [heq] at hoff ⊢
        rw [← hrely.head_eq hcount]
        exact hrely.off_head hcount hoff
  | moveData op value head next =>
      rw [hpc] at h
      exact ⟨h.1, HeadSeen.rely_ready h.1 hrely h.2⟩
  | casHead op value head next old =>
      rw [hpc] at h
      exact ⟨h.1, HeadSeen.rely_ready h.1 hrely h.2⟩
  | fault => rw [hpc] at h; exact h
  | idle => trivial
  | allocate op value => trivial
  | initData op value n => trivial
  | loadTail op n => trivial
  | loadHead op value => trivial

end Queue
end Lockfree
end Cyan

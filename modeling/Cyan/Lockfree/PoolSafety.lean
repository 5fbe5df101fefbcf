import Cyan.Base.Reached
import Cyan.Lockfree.Pool

/-!
# What a container may give back to the system

A thread that follows a pointer into a node of the pool reads a word that
another thread may be about to give back.  That is harmless as long as the node
stays mapped, and `freelist::deallocate` unmaps a node only when the list is
full.

* `Pointers` says which nodes a container refers to: through its shared words
  (`shared`), through a pointer whose link a thread will follow or publish
  (`follow`), and through a pointer that a thread only touches (`own`).
* `FreesGarbage` is the condition on a step: the node that goes back to the
  system is neither reached along the links nor owned by another thread.
* `Lawful` is what a container has to guarantee, one law for each way in which
  control passes between it and the pool.
* `Safe` is the invariant, and `touches_mapped` the theorem: in every run whose
  steps all meet the condition, every node touched is mapped.
-/

namespace Cyan
namespace Lockfree

open Base

variable {Thread P K σ α : Type*}

namespace Freelist

/-- The pointers of a thread inside the free list whose link it will follow, or
which it will make a link or the head. -/
def Pc.follow : Pc P → List P
  | .readNext head => head.toList
  | .casHead _ next => next.toList
  | .storeNext _ head => head.toList
  | _ => []

/-- The node that belongs to a thread inside the free list. -/
def Pc.own : Pc P → List P
  | .subSize h => [h]
  | .checkSize n | .systemDeallocate n | .loadForNext n | .storeNext n _
  | .casNode n => [n]
  | _ => []

end Freelist

namespace Pool

/-- The nodes to which a container refers. -/
structure Pointers (σ K P : Type*) where
  /-- what its shared words refer to -/
  shared : σ → List P
  /-- the pointers of a thread that it will follow or publish -/
  follow : K → List P
  /-- the nodes of which a thread needs no more than that they are mapped -/
  own : K → List P

variable (C : Client σ α K Thread P) (G : Pointers σ K P)

/-- The pointers from which threads start to follow links. -/
def entries (s : State σ Thread P) : Set P :=
  {n | n ∈ G.shared s.client ∨ s.pool.head = some n ∨
    ∃ t, n ∈ G.follow (C.pc s.client t) ∨ n ∈ (s.pool.pc t).follow}

/-- The nodes that some thread can get to. -/
def reached (s : State σ Thread P) : Set P :=
  Reached (C.word s.client) (entries C G s)

/-- The thread has a claim on the node, in the container or in the pool. -/
def Owns (s : State σ Thread P) (t : Thread) (n : P) : Prop :=
  n ∈ G.own (C.pc s.client t) ∨ n ∈ (s.pool.pc t).own

/-- If the step gives a node back to the system, then no thread can get to the
node any more, and no other thread has a claim on it. -/
def FreesGarbage (s : State σ Thread P) : Action α Thread P → Prop
  | .run t =>
      ∀ n, s.pool.pc t = .systemDeallocate n →
        n ∉ reached C G s ∧ ∀ u, u ≠ t → ¬ Owns C G s u n
  | _ => True

/-- Whatever the threads read or write next has not been given back to the
system. -/
def TouchesMapped (s : State σ Thread P) : Prop :=
  ∀ t n, touched C s t = some n → s.pool.mapped n = true

/-! ## What a container guarantees -/

/-- The shared words and the threads of a container refer into `X` where links
are followed, and into `H` elsewhere; no link leads out of `X`. -/
structure Fits (c : σ) (X H : Set P) : Prop where
  closed : Closed (C.word c) X
  held : ∀ n ∈ X, n ∈ H
  shared : ∀ n ∈ G.shared c, n ∈ X
  follow : ∀ t, ∀ n ∈ G.follow (C.pc c t), n ∈ X
  own : ∀ t, ∀ n ∈ G.own (C.pc c t), n ∈ H

/-- Thread `t` takes a step of the container while it does not wait for the
pool, and the other threads stay where they are. -/
def Outside (c c' : σ) (t : Thread) : Prop :=
  C.request (C.pc c t) = .none ∧ ∀ u, u ≠ t → C.pc c' u = C.pc c u

variable [DecidableEq Thread] [DecidableEq P]

/-- The laws of a container. -/
structure Lawful : Prop where
  /-- no node is touched but through a pointer that counts -/
  touched : ∀ k n, C.touched k = some n → n ∈ G.follow k ∨ n ∈ G.own k
  /-- whoever gives a node back owns it -/
  gives : ∀ k n, C.request k = .deallocate n → n ∈ G.own k
  /-- a step makes at most such nodes reachable as its threads own -/
  step : ∀ c a c' X H, C.step c a = some c' → Fits C G c X H →
    ∃ X', X ⊆ X' ∧ Fits C G c' X' H
  /-- a thread that waits for the pool takes no step -/
  outside : ∀ c a c', C.step c a = some c' → ∃ t, Outside C c c' t
  word_setWords : ∀ c words, C.word (C.setWords c words) = words
  pc_setWords : ∀ c words, C.pc (C.setWords c words) = C.pc c
  shared_setWords : ∀ c words, G.shared (C.setWords c words) = G.shared c
  word_resume : ∀ c t n, C.word (C.resume c t n) = C.word c
  shared_resume : ∀ c t n, G.shared (C.resume c t n) = G.shared c
  /-- the thread owns the node with which it resumes -/
  resume_allocate : ∀ c t n, C.request (C.pc c t) = .allocate →
    ∃ k, C.pc (C.resume c t (some n)) = Function.update (C.pc c) t k ∧
      G.follow k = [] ∧ G.own k = [n]
  /-- the thread forgets the node that it has given back -/
  resume_deallocate : ∀ c t n, C.request (C.pc c t) = .deallocate n →
    ∃ k, C.pc (C.resume c t none) = Function.update (C.pc c) t k ∧
      (∀ m ∈ G.follow k, m ∈ G.follow (C.pc c t)) ∧ G.own k = []

omit [DecidableEq P] in
theorem Outside.of_goto {c c' : σ} {t : Thread} {k k' : K} (hpc : C.pc c t = k)
    (hrequest : C.request k = .none) (hmove : C.pc c' = Function.update (C.pc c) t k') :
    Outside C c c' t := by
  refine ⟨?_, fun u hu => ?_⟩
  · rw [hpc]
    exact hrequest
  · rw [hmove, Function.update_of_ne hu]

omit [DecidableEq Thread] [DecidableEq P] in
/-- A thread that waits for the pool stays where it is. -/
theorem Outside.waits {c c' : σ} {t u : Thread} (h : Outside C c c' t)
    (hwaits : C.request (C.pc c u) ≠ .none) : C.pc c' u = C.pc c u := by
  refine h.2 u ?_
  rintro rfl
  exact hwaits h.1

section

variable {C : Client σ α K Thread P} {G : Pointers σ K P} {c c' : σ} {X X' H H' : Set P}

section

omit [DecidableEq Thread] [DecidableEq P]

/-- The pointer that a thread follows where it stands. -/
theorem Fits.followAt (h : Fits C G c X H) {t : Thread} {k : K} {n : P}
    (hpc : C.pc c t = k) (hn : n ∈ G.follow k) : n ∈ X := by
  refine h.follow t n ?_
  rw [hpc]
  exact hn

/-- The node that belongs to a thread where it stands. -/
theorem Fits.ownAt (h : Fits C G c X H) {t : Thread} {k : K} {n : P}
    (hpc : C.pc c t = k) (hn : n ∈ G.own k) : n ∈ H := by
  refine h.own t n ?_
  rw [hpc]
  exact hn

end

omit [DecidableEq P] in
/-- A thread that moves on leaves the pointers of the others where they are. -/
theorem Fits.goto (h : Fits C G c X H) {t : Thread} {k : K}
    (hpc : C.pc c' = Function.update (C.pc c) t k)
    (hX : X ⊆ X') (hheld : ∀ n ∈ X', n ∈ H) (hclosed : Closed (C.word c') X')
    (hshared : ∀ n ∈ G.shared c', n ∈ X') (hfollow : ∀ n ∈ G.follow k, n ∈ X')
    (hown : ∀ n ∈ G.own k, n ∈ H) : Fits C G c' X' H := by
  refine ⟨hclosed, hheld, hshared, fun u n hn => ?_, fun u n hn => ?_⟩
  · rw [hpc, Function.update_apply] at hn
    split at hn
    · exact hfollow n hn
    · exact hX (h.follow u n hn)
  · rw [hpc, Function.update_apply] at hn
    split at hn
    · exact hown n hn
    · exact h.own u n hn

omit [DecidableEq Thread] [DecidableEq P] in
/-- The memory and the shared words change, and the threads stay where they
are. -/
theorem Fits.memory (h : Fits C G c X H) (hpc : C.pc c' = C.pc c)
    (hshared : G.shared c' = G.shared c) (hX : X ⊆ X') (hH : H ⊆ H')
    (hheld : ∀ n ∈ X', n ∈ H') (hclosed : Closed (C.word c') X') :
    Fits C G c' X' H' := by
  refine ⟨hclosed, hheld, fun n hn => ?_, fun t n hn => ?_, fun t n hn => ?_⟩
  · rw [hshared] at hn
    exact hX (h.shared n hn)
  · rw [hpc] at hn
    exact hX (h.follow t n hn)
  · rw [hpc] at hn
    exact hH (h.own t n hn)

end

/-! ## The invariant -/

/-- The request that a call of the pool serves. -/
def Serves : Freelist.Pc P → Request P → Prop
  | .idle, _ => True
  | .loadHead, r | .systemAllocate, r | .readNext _, r | .casHead _ _, r
  | .subSize _, r | .fault, r => r = .allocate
  | .checkSize n, r | .systemDeallocate n, r | .loadForNext n, r
  | .storeNext n _, r | .casNode n, r => r = .deallocate n
  | .addSize, r => ∃ n, r = .deallocate n

/-- Every pointer leads to a mapped node: `X` is closed under the links and
contains whatever is followed, and every node in it is mapped, as is every node
that is owned. -/
structure Safe (s : State σ Thread P) (X : Set P) : Prop where
  fits : Fits C G s.client X {n | s.pool.mapped n = true}
  head : ∀ n, s.pool.head = some n → n ∈ X
  follow : ∀ t, ∀ n ∈ (s.pool.pc t).follow, n ∈ X
  own : ∀ t, ∀ n ∈ (s.pool.pc t).own, s.pool.mapped n = true
  serves : ∀ t, Serves (s.pool.pc t) (C.request (C.pc s.client t))

variable {C G} {s s' : State σ Thread P} {X : Set P} {maxSize : UInt64}

omit [DecidableEq Thread] [DecidableEq P] in
/-- Nothing but what is reached needs to be in the set. -/
theorem Safe.reached (h : Safe C G s X) : Safe C G s (reached C G s) := by
  have hentries : entries C G s ⊆ X := by
    rintro n (hn | hn | ⟨t, hn | hn⟩)
    · exact h.fits.shared n hn
    · exact h.head n hn
    · exact h.fits.follow t n hn
    · exact h.follow t n hn
  refine ⟨⟨Reached.closed _ _, fun n hn => ?_, ?_, ?_, h.fits.own⟩, ?_, ?_, h.own,
    h.serves⟩
  · exact h.fits.held n (Reached.subset_of_closed h.fits.closed hentries hn)
  · exact fun n hn => Reached.entry (Or.inl hn)
  · exact fun t n hn => Reached.entry (Or.inr (Or.inr ⟨t, Or.inl hn⟩))
  · exact fun n hn => Reached.entry (Or.inr (Or.inl hn))
  · exact fun t n hn => Reached.entry (Or.inr (Or.inr ⟨t, Or.inr hn⟩))

omit [DecidableEq P] in
/-- Whatever is touched is followed or owned, so it is mapped. -/
theorem Safe.touchesMapped (law : Lawful C G) (h : Safe C G s X) : TouchesMapped C s := by
  intro t n htouched
  have hpool : (s.pool.pc t).touched = some n → s.pool.mapped n = true := by
    intro hn
    cases hpc : s.pool.pc t with
    | readNext head =>
        rw [hpc] at hn
        refine h.fits.held n (h.follow t n ?_)
        rw [hpc]
        exact Option.mem_toList.mpr hn
    | storeNext m head =>
        rw [hpc] at hn
        refine h.own t n ?_
        cases hn
        rw [hpc]
        exact List.mem_singleton_self _
    | casNode m =>
        rw [hpc] at hn
        refine h.own t n ?_
        cases hn
        rw [hpc]
        exact List.mem_singleton_self _
    | _ => rw [hpc] at hn; cases hn
  rw [touched] at htouched
  split at htouched
  · rcases law.touched _ n htouched with hn | hn
    · exact h.fits.held n (h.fits.follow t n hn)
    · exact h.fits.own t n hn
  · exact hpool htouched

/-! ## What one step keeps -/

/-- A step of the container. -/
theorem Safe.client (law : Lawful C G) (h : Safe C G s X) {a : α} {c : σ}
    (hstep : C.step s.client a = some c) :
    ∃ X', Safe C G { s with client := c } X' := by
  obtain ⟨X', hX, hfits⟩ :=
    law.step _ a c X {n | s.pool.mapped n = true} hstep h.fits
  refine ⟨X', hfits, fun n hn => hX (h.head n hn), fun t n hn => hX (h.follow t n hn),
    h.own, fun t => ?_⟩
  have hserves := h.serves t
  by_cases hwaits : C.request (C.pc s.client t) = .none
  · -- a thread that does not wait is not in the pool
    have hidle : s.pool.pc t = .idle := by
      cases hpc : s.pool.pc t <;> rw [hpc, hwaits] at hserves <;>
        first | rfl | (cases hserves; done) | (obtain ⟨n, hn⟩ := hserves; cases hn)
    change Serves (s.pool.pc t) _
    rw [hidle]
    trivial
  · change Serves _ (C.request (C.pc c t))
    obtain ⟨u, houtside⟩ := law.outside _ a c hstep
    rw [houtside.waits C hwaits]
    exact hserves

section

omit [DecidableEq P]

/-- A step of thread `t` inside the pool, as far as the pool is concerned. -/
theorem Safe.pool (law : Lawful C G) (h : Safe C G s X) {t : Thread}
    {pool : Freelist.State Thread P} {k : Freelist.Pc P} {X' : Set P}
    (hpc : pool.pc = Function.update s.pool.pc t k) (hX : X ⊆ X')
    (hclosed : Closed pool.next X') (hmapped : ∀ n ∈ X', pool.mapped n = true)
    (hkeeps : ∀ n, s.pool.mapped n = true → pool.mapped n = true)
    (hhead : ∀ n, pool.head = some n → n ∈ X') (hfollow : ∀ n ∈ k.follow, n ∈ X')
    (hown : ∀ n ∈ k.own, pool.mapped n = true)
    (hserves : Serves k (C.request (C.pc s.client t))) :
    Safe C G ⟨store C s pool, pool⟩ X' := by
  have hpcs : C.pc (store C s pool) = C.pc s.client := law.pc_setWords _ _
  refine ⟨h.fits.memory hpcs (law.shared_setWords _ _) hX hkeeps hmapped ?_, hhead,
    fun u n hn => ?_, fun u n hn => ?_, fun u => ?_⟩
  · change Closed (C.word (C.setWords s.client pool.next)) X'
    rwa [law.word_setWords]
  · change n ∈ (pool.pc u).follow at hn
    rw [hpc, Function.update_apply] at hn
    split at hn
    · exact hfollow n hn
    · exact hX (h.follow u n hn)
  · change n ∈ (pool.pc u).own at hn
    rw [hpc, Function.update_apply] at hn
    split at hn
    · exact hown n hn
    · exact hkeeps n (h.own u n hn)
  · change Serves (pool.pc u) (C.request (C.pc (store C s pool) u))
    rw [hpcs, hpc, Function.update_apply]
    split
    · rename_i hu
      rw [hu]
      exact hserves
    · exact h.serves u

/-- The container resumes a thread that has left the pool. -/
theorem Safe.resume (law : Lawful C G) (h : Safe C G s X) {t : Thread} {k : K}
    {n : Option P} (hidle : s.pool.pc t = .idle)
    (hpc : C.pc (C.resume s.client t n) = Function.update (C.pc s.client) t k)
    (hfollow : ∀ m ∈ G.follow k, m ∈ X) (hown : ∀ m ∈ G.own k, s.pool.mapped m = true) :
    Safe C G { s with client := C.resume s.client t n } X := by
  refine ⟨h.fits.goto hpc (fun m hm => hm) h.fits.held ?_ (fun m hm => ?_) hfollow
    hown, h.head, h.follow, h.own, fun u => ?_⟩
  · change Closed (C.word (C.resume s.client t n)) X
    rw [law.word_resume]
    exact h.fits.closed
  · change m ∈ G.shared (C.resume s.client t n) at hm
    rw [law.shared_resume] at hm
    exact h.fits.shared m hm
  · change Serves (s.pool.pc u) (C.request (C.pc (C.resume s.client t n) u))
    rw [hpc, Function.update_apply]
    split
    · rename_i hu
      rw [hu, hidle]
      trivial
    · exact h.serves u

/-- The container resumes with the node that the pool has handed out. -/
theorem Safe.resume_allocate (law : Lawful C G) (h : Safe C G s X) {t : Thread} {n : P}
    (hidle : s.pool.pc t = .idle) (hrequest : C.request (C.pc s.client t) = .allocate)
    (hn : s.pool.mapped n = true) :
    Safe C G { s with client := C.resume s.client t (some n) } X := by
  obtain ⟨k, hpc, hfollow, hown⟩ := law.resume_allocate s.client t n hrequest
  refine h.resume law hidle hpc (fun m hm => ?_) (fun m hm => ?_)
  · rw [hfollow] at hm
    cases hm
  · rw [hown, List.mem_singleton] at hm
    rw [hm]
    exact hn

/-- The container resumes after the pool has taken a node back, and the node no
longer belongs to the thread. -/
theorem Safe.resume_deallocate (law : Lawful C G) (h : Safe C G s X) {t : Thread} {n : P}
    (hidle : s.pool.pc t = .idle)
    (hrequest : C.request (C.pc s.client t) = .deallocate n) :
    Safe C G { s with client := C.resume s.client t none } X ∧
      G.own (C.pc (C.resume s.client t none) t) = [] ∧
      ∀ u, u ≠ t → C.pc (C.resume s.client t none) u = C.pc s.client u := by
  obtain ⟨k, hpc, hfollow, hown⟩ := law.resume_deallocate s.client t n hrequest
  refine ⟨h.resume law hidle hpc (fun m hm => ?_) (fun m hm => ?_), ?_, fun u hu => ?_⟩
  · exact h.fits.follow t m (hfollow m hm)
  · rw [hown] at hm
    cases hm
  · rw [hpc, Function.update_self, hown]
  · rw [hpc, Function.update_of_ne hu]

end

omit [DecidableEq Thread] in
/-- A node that is not in the set and belongs to nobody goes back to the
system. -/
theorem Safe.unmap (h : Safe C G s X) {n : P} (hn : n ∉ X)
    (howner : ∀ t, ¬ Owns C G s t n) :
    Safe C G { s with pool :=
      { s.pool with mapped := Function.update s.pool.mapped n false } } X := by
  have hkeeps : ∀ m, m ≠ n → s.pool.mapped m = true →
      Function.update s.pool.mapped n false m = true := by
    intro m hm hmapped
    rw [Function.update_of_ne hm]
    exact hmapped
  refine ⟨⟨h.fits.closed, fun m hm => hkeeps m ?_ (h.fits.held m hm), h.fits.shared,
    h.fits.follow, fun t m hm => hkeeps m ?_ (h.fits.own t m hm)⟩, h.head, h.follow,
    fun t m hm => hkeeps m ?_ (h.own t m hm), h.serves⟩
  · rintro rfl
    exact hn hm
  · rintro rfl
    exact howner t (Or.inl hm)
  · rintro rfl
    exact howner t (Or.inr hm)

section

omit [DecidableEq Thread] [DecidableEq P]

/-- A step of the pool with which no call returns. -/
theorem settle_of_none {t : Thread} {k : Freelist.Pc P}
    {pool : Freelist.State Thread P} (hpc : s.pool.pc t = k) (hreturned : k.returned = none) :
    settle C s t pool = ⟨store C s pool, pool⟩ := by
  unfold settle
  rw [hpc, hreturned]

/-- A step of the pool with which a call returns. -/
theorem settle_of_some {t : Thread} {k : Freelist.Pc P} {n : Option P}
    {pool : Freelist.State Thread P} (hpc : s.pool.pc t = k)
    (hreturned : k.returned = some n) :
    settle C s t pool = ⟨C.resume (store C s pool) t n, pool⟩ := by
  unfold settle
  rw [hpc, hreturned]

/-- The node that belongs to a thread where it stands. -/
theorem Safe.ownAt (h : Safe C G s X) {t : Thread} {k : Freelist.Pc P} {n : P}
    (hpc : s.pool.pc t = k) (hn : n ∈ k.own) : s.pool.mapped n = true := by
  refine h.own t n ?_
  rw [hpc]
  exact hn

/-- The pointer that a thread follows where it stands. -/
theorem Safe.followAt (h : Safe C G s X) {t : Thread} {k : Freelist.Pc P} {n : P}
    (hpc : s.pool.pc t = k) (hn : n ∈ k.follow) : n ∈ X := by
  refine h.follow t n ?_
  rw [hpc]
  exact hn

/-- The request that is served where a thread stands. -/
theorem Safe.servesAt (h : Safe C G s X) {t : Thread} {k : Freelist.Pc P}
    (hpc : s.pool.pc t = k) : Serves k (C.request (C.pc s.client t)) := by
  rw [← hpc]
  exact h.serves t

end

omit [DecidableEq P] in
/-- The thread moves on inside the pool and changes at most the head. -/
theorem Safe.move (law : Lawful C G) (h : Safe C G s X) {t : Thread}
    {k k' : Freelist.Pc P} {head : Option P} {size : UInt64} (hpc : s.pool.pc t = k)
    (hreturned : k.returned = none) (hhead : ∀ n, head = some n → n ∈ X)
    (hfollow : ∀ n ∈ k'.follow, n ∈ X) (hown : ∀ n ∈ k'.own, s.pool.mapped n = true)
    (hserves : Serves k' (C.request (C.pc s.client t))) :
    ∃ X', Safe C G (settle C s t
      ({ view C s with head := head, size := size }.goto t k')) X' := by
  rw [settle_of_none hpc hreturned]
  exact ⟨X, h.pool law rfl (fun n hn => hn) h.fits.closed h.fits.held (fun n hn => hn) hhead
    hfollow hown hserves⟩

/-- The thread overwrites the link of its own node with a pointer that leads
into the set. -/
theorem Safe.write (law : Lawful C G) (h : Safe C G s X) {t : Thread}
    {k : Freelist.Pc P} {n : P} {link : Option P} (hpc : s.pool.pc t = k)
    (hreturned : k.returned = none) (hlink : ∀ m, link = some m → m ∈ X)
    (hn : s.pool.mapped n = true)
    (hserves : Serves (.casNode n) (C.request (C.pc s.client t))) :
    ∃ X', Safe C G (settle C s t (((view C s).setNext n link).goto t (.casNode n))) X' := by
  rw [settle_of_none hpc hreturned]
  refine ⟨X, h.pool law rfl (fun m hm => hm) (h.fits.closed.update hlink) h.fits.held
    (fun m hm => hm) h.head (fun m hm => nomatch hm) (fun m hm => ?_) hserves⟩
  cases List.mem_singleton.mp hm
  exact hn

section

omit [DecidableEq P]

/-- `allocate` returns: the container gets a node that is mapped. -/
theorem Safe.allocated (law : Lawful C G) (h : Safe C G s X) {t : Thread} {n : P}
    {pool : Freelist.State Thread P}
    (hrequest : C.request (C.pc s.client t) = .allocate)
    (hpc : pool.pc = Function.update s.pool.pc t .idle)
    (hnext : pool.next = C.word s.client) (hhead : pool.head = s.pool.head)
    (hkeeps : ∀ m, s.pool.mapped m = true → pool.mapped m = true)
    (hn : pool.mapped n = true) :
    Safe C G ⟨C.resume (store C s pool) t (some n), pool⟩ X := by
  have hstored : Safe C G ⟨store C s pool, pool⟩ X := by
    refine h.pool law hpc (fun m hm => hm) ?_ (fun m hm => hkeeps m (h.fits.held m hm)) hkeeps
      ?_ (fun m hm => nomatch hm) (fun m hm => nomatch hm) trivial
    · rw [hnext]
      exact h.fits.closed
    · rw [hhead]
      exact h.head
  have hidle : pool.pc t = .idle := by
    rw [hpc, Function.update_self]
  refine hstored.resume_allocate law hidle ?_ hn
  rw [← hrequest]
  exact congrArg (fun pc => C.request (pc t)) (law.pc_setWords _ _)

/-- `deallocate` returns: the container forgets the node. -/
theorem Safe.deallocated (law : Lawful C G) (h : Safe C G s X) {t : Thread} {n : P}
    (size : UInt64) (hrequest : C.request (C.pc s.client t) = .deallocate n) :
    let pool := { view C s with size := size }.goto t .idle
    let client := C.resume (store C s pool) t none
    Safe C G ⟨client, pool⟩ X ∧ G.own (C.pc client t) = [] ∧
      ∀ u, u ≠ t → C.pc client u = C.pc s.client u := by
  intro pool client
  have hstored : Safe C G ⟨store C s pool, pool⟩ X :=
    h.pool law rfl (fun m hm => hm) h.fits.closed h.fits.held (fun m hm => hm) h.head
      (fun m hm => nomatch hm) (fun m hm => nomatch hm) trivial
  have hpcs : C.pc (store C s pool) = C.pc s.client := law.pc_setWords _ _
  have hidle : pool.pc t = .idle := Function.update_self ..
  obtain ⟨hsafe, hown, hothers⟩ := hstored.resume_deallocate (n := n) law hidle (by
    change C.request (C.pc (store C s pool) t) = _
    rw [hpcs]
    exact hrequest)
  refine ⟨hsafe, hown, fun u hu => ?_⟩
  rw [hothers u hu, hpcs]

end

/-- `allocator_.deallocate(value, 1)`: only here does a node leave the memory,
and only here does the condition count. -/
theorem Safe.systemDeallocate (law : Lawful C G) (h : Safe C G s X) {t : Thread} {n : P}
    (hpc : s.pool.pc t = .systemDeallocate n)
    (hok : FreesGarbage (α := α) C G s (.run t)) :
    ∃ X', Safe C G (settle C s t
      ({ view C s with mapped := Function.update s.pool.mapped n false }.goto t .idle)) X' := by
  obtain ⟨hreached, hothers⟩ := hok n hpc
  obtain ⟨hsafe, hown, hpcs⟩ := h.reached.deallocated law s.pool.size (h.servesAt hpc)
  rw [settle_of_some hpc rfl]
  refine ⟨_, hsafe.unmap hreached fun u => ?_⟩
  rintro (hclaim | hclaim)
  · by_cases hu : u = t
    · rw [hu] at hclaim
      rw [hown] at hclaim
      cases hclaim
    · rw [hpcs u hu] at hclaim
      exact hothers u hu (Or.inl hclaim)
  · by_cases hu : u = t
    · rw [hu, Freelist.goto_pc_self] at hclaim
      cases hclaim
    · rw [Freelist.goto_pc_of_ne _ _ hu] at hclaim
      exact hothers u hu (Or.inr hclaim)

/-- A step of the pool. -/
theorem Safe.run (law : Lawful C G) (h : Safe C G s X) {t : Thread}
    {pool : Freelist.State Thread P} (hok : FreesGarbage (α := α) C G s (.run t))
    (hmove : Freelist.Move maxSize (view C s) (.run t) pool) :
    ∃ X', Safe C G (settle C s t pool) X' := by
  cases hmove with
  | loadNull hpc hhead =>
      exact h.move law hpc rfl h.head (fun n hn => nomatch hn) (fun n hn => nomatch hn)
        (h.servesAt (k := .loadHead) hpc)
  | loadHead hpc hhead =>
      refine h.move law hpc rfl h.head (fun n hn => ?_) (fun n hn => nomatch hn)
        (h.servesAt (k := .loadHead) hpc)
      exact h.head n (hhead.trans (congrArg some (List.mem_singleton.mp hn).symm))
  | followNull hpc =>
      exact h.move law hpc rfl h.head (fun n hn => nomatch hn) (fun n hn => nomatch hn)
        (h.servesAt (k := .readNext none) hpc)
  | @readNext _ m hpc =>
      have hm : m ∈ X := h.followAt (k := .readNext (some m)) hpc (List.mem_singleton_self m)
      refine h.move law hpc rfl h.head (fun n hn => ?_) (fun n hn => nomatch hn)
        (h.servesAt (k := .readNext (some m)) hpc)
      exact h.fits.closed m hm n (Option.mem_toList.mp hn)
  | @remove _ m next hpc hhead =>
      -- the new head is the link that was read, which the thread still follows
      refine h.move law hpc rfl (fun n hn => ?_) (fun n hn => nomatch hn) (fun n hn => ?_)
        (h.servesAt (k := .casHead m next) hpc)
      · exact h.followAt (k := .casHead m next) hpc (Option.mem_toList.mpr hn)
      · cases List.mem_singleton.mp hn
        exact h.fits.held m (h.head m hhead)
  | @retry _ m next hpc hhead =>
      refine h.move law hpc rfl h.head (fun n hn => ?_) (fun n hn => nomatch hn)
        (h.servesAt (k := .casHead m next) hpc)
      exact h.head n (Option.mem_toList.mp hn)
  | @subSize _ m hpc =>
      rw [settle_of_some hpc rfl]
      exact ⟨X, h.allocated law (h.servesAt (k := .subSize m) hpc) rfl rfl rfl
        (fun n hn => hn) (h.ownAt (k := .subSize m) hpc (List.mem_singleton_self m))⟩
  | @full _ m hpc hsize =>
      exact h.move law hpc rfl h.head (fun n hn => nomatch hn)
        (fun n hn => h.ownAt (k := .checkSize m) hpc hn) (h.servesAt (k := .checkSize m) hpc)
  | @notFull _ m hpc hsize =>
      exact h.move law hpc rfl h.head (fun n hn => nomatch hn)
        (fun n hn => h.ownAt (k := .checkSize m) hpc hn) (h.servesAt (k := .checkSize m) hpc)
  | systemDeallocate hpc => exact h.systemDeallocate law hpc hok
  | @loadForNext _ m hpc =>
      refine h.move law hpc rfl h.head (fun n hn => ?_)
        (fun n hn => h.ownAt (k := .loadForNext m) hpc hn)
        (h.servesAt (k := .loadForNext m) hpc)
      exact h.head n (Option.mem_toList.mp hn)
  | @storeNext _ m head hpc =>
      refine h.write law hpc rfl (fun n hn => ?_)
        (h.ownAt (k := .storeNext m head) hpc (List.mem_singleton_self m))
        (h.servesAt (k := .storeNext m head) hpc)
      exact h.followAt (k := .storeNext m head) hpc (Option.mem_toList.mpr hn)
  | @insert _ m hpc hhead =>
      -- the new head links to the old one, so it may join the set
      rw [settle_of_none hpc rfl]
      have hm : s.pool.mapped m = true :=
        h.ownAt (k := .casNode m) hpc (List.mem_singleton_self m)
      refine ⟨insert m X, h.pool law rfl (Set.subset_insert m X) (h.fits.closed.insert ?_) ?_
        (fun n hn => hn) ?_ (fun n hn => nomatch hn) (fun n hn => nomatch hn)
        ⟨m, h.servesAt (k := .casNode m) hpc⟩⟩
      · exact fun n hn => h.head n (hhead.trans hn)
      · rintro n (rfl | hn)
        · exact hm
        · exact h.fits.held n hn
      · rintro n hn
        cases hn
        exact Set.mem_insert _ _
  | @retryNode _ m hpc hhead =>
      have hm : s.pool.mapped m = true :=
        h.ownAt (k := .casNode m) hpc (List.mem_singleton_self m)
      rw [← Freelist.goto_self (s := (view C s).setNext m (view C s).head) hpc]
      exact h.write law hpc rfl h.head hm (h.servesAt (k := .casNode m) hpc)
  | @addSize _ hpc =>
      obtain ⟨m, hrequest⟩ := h.servesAt (k := .addSize) hpc
      rw [settle_of_some hpc rfl]
      exact ⟨X, (h.deallocated law (s.pool.size + 1) hrequest).1⟩

/-- A compare-exchange of the pool that fails for no reason. -/
theorem Safe.spurious (law : Lawful C G) (h : Safe C G s X) {t : Thread}
    {pool : Freelist.State Thread P}
    (hmove : Freelist.Move maxSize (view C s) (.spurious t) pool) :
    ∃ X', Safe C G (settle C s t pool) X' := by
  cases hmove with
  | @spurious _ m next hpc =>
      refine h.move law hpc rfl h.head (fun n hn => ?_) (fun n hn => nomatch hn)
        (h.servesAt (k := .casHead m next) hpc)
      exact h.head n (Option.mem_toList.mp hn)
  | @spuriousNode _ m hpc =>
      have hm : s.pool.mapped m = true :=
        h.ownAt (k := .casNode m) hpc (List.mem_singleton_self m)
      rw [← Freelist.goto_self (s := (view C s).setNext m (view C s).head) hpc]
      exact h.write law hpc rfl h.head hm (h.servesAt (k := .casNode m) hpc)

/-- The system hands out a node. -/
theorem Safe.system (law : Lawful C G) (h : Safe C G s X) {t : Thread} {n : P}
    {pool : Freelist.State Thread P}
    (hmove : Freelist.Move maxSize (view C s) (.system t n) pool) :
    Safe C G ⟨C.resume (store C s pool) t (some n), pool⟩ X := by
  cases hmove with
  | systemAllocate hpc hfree =>
      refine h.allocated law (h.servesAt (k := .systemAllocate) hpc) rfl rfl rfl
        (fun m hm => ?_) (Function.update_self ..)
      change Function.update s.pool.mapped n true m = true
      rw [Function.update_apply]
      split
      · rfl
      · exact hm

section

omit [DecidableEq P]

/-- A thread enters the pool. -/
theorem Safe.enter (h : Safe C G s X) {t : Thread} {k : Freelist.Pc P}
    {trace : List (Freelist.Event P)} (hfollow : ∀ n ∈ k.follow, n ∈ X)
    (hown : ∀ n ∈ k.own, s.pool.mapped n = true)
    (hserves : Serves k (C.request (C.pc s.client t))) :
    Safe C G { s with pool := { s.pool with trace := trace }.goto t k } X := by
  refine ⟨h.fits, h.head, fun u n hn => ?_, fun u n hn => ?_, fun u => ?_⟩
  · rw [Freelist.goto_pc] at hn
    split at hn
    · exact hfollow n hn
    · exact h.follow u n hn
  · rw [Freelist.goto_pc] at hn
    split at hn
    · exact hown n hn
    · exact h.own u n hn
  · rw [Freelist.goto_pc]
    split
    · rename_i hu
      rw [hu]
      exact hserves
    · exact h.serves u

/-- A call of the pool starts. -/
theorem Safe.call (law : Lawful C G) (h : Safe C G s X) {t : Thread}
    (hstep : call C s t = some s') : Safe C G s' X := by
  unfold Pool.call at hstep
  split at hstep
  · rename_i hrequest
    cases hstep
    exact h.enter (fun n hn => nomatch hn) (fun n hn => nomatch hn) hrequest
  · rename_i m hidle hrequest
    cases hstep
    refine h.enter (fun n hn => nomatch hn) (fun n hn => ?_) hrequest
    cases List.mem_singleton.mp hn
    exact h.fits.own t m (law.gives _ m hrequest)
  · cases hstep

end

/-- The system overwrites a node that it has not handed out. -/
theorem Safe.scribble (law : Lawful C G) (h : Safe C G s X) {n : P} (word : Option P)
    (hn : ¬ s.pool.mapped n = true) :
    Safe C G { s with
      client := C.setWords s.client (Function.update (C.word s.client) n word) } X := by
  have hfar : n ∉ X := fun hmem => hn (h.fits.held n hmem)
  have hpcs := law.pc_setWords s.client (Function.update (C.word s.client) n word)
  refine ⟨h.fits.memory hpcs (law.shared_setWords _ _) (fun m hm => hm)
    (fun m hm => hm) h.fits.held ?_, h.head, h.follow, h.own, fun t => ?_⟩
  · change Closed (C.word (C.setWords _ _)) X
    rw [law.word_setWords]
    exact h.fits.closed.update_of_notMem word hfar
  · change Serves _ (C.request (C.pc (C.setWords _ _) t))
    rw [hpcs]
    exact h.serves t

/-- The step lemma. -/
theorem Safe.step (law : Lawful C G) (h : Safe C G s X) {a : Action α Thread P}
    (hok : FreesGarbage C G s a) (hstep : step C maxSize s a = some s') :
    ∃ X', Safe C G s' X' := by
  cases a with
  | client a =>
      obtain ⟨c, hc, rfl⟩ := Option.map_eq_some_iff.mp hstep
      exact h.client law hc
  | call t => exact ⟨X, h.call law hstep⟩
  | run t =>
      obtain ⟨pool, hpool, rfl⟩ := Option.map_eq_some_iff.mp hstep
      exact h.run law hok (Freelist.step_move hpool)
  | spurious t =>
      obtain ⟨pool, hpool, rfl⟩ := Option.map_eq_some_iff.mp hstep
      exact h.spurious law (Freelist.step_move hpool)
  | system t n =>
      obtain ⟨pool, hpool, rfl⟩ := Option.map_eq_some_iff.mp hstep
      exact ⟨X, h.system law (Freelist.step_move hpool)⟩
  | scribble n word =>
      rw [Pool.step] at hstep
      split at hstep
      · cases hstep
      · rename_i hn
        cases hstep
        exact ⟨X, h.scribble law word hn⟩

/-! ## Where a container starts -/

/-- Nobody is inside the free list, its head is mapped, and the links of mapped
nodes lead to mapped nodes. -/
structure Filled (next : P → Option P) (pool : Freelist.State Thread P) : Prop where
  closed : Closed next {n | pool.mapped n = true}
  head : ∀ n, pool.head = some n → pool.mapped n = true
  idle : ∀ t, pool.pc t = .idle

omit [DecidableEq Thread] in
/-- A node becomes mapped, and its link leads to a mapped node. -/
theorem Filled.map {next : P → Option P} {pool pool' : Freelist.State Thread P} {n : P}
    {link : Option P} (h : Filled next pool)
    (hmapped : pool'.mapped = Function.update pool.mapped n true)
    (hlink : ∀ m, link = some m → pool.mapped m = true)
    (hhead : ∀ m, pool'.head = some m → m = n ∨ pool.head = some m)
    (hpc : pool'.pc = pool.pc) : Filled (Function.update next n link) pool' := by
  have hkeeps : ∀ m, m = n ∨ pool.mapped m = true → pool'.mapped m = true := by
    intro m hm
    rw [hmapped, Function.update_apply]
    split
    · rfl
    · rename_i hne
      exact hm.resolve_left hne
  refine ⟨fun a ha m hm => hkeeps m (Or.inr ?_), fun m hm => hkeeps m ?_, fun t => ?_⟩
  · rw [Function.update_apply] at hm
    split at hm
    · exact hlink m hm
    · rename_i hne
      change pool'.mapped a = true at ha
      rw [hmapped, Function.update_of_ne hne] at ha
      exact h.closed a ha m hm
  · exact (hhead m hm).imp_right (h.head m)
  · rw [hpc]
    exact h.idle t

/-- The constructor leaves the free list filled. -/
theorem filled_of_start {pool : Freelist.State Thread P}
    (h : (Freelist.machine maxSize).start pool) : Filled pool.next pool := by
  obtain ⟨next, nodes, -, -, rfl⟩ := h
  have hempty : Filled next (Freelist.empty next : Freelist.State Thread P) :=
    ⟨fun n hn => (nomatch hn), fun n hn => (nomatch hn), fun t => rfl⟩
  change Filled (Freelist.empty next : Freelist.State Thread P).next _ at hempty
  revert hempty
  generalize (Freelist.empty next : Freelist.State Thread P) = pool
  induction nodes generalizing pool with
  | nil => exact fun h => h
  | cons n nodes ih =>
      intro h
      exact ih _ (h.map rfl h.head (fun m hm => Or.inl (Option.some.inj hm).symm) rfl)

omit [DecidableEq Thread] in
/-- An `allocate` without interference returns a mapped node; once its word is
cleared, the list is filled as before. -/
theorem Filled.allocateAlone {pool pool' : Freelist.State Thread P} {n : P}
    (h : Filled pool.next pool) (halone : Freelist.allocateAlone pool n = some pool') :
    Filled (Function.update pool'.next n none) pool' ∧ pool'.mapped n = true := by
  unfold Freelist.allocateAlone at halone
  split at halone
  · rename_i m hhead
    split at halone
    · rename_i hm
      cases halone
      have hmapped : pool.mapped m = true := h.head m hhead
      exact ⟨⟨h.closed.update fun q hq => (nomatch hq),
        fun q hq => h.closed m hmapped q hq, h.idle⟩, hm ▸ hmapped⟩
    · cases halone
  · split at halone
    · cases halone
    · cases halone
      exact ⟨h.map rfl (fun q hq => (nomatch hq)) (fun q hq => Or.inr hq) rfl,
        Function.update_self ..⟩

omit [DecidableEq Thread] [DecidableEq P] in
/-- A container whose threads are all outside may start over a filled list. -/
theorem Safe.start (hfilled : Filled (C.word s.client) s.pool)
    (hshared : ∀ n ∈ G.shared s.client, s.pool.mapped n = true)
    (hfollow : ∀ t, G.follow (C.pc s.client t) = [])
    (hown : ∀ t, G.own (C.pc s.client t) = []) :
    Safe C G s {n | s.pool.mapped n = true} := by
  refine ⟨⟨hfilled.closed, fun n hn => hn, hshared, fun t n hn => ?_, fun t n hn => ?_⟩,
    hfilled.head, fun t n hn => ?_, fun t n hn => ?_, fun t => ?_⟩
  · rw [hfollow t] at hn
    cases hn
  · rw [hown t] at hn
    cases hn
  · rw [hfilled.idle t] at hn
    cases hn
  · rw [hfilled.idle t] at hn
    cases hn
  · rw [hfilled.idle t]
    trivial

/-! ## Runs -/

/-- The run lemma: while only garbage goes back to the system, every pointer
leads to a mapped node. -/
theorem safe_of_reachable (law : Lawful C G) {start : State σ Thread P → Prop}
    (hstart : ∀ s, start s → ∃ X, Safe C G s X)
    (hreach : (machine C start maxSize).ReachableUnder (FreesGarbage C G) s) :
    ∃ X, Safe C G s X := by
  refine hreach.invariant (I := fun s => ∃ X, Safe C G s X) hstart ?_
  rintro s a s' ⟨X, hsafe⟩ hok hstep
  exact hsafe.step law hok hstep

/-- Every node that a thread touches in such a run is mapped. -/
theorem touches_mapped (law : Lawful C G) {start : State σ Thread P → Prop}
    (hstart : ∀ s, start s → ∃ X, Safe C G s X)
    (hreach : (machine C start maxSize).ReachableUnder (FreesGarbage C G) s) :
    TouchesMapped C s := by
  obtain ⟨X, hsafe⟩ := safe_of_reachable law hstart hreach
  exact hsafe.touchesMapped law

end Pool
end Lockfree
end Cyan

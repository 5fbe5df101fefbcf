import Cyan.Lockfree.QueueSteps

/-!
# What a step of the queue does

`Effect` lists, once and for all, what a step can do under the invariant: the
phase the thread leaves and enters, the memory it writes, the event it appends
and the new shape.  Every property of whole runs is derived from this list and
never looks into `step` again.

* `Inv.step`: every step from a state with the invariant is one of the effects
  and keeps the invariant, as long as the exchange counters have not wrapped.
* `reachable_shape`: the run rule.  A property that the initial states have and
  every effect keeps holds in every bounded reachable state, next to `Inv`.
-/

namespace Cyan
namespace Lockfree
namespace Queue

open Base

variable {Thread P T : Type*} [DecidableEq Thread] [DecidableEq P]
variable {s s' : State Thread P T} {sh sh' : Shape Thread P}

/-- The phases of a call: program counters between which nothing happens that
another thread or a later step could depend on. -/
inductive Phase (P T : Type*)
  | idle
  | asking (op : Nat) (value : T)
  | raw (op : Nat) (value : T) (n : P)
  | filling (op : Nat) (value : T) (n : P)
  | linking (op : Nat) (n : P)
  | linked (op : Nat)
  | searching (op : Nat) (value : T)
  | checking (op : Nat) (value : T) (head tail next : TaggedPtr P)
  | moving (op : Nat) (value : T) (head next : TaggedPtr P)
  | moved (op : Nat) (value : T) (head next : TaggedPtr P) (old : T × T)
  | won (op : Nat) (value : T) (item : Nat) (n : P)
  | fault

/-- The phase of a program counter. -/
def Pc.phase : Pc P T → Phase P T
  | .idle => .idle
  | .allocate op value => .asking op value
  | .initNext op value n => .raw op value n
  | .initData op value n => .filling op value n
  | .loadTail op n => .linking op n
  | .loadNext op n _ => .linking op n
  | .recheckTail op n _ _ => .linking op n
  | .casNext op n _ _ => .linking op n
  | .helpTail op n _ _ => .linking op n
  | .reloadTail op _ _ => .linked op
  | .swingTail op _ _ => .linked op
  | .loadHead op value => .searching op value
  | .loadTailAt op value _ => .searching op value
  | .loadHeadNext op value _ _ => .searching op value
  | .helpTailAt op value _ _ => .searching op value
  | .recheckHead op value head tail next => .checking op value head tail next
  | .moveData op value head next => .moving op value head next
  | .casHead op value head next old => .moved op value head next old
  | .deallocate op value item n => .won op value item n
  | .fault => .fault

/-- The private node of a phase. -/
def Phase.root : Phase P T → Option P
  | .filling _ _ n => some n
  | .linking _ n => some n
  | _ => none

omit [DecidableEq P] in
theorem Pc.root_eq (k : Pc P T) : k.root = k.phase.root := by
  cases k <;> rfl

/-- The phases of all threads. -/
def phases (s : State Thread P T) (t : Thread) : Phase P T :=
  (s.pc t).phase

omit [DecidableEq P] in
theorem phases_goto (s : State Thread P T) (t : Thread) (k : Pc P T) :
    phases (s.goto t k) = Function.update (phases s) t k.phase := by
  funext u
  by_cases hu : u = t
  · subst hu
    simp [phases]
  · simp [phases, goto_pc_of_ne k hu, hu]

/-- The effect of a step of thread `t` from `s` with shape `sh`. -/
inductive Effect (movedFrom : T → T) (s : State Thread P T)
    (sh : Shape Thread P) (t : Thread) (s' : State Thread P T)
    (sh' : Shape Thread P) : Prop
  /-- a call of `enqueue` or `emplace` begins -/
  | callEnqueue (value : T)
      (hphase : phases s t = .idle)
      (hphases : phases s' =
        Function.update (phases s) t (.asking s.trace.length value))
      (hheap : s'.heap = s.heap) (hhead : s'.head = s.head)
      (htrace : s'.trace = .callEnqueue s.trace.length value :: s.trace)
      (hshape : sh' = sh)
  /-- a call of `try_dequeue` begins -/
  | callDequeue (value : T)
      (hphase : phases s t = .idle)
      (hphases : phases s' =
        Function.update (phases s) t (.searching s.trace.length value))
      (hheap : s'.heap = s.heap) (hhead : s'.head = s.head)
      (htrace : s'.trace = .callDequeue s.trace.length value :: s.trace)
      (hshape : sh' = sh)
  /-- the pool hands out a node -/
  | allocate (op : Nat) (value : T) (n : P)
      (hphase : phases s t = .asking op value)
      (hphases : phases s' = Function.update (phases s) t (.raw op value n))
      (hheap : s'.heap = s.heap) (hhead : s'.head = s.head)
      (htrace : s'.trace = s.trace)
      (hloc : sh.loc n = .pooled) (hshape : sh' = sh.allocate t n)
  /-- the constructor resets `next` -/
  | construct (op : Nat) (value : T) (n : P)
      (hphase : phases s t = .raw op value n)
      (hphases : phases s' = Function.update (phases s) t (.filling op value n))
      (hheap : s'.heap =
        Function.update s.heap n { s.heap n with next := ⟨none, 0⟩, op := op })
      (hhead : s'.head = s.head) (htrace : s'.trace = s.trace)
      (hloc : sh.loc n = .raw t) (hshape : sh' = sh.construct t n)
  /-- the constructor stores the value -/
  | fill (op : Nat) (value : T) (n : P)
      (hphase : phases s t = .filling op value n)
      (hphases : phases s' = Function.update (phases s) t (.linking op n))
      (hheap : s'.heap =
        Function.update s.heap n { s.heap n with data := value })
      (hhead : s'.head = s.head) (htrace : s'.trace = s.trace)
      (hshape : sh' = sh)
  /-- the thread moves on within its phase, possibly helping `tail_` along -/
  | quiet (hphases : phases s' = phases s)
      (hheap : s'.heap = s.heap) (hhead : s'.head = s.head)
      (htrace : s'.trace = s.trace ∨ s'.trace = .swing :: s.trace)
      (hshape : sh' = sh)
  /-- the exchange on `tail->next` succeeds -/
  | link (op : Nat) (n a : P) (tail next : TaggedPtr P) (o : Option Thread)
      (hpc : s.pc t = .casNext op n tail next) (ha : tail.ptr = some a)
      (hfound : (s.heap a).next = next)
      (hphases : phases s' = Function.update (phases s) t (.linked op))
      (hheap : s'.heap = Function.update s.heap a
        { s.heap a with next := ⟨some n, next.getNextTag⟩ })
      (hhead : s'.head = s.head) (htrace : s'.trace = .link op :: s.trace)
      (hot : o ≠ some t) (hloc : sh.loc a = .linked o)
      (hshape : sh' = sh.link t o)
  /-- an enqueue returns, possibly after the exchange on `tail_` -/
  | retEnqueue (op : Nat)
      (hphase : phases s t = .linked op)
      (hphases : phases s' = Function.update (phases s) t .idle)
      (hheap : s'.heap = s.heap) (hhead : s'.head = s.head)
      (htrace : s'.trace = .retEnqueue op :: s.trace ∨
        s'.trace = .retEnqueue op :: .swing :: s.trace)
      (hshape : sh' = sh)
  /-- a dequeue loads the successor of the node it took for the head -/
  | sawNext (op : Nat) (value : T) (head tail : TaggedPtr P) (h : P)
      (hpc : s.pc t = .loadHeadNext op value head tail)
      (hh : head.ptr = some h)
      (hphases : phases s' = Function.update (phases s) t
        (.checking op value head tail (s.heap h).next))
      (hheap : s'.heap = s.heap) (hhead : s'.head = s.head)
      (htrace : s'.trace = s.trace) (hshape : sh' = sh)
  /-- a dequeue starts over, or helps `tail_` along first -/
  | retry (op : Nat) (value : T) (head tail next : TaggedPtr P)
      (hphase : phases s t = .checking op value head tail next)
      (hphases : phases s' = Function.update (phases s) t (.searching op value))
      (hheap : s'.heap = s.heap) (hhead : s'.head = s.head)
      (htrace : s'.trace = s.trace) (hshape : sh' = sh)
  /-- a dequeue finds the queue empty and returns `false` -/
  | retFalse (op : Nat) (value : T) (head tail next : TaggedPtr P)
      (hphase : phases s t = .checking op value head tail next)
      (hfound : s.head = head) (hsame : head.ptr = tail.ptr)
      (hnull : next.ptr = none)
      (hphases : phases s' = Function.update (phases s) t .idle)
      (hheap : s'.heap = s.heap) (hhead : s'.head = s.head)
      (htrace : s'.trace = .retDequeue op none value :: s.trace)
      (hshape : sh' = sh)
  /-- a dequeue's re-check of `head_` succeeds -/
  | toMove (op : Nat) (value : T) (head tail next : TaggedPtr P)
      (hphase : phases s t = .checking op value head tail next)
      (hfound : s.head = head) (hne : head.ptr ≠ tail.ptr)
      (hphases : phases s' =
        Function.update (phases s) t (.moving op value head next))
      (hheap : s'.heap = s.heap) (hhead : s'.head = s.head)
      (htrace : s'.trace = s.trace) (hshape : sh' = sh)
  /-- a dequeue moves the value out of the node -/
  | move (op : Nat) (value : T) (head next : TaggedPtr P) (x : P)
      (hphase : phases s t = .moving op value head next)
      (hx : next.ptr = some x)
      (hphases : phases s' = Function.update (phases s) t
        (.moved op (s.heap x).data head next (value, (s.heap x).data)))
      (hheap : s'.heap = Function.update s.heap x
        { s.heap x with data := movedFrom (s.heap x).data })
      (hhead : s'.head = s.head) (htrace : s'.trace = s.trace)
      (hshape : sh' = sh)
  /-- the exchange on `head_` fails -/
  | lost (op : Nat) (value : T) (head next : TaggedPtr P) (old : T × T)
      (hphase : phases s t = .moved op value head next old)
      (hmissed : s.head ≠ head)
      (hphases : phases s' = Function.update (phases s) t (.searching op value))
      (hheap : s'.heap = s.heap) (hhead : s'.head = s.head)
      (htrace : s'.trace = s.trace) (hshape : sh' = sh)
  /-- the exchange on `head_` succeeds -/
  | take (op : Nat) (value : T) (head next : TaggedPtr P) (old : T × T)
      (h x : P) (rest : List P)
      (hphase : phases s t = .moved op value head next old)
      (hfound : s.head = head) (hh : head.ptr = some h)
      (hx : next.ptr = some x) (hchain : sh.chain none = h :: x :: rest)
      (hphases : phases s' = Function.update (phases s) t
        (.won op value (s.heap x).op h))
      (hheap : s'.heap = s.heap)
      (htrace : s'.trace = .take op (s.heap x).op :: s.trace)
      (hshape : sh' = sh.take t h)
  /-- a dequeue gives the old head back and returns `true` -/
  | release (op : Nat) (value : T) (item : Nat) (n : P) (word : Option P)
      (hphase : phases s t = .won op value item n)
      (hphases : phases s' = Function.update (phases s) t .idle)
      (hheap : s'.heap = Function.update s.heap n
        { s.heap n with next := ⟨word, (s.heap n).next.tag⟩ })
      (hhead : s'.head = s.head)
      (htrace : s'.trace = .retDequeue op (some item) value :: s.trace)
      (hloc : sh.loc n = .retired t) (hshape : sh' = sh.release n)

/-- The step of a thread leaves the phases of the others alone. -/
theorem Effect.others {movedFrom : T → T} {t u : Thread}
    (heffect : Effect movedFrom s sh t s' sh') (hu : u ≠ t) :
    phases s' u = phases s u := by
  cases heffect <;> simp_all

/-- The thread that an action concerns. -/
def Action.thread : Action Thread P T → Thread
  | .enqueue t _ => t
  | .emplace t _ => t
  | .tryDequeue t _ => t
  | .run t => t
  | .allocate t _ => t
  | .deallocate t _ => t

/-! ## The trace only grows -/

section

omit [DecidableEq Thread]

theorem exchangeTail_trace (tail newTail : TaggedPtr P) :
    (exchangeTail s tail newTail).trace = s.trace ∨
      (exchangeTail s tail newTail).trace = .swing :: s.trace := by
  unfold exchangeTail
  split
  · exact .inr rfl
  · exact .inl rfl

theorem exchangeTail_heap (tail newTail : TaggedPtr P) :
    (exchangeTail s tail newTail).heap = s.heap := by
  unfold exchangeTail
  split <;> rfl

theorem exchangeTail_head (tail newTail : TaggedPtr P) :
    (exchangeTail s tail newTail).head = s.head := by
  unfold exchangeTail
  split <;> rfl

end

omit [DecidableEq Thread] in
theorem exchangeTail_suffix (tail newTail : TaggedPtr P) :
    s.trace <:+ (exchangeTail s tail newTail).trace := by
  rcases exchangeTail_trace (s := s) tail newTail with h | h
  · exact h ▸ List.suffix_refl _
  · exact h ▸ List.suffix_cons _ _

theorem stepEnqueue_suffix {t : Thread} {k : Pc P T}
    (h : stepEnqueue s t k = some s') : s.trace <:+ s'.trace := by
  cases k <;> simp only [stepEnqueue] at h <;> (repeat' split at h) <;>
    cases h <;>
    first
      | exact List.suffix_refl _
      | exact List.suffix_cons _ _
      | exact exchangeTail_suffix _ _
      | exact (exchangeTail_suffix _ _).trans (List.suffix_cons _ _)

theorem stepDequeue_suffix {movedFrom : T → T} {t : Thread} {k : Pc P T}
    (h : stepDequeue movedFrom s t k = some s') : s.trace <:+ s'.trace := by
  cases k <;> simp only [stepDequeue] at h <;> (repeat' split at h) <;>
    cases h <;>
    first
      | exact List.suffix_refl _
      | exact List.suffix_cons _ _
      | exact exchangeTail_suffix _ _

/-- No step forgets an event. -/
theorem step_suffix {movedFrom : T → T} {a : Action Thread P T}
    (h : step movedFrom s a = some s') : s.trace <:+ s'.trace := by
  cases a with
  | enqueue t value =>
      simp only [step, enqueue, beginEnqueue] at h
      split at h <;> cases h
      exact List.suffix_cons _ _
  | emplace t value =>
      simp only [step, emplace, beginEnqueue] at h
      split at h <;> cases h
      exact List.suffix_cons _ _
  | tryDequeue t value =>
      simp only [step, tryDequeue] at h
      split at h <;> cases h
      exact List.suffix_cons _ _
  | run t =>
      simp only [step, Option.orElse_eq_orElse, Option.orElse_eq_or,
        Option.or_eq_some_iff] at h
      rcases h with h | ⟨-, h⟩
      · exact stepEnqueue_suffix h
      · exact stepDequeue_suffix h
  | allocate t n =>
      simp only [step] at h
      (repeat' split at h) <;> cases h
      exact List.suffix_refl _
  | deallocate t word =>
      simp only [step] at h
      split at h <;> cases h
      exact List.suffix_cons _ _

theorem takes_append (tr₁ tr₂ : List (Event T)) :
    takes (tr₁ ++ tr₂) = takes tr₁ + takes tr₂ := by
  induction tr₁ with
  | nil => simp [takes]
  | cons e tr₁ ih => cases e <;> simp [takes, ih]; omega

theorem swings_append (tr₁ tr₂ : List (Event T)) :
    swings (tr₁ ++ tr₂) = swings tr₁ + swings tr₂ := by
  induction tr₁ with
  | nil => simp [swings]
  | cons e tr₁ ih => cases e <;> simp [swings, ih]; omega

/-- The exchange counters never fall back. -/
theorem Bounded.back {movedFrom : T → T} {a : Action Thread P T}
    (hstep : step movedFrom s a = some s') (h : Bounded s') : Bounded s := by
  obtain ⟨tr, htr⟩ := step_suffix hstep
  have htakes := takes_append tr s.trace
  have hswings := swings_append tr s.trace
  rw [htr] at htakes hswings
  obtain ⟨h₁, h₂⟩ := h
  exact ⟨by omega, by omega⟩

/-! ## Every step is one of the effects -/

omit [DecidableEq P] in
/-- A thread moves on without writing anything. -/
theorem Inv.goto {t : Thread} {k : Pc P T} (hinv : Inv s sh)
    (hroot : k.root = (s.pc t).root) (hlocal : Local s sh t k) :
    Inv (s.goto t k) sh := by
  refine hinv.of_same (t := t) (.goto t k) (fun u hu => goto_pc_of_ne k hu) ?_ ?_
  · rw [goto_pc_self]
    exact hroot
  · rw [goto_pc_self]
    exact hlocal

/-- Moving on inside a phase is quiet. -/
theorem Inv.quiet {movedFrom : T → T} {t : Thread} {k : Pc P T}
    (hinv : Inv s sh) (hk : k.phase = (s.pc t).phase) (hlocal : Local s sh t k) :
    ∃ sh', Effect movedFrom s sh t (s.goto t k) sh' ∧ Inv (s.goto t k) sh' := by
  refine ⟨sh, .quiet ?_ rfl rfl (.inl rfl) rfl, hinv.goto ?_ hlocal⟩
  · rw [phases_goto, hk]
    exact Function.update_eq_self t (phases s)
  · rw [Pc.root_eq, Pc.root_eq, hk]

/-- Helping `tail_` along is quiet. -/
theorem Inv.quiet_exchange {movedFrom : T → T} {t : Thread} {k : Pc P T}
    {tail newTail : TaggedPtr P} (hinv : Inv s sh) (hbound : Bounded s)
    (hready : SwingReady s tail newTail) (hk : k.phase = (s.pc t).phase)
    (hlocal : Local (Queue.exchangeTail s tail newTail) sh t k) :
    ∃ sh', Effect movedFrom s sh t
        ((Queue.exchangeTail s tail newTail).goto t k) sh' ∧
      Inv ((Queue.exchangeTail s tail newTail).goto t k) sh' := by
  have hpc := exchangeTail_pc (s := s) tail newTail
  refine ⟨sh, .quiet ?_ (exchangeTail_heap _ _) (exchangeTail_head _ _)
    (exchangeTail_trace _ _) rfl,
    (hinv.exchangeTail hready hbound.2).goto ?_ hlocal⟩
  · rw [phases_goto, hk]
    have hsame : phases (Queue.exchangeTail s tail newTail) = phases s := by
      funext u
      rw [phases, phases, hpc]
    rw [hsame]
    exact Function.update_eq_self t (phases s)
  · rw [hpc, Pc.root_eq, Pc.root_eq, hk]

section

omit [DecidableEq Thread] [DecidableEq P]

/-- A load of `tail_` sees its current value. -/
theorem Inv.tail_seen (hinv : Inv s sh) {fact : P → Prop}
    (hfact : ∀ a, s.tail.ptr = some a → fact a) : TailSeen s s.tail fact := by
  obtain ⟨a, -, ha⟩ := hinv.global.tail_mem
  exact ⟨a, ha, _, Nat.le_refl _, hinv.global.tail_tag,
    fun _ => ⟨rfl, hfact a ha⟩⟩

/-- A load of `head_` sees its current value. -/
theorem Inv.head_seen (hinv : Inv s sh) {fact : P → Prop}
    (hfact : ∀ a, s.head.ptr = some a → fact a) : HeadSeen s s.head fact := by
  obtain ⟨a, ha⟩ : ∃ a, s.head.ptr = some a := by
    obtain ⟨b, hb, -⟩ := hinv.global.tail_mem
    have hpath := hinv.global.path none
    cases hchain : sh.chain none with
    | nil => rw [hchain] at hb; cases hb
    | cons a l =>
        rw [hchain] at hpath
        exact ⟨a, hpath.1⟩
  exact ⟨a, ha, _, Nat.le_refl _, hinv.global.head_tag,
    fun _ => ⟨rfl, hfact a ha⟩⟩

/-- A node behind `head_` that is not the node of `tail_` has a successor. -/
theorem Global.next_ne_none (h : Global s sh) {a : P}
    (ha : s.head.ptr = some a) (htail : s.tail.ptr ≠ some a) :
    nextPtr s a ≠ none := by
  intro hnone
  obtain ⟨l₀, hl₀⟩ := (h.path none).exists_snoc (h.head_mem ha) hnone
  have hpath := h.path none
  obtain ⟨b, hb, htb⟩ := h.tail_mem
  rw [entry, ha] at hpath
  have hsingle : sh.chain none = [a] := by
    refine hpath.unique ⟨rfl, ?_⟩
    rw [hnone]
    rfl
  rw [hsingle, List.mem_singleton] at hb
  subst hb
  exact htail htb

end

section

omit [DecidableEq Thread] [DecidableEq P]

/-- A constructed node on a chain whose `next` is null has the reset word. -/
theorem Global.next_tag (h : Global s sh) {a : P} {o : Option Thread}
    (ha : a ∈ sh.chain o) (hnone : (s.heap a).next.ptr = none) :
    (s.heap a).next.tag = 0 := by
  rcases (h.linked o a ((h.mem_chain o a).mp ha)).2 with hnull | ⟨hne, -⟩
  · rw [hnull]
  · exact absurd hnone hne

theorem TailSeen.imp {tail : TaggedPtr P} {fact fact' : P → Prop}
    (h : TailSeen s tail fact) (hfact : ∀ a, tail.ptr = some a → tail = s.tail →
      fact a → fact' a) : TailSeen s tail fact' := by
  obtain ⟨a, ha, k, hk, htag, hnow⟩ := h
  refine ⟨a, ha, k, hk, htag, fun heq => ?_⟩
  obtain ⟨hv, hf⟩ := hnow heq
  exact ⟨hv, hfact a ha hv hf⟩

theorem HeadSeen.imp {head : TaggedPtr P} {fact fact' : P → Prop}
    (h : HeadSeen s head fact) (hfact : ∀ a, head.ptr = some a → head = s.head →
      fact a → fact' a) : HeadSeen s head fact' := by
  obtain ⟨a, ha, k, hk, htag, hnow⟩ := h
  refine ⟨a, ha, k, hk, htag, fun heq => ?_⟩
  obtain ⟨hv, hf⟩ := hnow heq
  exact ⟨hv, hfact a ha hv hf⟩

end

/-- The steps of `enqueue(node*)`. -/
theorem Inv.stepEnqueue {movedFrom : T → T} {t : Thread} (hinv : Inv s sh)
    (hbound : Bounded s) (hstep : stepEnqueue s t (s.pc t) = some s') :
    ∃ sh', Effect movedFrom s sh t s' sh' ∧ Inv s' sh' := by
  have hglobal := hinv.global
  have hlocal := hinv.threads t
  cases hpc : s.pc t with
  | initNext op value n =>
      rw [hpc] at hstep hlocal
      cases hstep
      refine ⟨_, .construct op value n ?_ ?_ rfl rfl rfl hlocal rfl,
        hinv.construct hpc⟩
      · rw [phases, hpc]; rfl
      · exact phases_goto _ _ _
  | initData op value n =>
      rw [hpc] at hstep hlocal
      cases hstep
      have hmid : Inv (s.setData n value) sh :=
        hinv.of_same (t := t) (.setNode rfl) (fun _ _ => rfl) rfl
          (by change Local _ sh t (s.pc t); rw [hpc]; trivial)
      refine ⟨sh, .fill op value n ?_ ?_ rfl rfl rfl rfl, hmid.goto ?_ trivial⟩
      · rw [phases, hpc]; rfl
      · exact phases_goto _ _ _
      · change _ = (s.pc t).root
        rw [hpc]
        rfl
  | loadTail op n =>
      rw [hpc] at hstep
      cases hstep
      exact hinv.quiet (by rw [hpc]; rfl) (hinv.tail_seen fun _ _ => trivial)
  | loadNext op n tail =>
      rw [hpc] at hstep hlocal
      obtain ⟨a, ha, hseen⟩ := hlocal
      simp only [Queue.stepEnqueue, ha, Option.some.injEq] at hstep
      subst hstep
      refine hinv.quiet (by rw [hpc]; rfl) ?_
      have hloaded : TailSeen s tail fun _ => True := ⟨a, ha, hseen⟩
      refine hloaded.imp ?_
      intro b hb hcurrent _
      rw [ha] at hb
      cases hb
      refine ⟨fun hnone => ?_, fun _ => rfl⟩
      obtain ⟨c, hc, htc⟩ := hglobal.tail_mem
      rw [← hcurrent, ha] at htc
      cases htc
      exact hglobal.next_tag hc hnone
  | recheckTail op n tail next =>
      rw [hpc] at hstep hlocal
      simp only [Queue.stepEnqueue] at hstep
      split at hstep
      · rename_i heq
        have htrue : TailSeen s tail fun _ => True :=
          TailSeen.imp hlocal fun _ _ _ _ => trivial
        obtain ⟨a, ha, hseen⟩ := hlocal
        obtain ⟨hnull, hnext⟩ :=
          hseen.current hbound.2 hglobal.tail_tag heq.symm
        split at hstep
        · rename_i hnone
          cases hstep
          refine hinv.quiet (by rw [hpc]; rfl) ⟨?_, htrue, fun b hb => ?_⟩
          · have htag := hnull hnone
            cases next
            simp_all
          · obtain ⟨c, hc, htc⟩ := hglobal.tail_mem
            rw [← heq, hb] at htc
            cases htc
            have hloc := (hglobal.mem_chain none b).mp hc
            refine ⟨(hglobal.linked none b hloc).1, fun hheld => ?_⟩
            rw [hloc] at hheld
            exact hheld.elim
        · rename_i hsome
          cases hstep
          refine hinv.quiet (by rw [hpc]; rfl) ⟨hsome, ?_⟩
          refine htrue.imp fun b hb hcurrent _ => ?_
          rw [ha] at hb
          cases hb
          refine ⟨TaggedPtr.getNextTag_eq _, ?_⟩
          rw [nextPtr, hnext hsome]
      · cases hstep
        exact hinv.quiet (by rw [hpc]; rfl) trivial
  | casNext op n tail next =>
      rw [hpc] at hstep hlocal
      obtain ⟨hnull, ⟨a, ha, hseen⟩, hstale⟩ := hlocal
      simp only [Queue.stepEnqueue, ha] at hstep
      split at hstep
      · rename_i hfound
        cases hstep
        obtain ⟨o, hot, ho, hstamp⟩ := hinv.link_target hpc ha hfound
        refine ⟨sh.link t o,
          .link op n a tail next o hpc ha hfound (phases_goto _ _ _) rfl rfl rfl
            hot ho rfl,
          hinv.link hpc ha hfound hot ho hstamp⟩
      · cases hstep
        exact hinv.quiet (by rw [hpc]; rfl) trivial
  | reloadTail op n tail =>
      rw [hpc] at hstep hlocal
      cases hstep
      refine hinv.quiet (by rw [hpc]; rfl) ⟨by simp, ?_⟩
      refine TailSeen.imp hlocal fun a ha hcurrent hnext => ⟨?_, hnext⟩
      rw [TaggedPtr.getNextTag_eq, hcurrent]
  | swingTail op tail newTail =>
      rw [hpc] at hstep hlocal
      cases hstep
      have hmid := hinv.exchangeTail hlocal hbound.2
      have hpcs := exchangeTail_pc (s := s) tail newTail
      refine ⟨sh, .retEnqueue op ?_ ?_ (exchangeTail_heap _ _)
        (exchangeTail_head _ _) ?_ rfl, ?_⟩
      · rw [phases, hpc]; rfl
      · rw [phases_goto]
        congr 1
        funext u
        exact congrArg (fun pc => (pc u).phase) hpcs
      · rcases exchangeTail_trace (s := s) tail newTail with h | h
        · exact .inl (congrArg _ h)
        · exact .inr (congrArg _ h)
      · refine hmid.of_same (t := t)
          ((SameMemory.emit (by trivial)).trans (.goto t .idle))
          (fun u hu => goto_pc_of_ne _ hu) ?_ ?_
        · rw [goto_pc_self, hpcs, hpc]
          rfl
        · rw [goto_pc_self]
          trivial
  | helpTail op n tail newTail =>
      rw [hpc] at hstep hlocal
      cases hstep
      exact hinv.quiet_exchange hbound hlocal (by rw [hpc]; rfl) trivial
  | _ => rw [hpc] at hstep; cases hstep

/-- The steps of `try_dequeue`. -/
theorem Inv.stepDequeue {movedFrom : T → T} {t : Thread} (hinv : Inv s sh)
    (hbound : Bounded s)
    (hstep : stepDequeue movedFrom s t (s.pc t) = some s') :
    ∃ sh', Effect movedFrom s sh t s' sh' ∧ Inv s' sh' := by
  have hglobal := hinv.global
  have hlocal := hinv.threads t
  cases hpc : s.pc t with
  | loadHead op value =>
      rw [hpc] at hstep
      cases hstep
      exact hinv.quiet (by rw [hpc]; rfl) (hinv.head_seen fun _ _ => trivial)
  | loadTailAt op value head =>
      rw [hpc] at hstep hlocal
      cases hstep
      refine hinv.quiet (by rw [hpc]; rfl)
        ⟨hinv.tail_seen fun _ _ => trivial, ?_⟩
      refine HeadSeen.imp hlocal fun a ha hcurrent _ hne => ⟨hne, ?_⟩
      rw [ha] at hne
      exact hglobal.next_ne_none (hcurrent ▸ ha) hne
  | loadHeadNext op value head tail =>
      rw [hpc] at hstep hlocal
      obtain ⟨htail, hhead⟩ := hlocal
      obtain ⟨h, hh, -⟩ := id hhead
      simp only [Queue.stepDequeue, hh, Option.some.injEq] at hstep
      subst hstep
      refine ⟨sh, .sawNext op value head tail h hpc hh (phases_goto _ _ _) rfl rfl
        rfl rfl, hinv.goto (by rw [hpc]; rfl) ⟨htail, ?_⟩⟩
      refine HeadSeen.imp hhead fun a ha _ hfact => ?_
      rw [hh] at ha
      cases ha
      exact ⟨fun _ => rfl, hfact⟩
  | recheckHead op value head tail next =>
      rw [hpc] at hstep hlocal
      have hphase : phases s t = .checking op value head tail next := by
        rw [phases, hpc]; rfl
      simp only [Queue.stepDequeue] at hstep
      split at hstep
      · rename_i heq
        obtain ⟨htail, hhead⟩ := hlocal
        obtain ⟨h, hh, hseen⟩ := id hhead
        obtain ⟨hsame, hne⟩ := hseen.current hbound.1 hglobal.head_tag heq.symm
        split at hstep
        · rename_i hptr
          split at hstep
          · rename_i hnone
            cases hstep
            refine ⟨sh, .retFalse op value head tail next hphase heq.symm hptr
              hnone (phases_goto _ _ _) rfl rfl rfl rfl, ?_⟩
            refine hinv.of_same (t := t)
              ((SameMemory.emit (by trivial)).trans (.goto t .idle))
              (fun u hu => goto_pc_of_ne _ hu) ?_ ?_
            · rw [goto_pc_self, hpc]
              rfl
            · rw [goto_pc_self]
              trivial
          · rename_i hsome
            cases hstep
            refine ⟨sh, .retry op value head tail next hphase (phases_goto _ _ _)
              rfl rfl rfl rfl, hinv.goto (by rw [hpc]; rfl) ⟨hsome, ?_⟩⟩
            refine TailSeen.imp htail fun a ha _ _ => ?_
            rw [← hptr, hh] at ha
            cases ha
            refine ⟨TaggedPtr.getNextTag_eq _, ?_⟩
            rw [nextPtr, hsame hsome]
        · rename_i hptr
          cases hstep
          obtain ⟨hoff, hsome⟩ := hne (Ne.symm hptr)
          refine ⟨sh, .toMove op value head tail next hphase heq.symm hptr
            (phases_goto _ _ _) rfl rfl rfl rfl,
            hinv.goto (by rw [hpc]; rfl) ⟨hsome, ?_⟩⟩
          refine HeadSeen.imp hhead fun a ha _ hfact => ?_
          exact ⟨hfact.1 hsome, hoff⟩
      · cases hstep
        exact ⟨sh, .retry op value head tail next hphase (phases_goto _ _ _) rfl
          rfl rfl rfl, hinv.goto (by rw [hpc]; rfl) trivial⟩
  | helpTailAt op value tail node =>
      rw [hpc] at hstep hlocal
      cases hstep
      exact hinv.quiet_exchange hbound hlocal (by rw [hpc]; rfl) trivial
  | moveData op value head next =>
      rw [hpc] at hstep hlocal
      obtain ⟨hsome, hseen⟩ := hlocal
      obtain ⟨x, hx⟩ := Option.ne_none_iff_exists'.mp hsome
      simp only [Queue.stepDequeue, hx, Option.some.injEq] at hstep
      subst hstep
      have hsame : SameMemory s (s.setData x (movedFrom (s.heap x).data)) :=
        .setNode rfl
      have hready : HeadSeen (s.setData x (movedFrom (s.heap x).data)) head
          fun h => ((s.setData x (movedFrom (s.heap x).data)).heap h).next = next ∧
            s.tail.ptr ≠ head.ptr := by
        obtain ⟨h, hh, hs⟩ := hseen
        exact ⟨h, hh, hs.mono (Nat.le_refl _) (fun _ => rfl)
          fun _ _ hf => ⟨(hsame.next h).trans hf.1, hf.2⟩⟩
      have hmid : Inv (s.setData x (movedFrom (s.heap x).data)) sh :=
        hinv.of_same (t := t) hsame (fun _ _ => rfl) rfl
          (by change Local _ sh t (s.pc t); rw [hpc]; exact ⟨hsome, hready⟩)
      refine ⟨sh, .move op value head next x ?_ hx (phases_goto _ _ _) rfl rfl rfl
        rfl, hmid.goto ?_ ⟨hsome, hready⟩⟩
      · rw [phases, hpc]; rfl
      · change _ = (s.pc t).root
        rw [hpc]
        rfl
  | casHead op value head next old =>
      rw [hpc] at hstep hlocal
      have hphase : phases s t = .moved op value head next old := by
        rw [phases, hpc]; rfl
      obtain ⟨hsome, hready⟩ := hlocal
      obtain ⟨h, hh, -⟩ := id hready
      obtain ⟨x, hx⟩ := Option.ne_none_iff_exists'.mp hsome
      simp only [Queue.stepDequeue, hh, hx] at hstep
      split at hstep
      · rename_i heq
        cases hstep
        obtain ⟨htail, rest, hchain⟩ := hinv.window_chain hbound.1 hready hh hx heq
        have htag : head.getNextTag = s.head.tag + 1 := by
          rw [TaggedPtr.getNextTag_eq, heq]
        have hmid := hinv.take t op (s.heap x).op hchain htail htag
        refine ⟨sh.take t h, .take op value head next old h x rest hphase heq hh hx
          hchain (phases_goto _ _ _) rfl rfl rfl, hmid.goto ?_ ?_⟩
        · change _ = (s.pc t).root
          rw [hpc]
          rfl
        · exact Function.update_self ..
      · rename_i hmissed
        cases hstep
        exact ⟨sh, .lost op value head next old hphase hmissed (phases_goto _ _ _)
          rfl rfl rfl rfl, hinv.goto (by rw [hpc]; rfl) trivial⟩
  | _ => rw [hpc] at hstep; cases hstep

omit [DecidableEq P] in
/-- A call that begins on an idle thread. -/
theorem Inv.begin {t : Thread} {k : Pc P T} {e : Event T} (hinv : Inv s sh)
    (hidle : s.pc t = .idle) (he : e.Neutral) (hroot : k.root = none)
    (hlocal : Local ((s.goto t k).emit e) sh t k) :
    Inv ((s.goto t k).emit e) sh := by
  have hpc : ((s.goto t k).emit e).pc t = k := goto_pc_self t k
  refine hinv.of_same (t := t) ((SameMemory.goto t k).trans (.emit he))
    (fun u hu => goto_pc_of_ne k hu) ?_ ?_
  · rw [hpc, hidle]
    exact hroot
  · rw [hpc]
    exact hlocal

/-- The calls of `enqueue` and `emplace`. -/
theorem Inv.beginEnqueue {movedFrom : T → T} {t : Thread} {value : T}
    (hinv : Inv s sh) (hstep : beginEnqueue s t value = some s') :
    ∃ sh', Effect movedFrom s sh t s' sh' ∧ Inv s' sh' := by
  unfold Queue.beginEnqueue at hstep
  split at hstep
  · rename_i hidle
    cases hstep
    refine ⟨sh, .callEnqueue value ?_ (phases_goto _ _ _) rfl rfl rfl rfl,
      hinv.begin hidle trivial rfl trivial⟩
    rw [phases, hidle]
    rfl
  · cases hstep

/-- Every step is one of the effects and keeps the invariant. -/
theorem Inv.step {movedFrom : T → T} {a : Action Thread P T} (hinv : Inv s sh)
    (hbound : Bounded s) (hstep : step movedFrom s a = some s') :
    ∃ sh', Effect movedFrom s sh a.thread s' sh' ∧ Inv s' sh' := by
  cases a with
  | enqueue t value => exact hinv.beginEnqueue hstep
  | emplace t value => exact hinv.beginEnqueue hstep
  | tryDequeue t value =>
      simp only [Queue.step, tryDequeue] at hstep
      split at hstep
      · rename_i hidle
        cases hstep
        refine ⟨sh, .callDequeue value ?_ (phases_goto _ _ _) rfl rfl rfl rfl,
          hinv.begin hidle trivial rfl trivial⟩
        rw [Action.thread, phases, hidle]
        rfl
      · cases hstep
  | run t =>
      simp only [Queue.step, Option.orElse_eq_orElse, Option.orElse_eq_or,
        Option.or_eq_some_iff] at hstep
      rcases hstep with hstep | ⟨-, hstep⟩
      · exact hinv.stepEnqueue hbound hstep
      · exact hinv.stepDequeue hbound hstep
  | allocate t n =>
      simp only [Queue.step] at hstep
      split at hstep
      · rename_i op value hpc
        split at hstep
        · cases hstep
        · rename_i hfree
          cases hstep
          have hfree : s.allocated n = false := by simpa using hfree
          have hloc : sh.loc n = .pooled := by
            by_contra hne
            rw [(hinv.global.allocated n).mpr hne] at hfree
            cases hfree
          refine ⟨sh.allocate t n, .allocate op value n ?_ (phases_goto _ _ _) rfl
            rfl rfl hloc rfl, (hinv.allocate t hfree).goto ?_ ?_⟩
          · rw [Action.thread, phases, hpc]
            rfl
          · change _ = (s.pc t).root
            rw [hpc]
            rfl
          · exact Function.update_self ..
      · cases hstep
  | deallocate t word =>
      simp only [Queue.step] at hstep
      split at hstep
      · rename_i op value item n hpc
        cases hstep
        have hloc : sh.loc n = .retired t := by
          have hlocal := hinv.threads t
          rw [hpc] at hlocal
          exact hlocal
        have hmid : Inv ((s.emit (.retDequeue op (some item) value)).goto t .idle)
            sh :=
          hinv.of_same (t := t) ((SameMemory.emit (by trivial)).trans (.goto t .idle))
            (fun u hu => goto_pc_of_ne _ hu)
            (by rw [goto_pc_self, hpc]; rfl) (by rw [goto_pc_self]; trivial)
        refine ⟨sh.release n, .release op value item n word ?_ (phases_goto _ _ _)
          rfl rfl rfl hloc rfl, hmid.release word hloc (goto_pc_self _ _)⟩
        rw [Action.thread, phases, hpc]
        rfl
      · cases hstep

/-! ## The run rule -/

/-- The shape of a new queue: one dummy node. -/
def Shape.initial (dummy : P) : Shape Thread P where
  chain := fun o => if o = none then [dummy] else []
  loc := fun p => if p = dummy then .linked none else .pooled
  stamp := fun _ => 0
  clock := 1
  used := fun p => p = dummy

omit [DecidableEq Thread] in
theorem Inv.initial (heap : P → Node P T) (dummy : P) (data : T) :
    Inv (Queue.initial heap dummy data)
      (Shape.initial dummy : Shape Thread P) := by
  have hself : ((Queue.initial heap dummy data : State Thread P T).heap dummy).next =
      ⟨none, 0⟩ := by
    simp [Queue.initial]
  have hlinked : ∀ {o : Option Thread} {p : P},
      (Shape.initial dummy : Shape Thread P).loc p = .linked o →
        p = dummy ∧ o = none := by
    intro o p hp
    simp only [Shape.initial] at hp
    split at hp
    · rename_i heq
      cases hp
      exact ⟨heq, rfl⟩
    · cases hp
  refine ⟨?_, fun t => trivial⟩
  exact {
    path := fun o => by
      cases o with
      | none =>
          refine ⟨rfl, ?_⟩
          rw [nextPtr, hself]
          rfl
      | some t => exact rfl
    mem_chain := fun o p => by
      constructor
      · intro hp
        cases o with
        | none =>
            have : p = dummy := by simpa [Shape.initial] using hp
            simp [Shape.initial, this]
        | some t => simp [Shape.initial] at hp
      · intro hp
        obtain ⟨rfl, rfl⟩ := hlinked hp
        simp [Shape.initial]
    tail_mem := ⟨dummy, by simp [Shape.initial], rfl⟩
    head_tag := rfl
    tail_tag := rfl
    allocated := fun p => by
      by_cases hp : p = dummy <;> simp [Queue.initial, Shape.initial, hp]
    linked := fun o p hp => by
      obtain ⟨rfl, rfl⟩ := hlinked hp
      exact ⟨rfl, .inl hself⟩
    unlinked := fun p hused hoff => by
      cases hused
      exact absurd (by simp [Shape.initial]) (hoff none)
    stamps := fun t => by simp [Shape.initial]
    stamp_lt := fun p _ => Nat.zero_lt_one }

/-- The run rule: what a new queue has and every effect keeps holds, next to
the invariant, in every bounded state of every run. -/
theorem reachable_shape {movedFrom : T → T}
    {ok : State Thread P T → Action Thread P T → Prop}
    {L : State Thread P T → Shape Thread P → Prop}
    (hstart : ∀ heap dummy data,
      L (initial heap dummy data) (Shape.initial dummy))
    (hstep : ∀ s a s' sh sh', ok s a → Bounded s → Bounded s' → Inv s sh → Inv s' sh' →
      Effect movedFrom s sh a.thread s' sh' → L s sh → L s' sh')
    (hreach : (machine movedFrom).ReachableUnder ok s) (hbound : Bounded s) :
    ∃ sh, Inv s sh ∧ L s sh := by
  refine hreach.invariant_within (W := Bounded)
    (I := fun s => ∃ sh, Inv s sh ∧ L s sh)
    (fun s a s' h hb => hb.back h) ?_ ?_ hbound
  · rintro s ⟨heap, dummy, data, rfl⟩
    exact ⟨_, Inv.initial heap dummy data, hstart heap dummy data⟩
  · rintro s a s' ⟨sh, hinv, hl⟩ hok hs hb
    have hbound := hb.back hs
    obtain ⟨sh', heffect, hinv'⟩ := hinv.step hbound hs
    exact ⟨sh', hinv', hstep s a s' sh sh' hok hbound hb hinv hinv' heffect hl⟩

end Queue
end Lockfree
end Cyan

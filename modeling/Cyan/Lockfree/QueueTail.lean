import Cyan.Lockfree.QueueConservation
import Cyan.Lockfree.QueueTags

/-!
# The tail never falls behind the head

`try_dequeue` loads `head_`, `tail_` and `head->next` one after the other and checks only `head_`
again.  This module says what it may conclude when the check succeeds and the two nodes differ: the
successor that it loaded is there, and an enqueue has written its value before it linked it.

* `OnChain` is membership in a chain, in terms of the memory alone.
* A link of a node on a chain has come about by an exchange of an enqueue (`Effect.linkedFrom`), and
  that enqueue has filled the node before (`Effect.filled`).
* As long as the node is on a chain, its value stays (`Effect.data`).
-/

namespace Cyan
namespace Lockfree
namespace Queue

open Base

variable {Thread P T : Type*} [DecidableEq Thread] [DecidableEq P]

/-- The node is on a chain: behind `head_`, or behind the private node of an enqueue. -/
def OnChain (s : State Thread P T) (p : P) : Prop :=
  ∃ o l, Path (nextPtr s) (entry s o) l none ∧ p ∈ l

/-- `x` follows `h` on a chain. -/
def LinkedFrom (s : State Thread P T) (h x : P) : Prop :=
  nextPtr s h = some x ∧ OnChain s h

/-- In the run of `as` from `s₀` an enqueue has stored its value in `x`, and after that it has
linked `x` behind `h`; since then neither the value nor the link has changed. -/
def WrittenThenLinked (movedFrom : T → T) (s₀ : State Thread P T)
    (as : List (Action Thread P T)) (h x : P) : Prop :=
  ∃ t op value tail next s₁ s₂ later s₃ s₄ after,
    (machine movedFrom).Moment s₀ as s₁ (.run t) s₂ later ∧
    s₁.pc t = .initData op value x ∧
    (machine movedFrom).Throughout (fun s => (s.heap x).data = value) s₂ later ∧
    (machine movedFrom).Moment s₂ later s₃ (.run t) s₄ after ∧
    s₃.pc t = .casNext op x tail next ∧ tail.ptr = some h ∧ (s₃.heap h).next = next ∧
    (machine movedFrom).Throughout (fun s => nextPtr s h = some x) s₄ after

/-- What `try_dequeue` relies on when its three loads are not of one instant. -/
structure TailInFront (movedFrom : T → T) (s₀ : State Thread P T)
    (as : List (Action Thread P T)) (s : State Thread P T) : Prop where
  reaches : ∃ h a, s.head.ptr = some h ∧ s.tail.ptr = some a ∧ Reaches (nextPtr s) h a
  successor : ∀ t op value head tail next, s.pc t = .recheckHead op value head tail next →
    head = s.head → head.ptr ≠ tail.ptr →
      ∃ h x, head.ptr = some h ∧ next.ptr = some x ∧ nextPtr s h = some x ∧
        WrittenThenLinked movedFrom s₀ as h x
  read : ∀ t op value head next, s.pc t = .moveData op value head next → next.ptr ≠ none

variable {movedFrom : T → T} {s s' s₀ : State Thread P T} {sh sh' : Shape Thread P} {t : Thread}

/-! ## Chains in the memory -/

section

omit [DecidableEq Thread] [DecidableEq P]

theorem Inv.onChain_iff (hinv : Inv s sh) {p : P} :
    OnChain s p ↔ ∃ o, sh.loc p = .linked o := by
  constructor
  · rintro ⟨o, l, hpath, hp⟩
    rw [hpath.unique (hinv.global.path o)] at hp
    exact ⟨o, (hinv.global.mem_chain o p).mp hp⟩
  · rintro ⟨o, ho⟩
    exact ⟨o, sh.chain o, hinv.global.path o, (hinv.global.mem_chain o p).mpr ho⟩

theorem LinkedFrom.onChain {h x : P} (hlinked : LinkedFrom s h x) : OnChain s x := by
  obtain ⟨hnext, o, l, hpath, hh⟩ := hlinked
  exact ⟨o, l, hpath, hpath.next_mem hh hnext⟩

/-- The node that an enqueue has filled and not linked yet is the first of a chain. -/
theorem Inv.onChain_root (hinv : Inv s sh) {n : P} (hroot : (s.pc t).root = some n) :
    OnChain s n :=
  hinv.onChain_iff.mpr ⟨_, hinv.global.loc_root hroot⟩

end

omit [DecidableEq Thread] in
/-- A write of data leaves the links alone. -/
theorem nextPtr_update_data {n : P} {data : T}
    (hheap : s'.heap = Function.update s.heap n { s.heap n with data := data }) :
    nextPtr s' = nextPtr s := by
  funext p
  rw [nextPtr, nextPtr, hheap]
  by_cases hp : p = n
  · subst hp
    rw [Function.update_self]
  · rw [Function.update_of_ne hp]

/-! ## What a step does to a link and to a value -/

/-- A link of a node on a chain comes about by the exchange of an enqueue. -/
theorem Effect.linkedFrom {h x : P} (heffect : Effect movedFrom s sh t s' sh')
    (hinv : Inv s sh) (hinv' : Inv s' sh') (hbefore : ¬LinkedFrom s h x)
    (hafter : LinkedFrom s' h x) :
    ∃ op tail next, s.pc t = .casNext op x tail next ∧ tail.ptr = some h ∧
      (s.heap h).next = next := by
  obtain ⟨hnext, hon⟩ := hafter
  obtain ⟨o, ho⟩ := hinv'.onChain_iff.mp hon
  -- the step that brings the link changes the link of `h` or puts `h` on a chain
  have hnew : nextPtr s h = some x → (∃ o, sh.loc h = .linked o) → False :=
    fun hold hchain => hbefore ⟨hold, hinv.onChain_iff.mpr hchain⟩
  have hquiet : s'.heap = s.heap → sh' = sh → False := by
    intro hheap hshape
    rw [nextPtr, hheap] at hnext
    exact hnew hnext ⟨o, hshape ▸ ho⟩
  -- the one node that leaves its chain or is not on one is not `h`
  have hother : ∀ {n : P} {loc : Loc Thread}, sh'.loc = Function.update sh.loc n loc →
      (∀ o, loc ≠ .linked o) → h ≠ n ∧ sh.loc h = .linked o := by
    intro n loc hloc hoff
    have hne : h ≠ n := by
      rintro rfl
      rw [hloc, Function.update_self] at ho
      exact hoff o ho
    rw [hloc, Function.update_of_ne hne] at ho
    exact ⟨hne, ho⟩
  cases heffect with
  | callEnqueue _ _ _ hheap _ _ hshape => exact (hquiet hheap hshape).elim
  | callDequeue _ _ _ hheap _ _ hshape => exact (hquiet hheap hshape).elim
  | quiet _ hheap _ _ hshape => exact (hquiet hheap hshape).elim
  | retEnqueue _ _ _ hheap _ _ hshape => exact (hquiet hheap hshape).elim
  | sawNext _ _ _ _ _ _ _ _ hheap _ _ hshape => exact (hquiet hheap hshape).elim
  | retry _ _ _ _ _ _ _ hheap _ _ hshape => exact (hquiet hheap hshape).elim
  | retFalse _ _ _ _ _ _ _ _ _ _ hheap _ _ hshape => exact (hquiet hheap hshape).elim
  | toMove _ _ _ _ _ _ _ _ _ hheap _ _ hshape => exact (hquiet hheap hshape).elim
  | lost _ _ _ _ _ _ _ _ hheap _ _ hshape => exact (hquiet hheap hshape).elim
  | fill op value n hphase hphases hheap hhead htrace hshape =>
      rw [nextPtr_update_data hheap] at hnext
      exact (hnew hnext ⟨o, hshape ▸ ho⟩).elim
  | move op value head next y hphase hy hphases hheap hhead htrace hshape =>
      rw [nextPtr_update_data hheap] at hnext
      exact (hnew hnext ⟨o, hshape ▸ ho⟩).elim
  | allocate op value n hphase hphases hheap hhead htrace hloc hshape =>
      obtain ⟨-, hold⟩ := hother (congrArg Shape.loc hshape) (by simp)
      rw [nextPtr, hheap] at hnext
      exact (hnew hnext ⟨o, hold⟩).elim
  | construct op value n hphase hphases hheap hhead htrace hloc hshape =>
      subst hshape
      rw [nextPtr, hheap] at hnext
      have hne : h ≠ n := by
        rintro rfl
        rw [Function.update_self] at hnext
        cases hnext
      rw [Function.update_of_ne hne] at hnext
      have hold : (sh.construct t n).loc h = sh.loc h := Function.update_of_ne hne _ _
      exact (hnew hnext ⟨o, hold ▸ ho⟩).elim
  | link op n a tail next o' hpc ha hfound hphases hheap hhead htrace hot hloc hshape =>
      subst hshape
      rw [nextPtr, hheap] at hnext
      by_cases hha : h = a
      · subst hha
        rw [Function.update_self] at hnext
        cases hnext
        exact ⟨op, tail, next, hpc, ha, hfound⟩
      · rw [Function.update_of_ne hha] at hnext
        refine (hnew hnext ?_).elim
        by_cases hmem : h ∈ sh.chain (some t)
        · exact ⟨_, (hinv.global.mem_chain _ h).mp hmem⟩
        · have hold : (sh.link t o').loc h = sh.loc h := if_neg hmem
          exact ⟨o, hold ▸ ho⟩
  | take op value head next old h' y rest hphase hfound hh hy hchain hphases hheap htrace hshape =>
      obtain ⟨-, hold⟩ := hother (congrArg Shape.loc hshape) (by simp)
      rw [nextPtr, hheap] at hnext
      exact (hnew hnext ⟨o, hold⟩).elim
  | release op value item n word hphase hphases hheap hhead htrace hloc hshape =>
      obtain ⟨hne, hold⟩ := hother (congrArg Shape.loc hshape) (by simp)
      rw [nextPtr, hheap, Function.update_of_ne hne] at hnext
      exact (hnew hnext ⟨o, hold⟩).elim

/-- A thread comes to a phase by a step of its own that leads there. -/
theorem Effect.enters {u : Thread} {k : Phase P T} (heffect : Effect movedFrom s sh t s' sh')
    (hbefore : phases s u ≠ k) (hafter : phases s' u = k) :
    u = t ∧ ∀ k', phases s' = Function.update (phases s) t k' → k' = k := by
  have hut : u = t := by
    by_contra hne
    rw [heffect.others hne] at hafter
    exact hbefore hafter
  subst hut
  refine ⟨rfl, fun k' hphases => ?_⟩
  rwa [hphases, Function.update_self] at hafter

/-- An enqueue comes to link a node by storing its value in it. -/
theorem Effect.filled {u : Thread} {op : Nat} {x : P} (heffect : Effect movedFrom s sh t s' sh')
    (hbefore : phases s u ≠ .linking op x) (hafter : phases s' u = .linking op x) :
    u = t ∧ ∃ value, phases s t = .filling op value x ∧ (s'.heap x).data = value := by
  obtain ⟨rfl, hto⟩ := heffect.enters hbefore hafter
  refine ⟨rfl, ?_⟩
  cases heffect with
  | quiet hphases => exact absurd (hphases ▸ hafter) hbefore
  | fill op' value n hphase hphases hheap =>
      cases hto _ hphases
      refine ⟨value, hphase, ?_⟩
      rw [hheap, Function.update_self]
  | callEnqueue _ _ hphases => cases hto _ hphases
  | callDequeue _ _ hphases => cases hto _ hphases
  | allocate _ _ _ _ hphases => cases hto _ hphases
  | construct _ _ _ _ hphases => cases hto _ hphases
  | link _ _ _ _ _ _ _ _ _ hphases => cases hto _ hphases
  | retEnqueue _ _ hphases => cases hto _ hphases
  | sawNext _ _ _ _ _ _ _ hphases => cases hto _ hphases
  | retry _ _ _ _ _ _ hphases => cases hto _ hphases
  | retFalse _ _ _ _ _ _ _ _ _ hphases => cases hto _ hphases
  | toMove _ _ _ _ _ _ _ _ hphases => cases hto _ hphases
  | move _ _ _ _ _ _ _ hphases => cases hto _ hphases
  | lost _ _ _ _ _ _ _ hphases => cases hto _ hphases
  | take _ _ _ _ _ _ _ _ _ _ _ _ _ hphases => cases hto _ hphases
  | release _ _ _ _ _ _ hphases => cases hto _ hphases

/-- While nobody fills the node, its value stays. -/
theorem Effect.data {x : P} (heffect : Effect id s sh t s' sh')
    (hfilled : ∀ op value, phases s t ≠ .filling op value x) :
    (s'.heap x).data = (s.heap x).data := by
  have hwrite : ∀ {n : P} {node : Node P T}, s'.heap = Function.update s.heap n node →
      (x = n → node.data = (s.heap n).data) → (s'.heap x).data = (s.heap x).data := by
    intro n node hheap hdata
    rw [hheap]
    by_cases hxn : x = n
    · subst hxn
      rw [Function.update_self, hdata rfl]
    · rw [Function.update_of_ne hxn]
  cases heffect with
  | construct op value n hphase hphases hheap => exact hwrite hheap fun _ => rfl
  | fill op value n hphase hphases hheap =>
      refine hwrite hheap fun hxn => ?_
      subst hxn
      exact absurd hphase (hfilled op value)
  | link op n a tail next o hpc ha hfound hphases hheap => exact hwrite hheap fun _ => rfl
  | move op value head next y hphase hy hphases hheap => exact hwrite hheap fun _ => rfl
  | release op value item n word hphase hphases hheap => exact hwrite hheap fun _ => rfl
  | callEnqueue _ _ _ hheap => rw [hheap]
  | callDequeue _ _ _ hheap => rw [hheap]
  | allocate _ _ _ _ _ hheap => rw [hheap]
  | quiet _ hheap => rw [hheap]
  | retEnqueue _ _ _ hheap => rw [hheap]
  | sawNext _ _ _ _ _ _ _ _ hheap => rw [hheap]
  | retry _ _ _ _ _ _ _ hheap => rw [hheap]
  | retFalse _ _ _ _ _ _ _ _ _ _ hheap => rw [hheap]
  | toMove _ _ _ _ _ _ _ _ _ hheap => rw [hheap]
  | lost _ _ _ _ _ _ _ _ hheap => rw [hheap]
  | take _ _ _ _ _ _ _ _ _ _ _ _ _ _ hheap => rw [hheap]

/-- A thread comes to fill a node that it has from the pool. -/
theorem Effect.filling {u : Thread} {op : Nat} {value : T} {x : P}
    (heffect : Effect movedFrom s sh t s' sh') (hbefore : phases s u ≠ .filling op value x)
    (hafter : phases s' u = .filling op value x) : sh.loc x = .raw t := by
  obtain ⟨rfl, hto⟩ := heffect.enters hbefore hafter
  cases heffect with
  | quiet hphases => exact absurd (hphases ▸ hafter) hbefore
  | construct op' value n hphase hphases hheap hhead htrace hloc =>
      cases hto _ hphases
      exact hloc
  | fill _ _ _ _ hphases => cases hto _ hphases
  | callEnqueue _ _ hphases => cases hto _ hphases
  | callDequeue _ _ hphases => cases hto _ hphases
  | allocate _ _ _ _ hphases => cases hto _ hphases
  | link _ _ _ _ _ _ _ _ _ hphases => cases hto _ hphases
  | retEnqueue _ _ hphases => cases hto _ hphases
  | sawNext _ _ _ _ _ _ _ hphases => cases hto _ hphases
  | retry _ _ _ _ _ _ hphases => cases hto _ hphases
  | retFalse _ _ _ _ _ _ _ _ _ hphases => cases hto _ hphases
  | toMove _ _ _ _ _ _ _ _ hphases => cases hto _ hphases
  | move _ _ _ _ _ _ _ hphases => cases hto _ hphases
  | lost _ _ _ _ _ _ _ hphases => cases hto _ hphases
  | take _ _ _ _ _ _ _ _ _ _ _ _ _ hphases => cases hto _ hphases
  | release _ _ _ _ _ _ hphases => cases hto _ hphases

/-- In front of the pool a thread can only go on. -/
theorem eq_run {a : Action Thread P T} (hstep : step movedFrom s a = some s')
    (hroot : (s.pc a.thread).root ≠ none) : a = .run a.thread := by
  cases a with
  | run t => rfl
  | enqueue t value =>
      simp only [step, enqueue, beginEnqueue] at hstep
      split at hstep
      · rename_i hidle
        exact absurd (congrArg Pc.root hidle) hroot
      · cases hstep
  | emplace t value =>
      simp only [step, emplace, beginEnqueue] at hstep
      split at hstep
      · rename_i hidle
        exact absurd (congrArg Pc.root hidle) hroot
      · cases hstep
  | tryDequeue t value =>
      simp only [step, tryDequeue] at hstep
      split at hstep
      · rename_i hidle
        exact absurd (congrArg Pc.root hidle) hroot
      · cases hstep
  | allocate t n =>
      simp only [step] at hstep
      split at hstep
      · rename_i op value hpc
        exact absurd (congrArg Pc.root hpc) hroot
      · cases hstep
  | deallocate t word =>
      simp only [step] at hstep
      split at hstep
      · rename_i op value item n hpc
        exact absurd (congrArg Pc.root hpc) hroot
      · cases hstep

/-! ## The history of a link -/

/-- A state of a bounded run. -/
def Good (movedFrom : T → T) (s : State Thread P T) : Prop :=
  (machine movedFrom).Reachable s ∧ Bounded s

/-- A step between states of a bounded run has one of the effects. -/
theorem Good.effect {a : Action Thread P T} (h : Good movedFrom s)
    (hstep : step movedFrom s a = some s') :
    ∃ sh sh', Effect movedFrom s sh a.thread s' sh' ∧ Inv s sh ∧ Inv s' sh' := by
  obtain ⟨sh, hinv⟩ := exists_inv h.1 h.2
  obtain ⟨sh', heffect, hinv'⟩ := hinv.step h.2 hstep
  exact ⟨sh, sh', heffect, hinv, hinv'⟩

/-- All states on the way to a bounded one. -/
theorem throughout_good {as : List (Action Thread P T)} (hreach : (machine movedFrom).Reachable s)
    (hexec : (machine movedFrom).exec s as = some s') (hbound : Bounded s') :
    (machine movedFrom).Throughout (Good movedFrom) s as :=
  (Machine.throughout_exec hexec).mono fun _ ⟨⟨_, hcome⟩, _, hgo⟩ =>
    ⟨hreach.exec hcome, Bounded.of_exec hgo hbound⟩

omit [DecidableEq Thread] in
/-- Nothing is linked in a new queue. -/
theorem not_linkedFrom_initial (heap : P → Node P T) (dummy : P) (data : T) (h x : P) :
    ¬LinkedFrom (initial heap dummy data : State Thread P T) h x := by
  rintro ⟨hnext, hon⟩
  obtain ⟨o, ho⟩ := (Inv.initial heap dummy data).onChain_iff.mp hon
  have hdummy : h = dummy := by
    by_contra hne
    simp [Shape.initial, hne] at ho
  subst hdummy
  simp [nextPtr, initial] at hnext

/-- A value that has been stored in a node stays there while the node is on a chain. -/
theorem throughout_data {as : List (Action Thread P T)} {op : Nat} {value : T} {x : P}
    (hgood : (machine id).Throughout (Good id) s as)
    (hon : (machine id).Throughout (OnChain · x) s as)
    (hphase : phases s t = .linking op x) (hdata : (s.heap x).data = value) :
    (machine id).Throughout (fun s => (s.heap x).data = value) s as := by
  have hfilling : ∀ u op value, phases s u ≠ .filling op value x := by
    intro u op' value' hu
    obtain ⟨sh, hinv⟩ := exists_inv hgood.first.1 hgood.first.2
    have hmine : sh.loc x = .linked (some t) := by
      refine hinv.global.loc_root ?_
      rw [Pc.root_eq, show (s.pc t).phase = .linking op x from hphase]
      rfl
    -- the chain of `t` starts with the node, so nobody else fills it
    rw [hinv.loc_filling hu] at hmine
    cases hmine
    rw [hphase] at hu
    cases hu
  refine Machine.Throughout.mono (fun _ h => h.1) (Machine.Throughout.along
    (Q := fun s => (s.heap x).data = value ∧ ∀ u op value, phases s u ≠ .filling op value x)
    ?_ (hgood.and hon) ⟨hdata, hfilling⟩)
  rintro s a s' ⟨hgood, hon⟩ ⟨hdata, hfilling⟩ hstep -
  obtain ⟨sh, sh', heffect, hinv, -⟩ := hgood.effect hstep
  refine ⟨(heffect.data (hfilling a.thread)).trans hdata, fun u op' value' hafter => ?_⟩
  have hraw := heffect.filling (hfilling u op' value') hafter
  obtain ⟨o, ho⟩ := hinv.onChain_iff.mp hon
  rw [hraw] at ho
  cases ho

/-- What follows a node on a chain was written by an enqueue and then linked by it. -/
theorem writtenThenLinked {as : List (Action Thread P T)} {h x : P}
    (hstart : (machine id).start s₀) (hexec : (machine id).exec s₀ as = some s)
    (hbound : Bounded s) (hlinked : LinkedFrom s h x) : WrittenThenLinked id s₀ as h x := by
  obtain ⟨heap, dummy, data, rfl⟩ := id hstart
  obtain ⟨s₃, a, s₄, after, hlink, hbefore, hsince⟩ :=
    Machine.exists_moment (P := (LinkedFrom · h x)) (not_linkedFrom_initial heap dummy data h x)
      hexec hlinked
  have hgood₃ : Good id s₃ :=
    ⟨hlink.reachable hstart, Bounded.of_exec (hlink.exec_cons_after hexec) hbound⟩
  obtain ⟨sh₃, sh₄, heffect, hinv₃, hinv₄⟩ := hgood₃.effect hlink.step
  obtain ⟨op, tail, next, hpc, htail, hfound⟩ :=
    heffect.linkedFrom hinv₃ hinv₄ hbefore hsince.first
  have hrun := eq_run hlink.step (by rw [hpc]; exact Option.some_ne_none x)
  obtain ⟨t, ht⟩ : ∃ t, a.thread = t := ⟨_, rfl⟩
  rw [ht] at hpc hrun
  subst hrun
  -- the enqueue that links the node has come to that by filling it
  obtain ⟨⟨before, rfl, hexec₃⟩, hstep₃⟩ := hlink
  have hphase₃ : phases s₃ t = .linking op x := by
    rw [phases, hpc]
    rfl
  obtain ⟨s₁, b, s₂, mid, hfill, hbefore₁, hsince₁⟩ :=
    Machine.exists_moment (P := fun s => phases s t = .linking op x)
      (fun hidle => by cases hidle) hexec₃ hphase₃
  have hgood₁ : Good id s₁ :=
    ⟨hfill.reachable hstart, Bounded.of_exec (hfill.exec_cons_after hexec₃) hgood₃.2⟩
  obtain ⟨sh₁, sh₂, heffect₁, hinv₁, hinv₂⟩ := hgood₁.effect hfill.step
  obtain ⟨rfl, value, hphase₁, hdata⟩ := heffect₁.filled hbefore₁ hsince₁.first
  have hpc₁ : s₁.pc b.thread = .initData op value x := by
    cases hk : s₁.pc b.thread <;> rw [phases, hk] at hphase₁ <;> cases hphase₁
    rfl
  have hrun₁ := eq_run hfill.step (by rw [hpc₁]; exact Option.some_ne_none x)
  rw [hrun₁] at hfill
  have hexec₂ := hfill.exec_after hexec₃
  have hwhole := (hfill.append (.run b.thread :: after))
  have hgood₂ := throughout_good (hgood₁.1.step trivial hfill.step) (hwhole.exec_after hexec) hbound
  have hon : (machine id).Throughout (OnChain · x) s₂ (mid ++ .run b.thread :: after) := by
    refine .join hexec₂ hstep₃ ?_ (hsince.mono fun _ => LinkedFrom.onChain)
    have hgoods := throughout_good (hgood₁.1.step trivial hfill.step) hexec₂ hgood₃.2
    refine (hgoods.and hsince₁).mono ?_
    rintro u ⟨hgood, hphase⟩
    obtain ⟨sh, hinv⟩ := exists_inv hgood.1 hgood.2
    refine hinv.onChain_root (t := b.thread) ?_
    rw [Pc.root_eq, show (u.pc b.thread).phase = .linking op x from hphase]
    rfl
  exact ⟨b.thread, op, value, tail, next, s₁, s₂, _, s₃, s₄, after, hwhole, hpc₁,
    throughout_data hgood₂ hon hsince₁.first hdata, ⟨⟨mid, rfl, hexec₂⟩, hstep₃⟩, hpc, htail,
    hfound, hsince.mono fun _ hlinked => hlinked.1⟩

/-! ## What holds in a run -/

/-- In every run with fewer than `2 ^ 64` exchanges on each of `head_` and `tail_`, the node of
`tail_` is reached from the node of `head_`; a `try_dequeue` that finds `head_` unchanged and two
different nodes has loaded a successor that was written before it was linked; and nobody reads
through a null pointer. -/
theorem tail_in_front {as : List (Action Thread P T)} (hstart : (machine id).start s₀)
    (hexec : (machine id).exec s₀ as = some s) (hbound : Bounded s) :
    TailInFront id s₀ as s := by
  obtain ⟨sh, hinv⟩ := exists_inv (.of_exec hstart hexec) hbound
  obtain ⟨a, ha, htail⟩ := hinv.global.tail_mem
  have hpath := hinv.global.path none
  refine ⟨?_, ?_, ?_⟩
  · have hseen : HeadSeen s s.head fun _ => True := hinv.head_seen fun _ _ => trivial
    obtain ⟨h, hhead, -⟩ := hseen
    rw [entry, hhead] at hpath
    exact ⟨h, a, hhead, htail, hpath.reaches_of_mem ha⟩
  · intro t op value head tail next hpc hfound hne
    have hlocal := hinv.threads t
    rw [hpc] at hlocal
    obtain ⟨-, h, hh, hseen⟩ := hlocal
    obtain ⟨hsame, hapart⟩ := hseen.current hbound.1 hinv.global.head_tag hfound.symm
    obtain ⟨-, hsome⟩ := hapart hne.symm
    obtain ⟨x, hx⟩ := Option.ne_none_iff_exists'.mp hsome
    have hnext : nextPtr s h = some x := by rw [nextPtr, hsame hsome, hx]
    have hmem := hinv.global.head_mem (hfound ▸ hh)
    exact ⟨h, x, hh, hx, hnext,
      writtenThenLinked hstart hexec hbound ⟨hnext, none, sh.chain none, hpath, hmem⟩⟩
  · intro t op value head next hpc
    have hlocal := hinv.threads t
    rw [hpc] at hlocal
    exact hlocal.1

/-- A dequeue in front of its check, behind an enqueue. -/
theorem tail_in_front_run : ∃ s : State ℕ ℕ ℕ,
    (machine id).exec (initial (fun _ => ⟨⟨none, 0⟩, 0, 0⟩) 0 0)
      (soloEnqueue 1 7 1 ++ .tryDequeue 2 0 :: List.replicate 3 (.run 2)) = some s ∧
    (∃ op value head tail next, s.pc 2 = .recheckHead op value head tail next ∧
      head = s.head ∧ head.ptr ≠ tail.ptr) ∧
    TailInFront id (initial (fun _ => ⟨⟨none, 0⟩, 0, 0⟩) 0 0)
      (soloEnqueue 1 7 1 ++ .tryDequeue 2 0 :: List.replicate 3 (.run 2)) s := by
  obtain ⟨s, hexec, hcheck, hbound⟩ : ∃ s : State ℕ ℕ ℕ,
      (machine id).exec (initial (fun _ => ⟨⟨none, 0⟩, 0, 0⟩) 0 0)
        (soloEnqueue 1 7 1 ++ .tryDequeue 2 0 :: List.replicate 3 (.run 2)) = some s ∧
      (∃ op value head tail next, s.pc 2 = .recheckHead op value head tail next ∧
        head = s.head ∧ head.ptr ≠ tail.ptr) ∧ Bounded s :=
    ⟨_, rfl, ⟨_, _, _, _, _, rfl, rfl, by decide⟩, by decide, by decide⟩
  exact ⟨s, hexec, hcheck, tail_in_front ⟨_, _, _, rfl⟩ hexec hbound⟩

/-- Without the bound `head_` comes to a node of the pool when its tag has gone round, and `tail_`
stays where it was. -/
theorem tail_behind_on_wrap : ¬∀ (s₀ s : State ℕ ℕ ℕ) (as : List (Action ℕ ℕ ℕ)),
    (machine id).start s₀ → (machine id).exec s₀ as = some s → TailInFront id s₀ as s := by
  intro hall
  obtain ⟨s, hreach, hstalled, hnone⟩ := Stalled.wrapped (2 ^ 63 - 1)
  obtain ⟨op, old, hpc⟩ := hstalled.stalled
  have hhead : s.head = ⟨some 0, 0⟩ := hstalled.head
  have htail : s.tail = ⟨some 0, 0⟩ := hstalled.tail
  obtain ⟨s', hstep, hhead', htail', hheap'⟩ : ∃ s', (machine id).step s (.run 0) = some s' ∧
      s'.head.ptr = some 1 ∧ s'.tail = s.tail ∧ s'.heap = s.heap := by
    simp [machine, step, stepEnqueue, stepDequeue, hpc, hhead, State.goto, State.emit]
  have hreach' : (machine id).Reachable s' := hreach.step trivial hstep
  obtain ⟨s₀, as, hstart, hexec⟩ := hreach'.exists_exec
  obtain ⟨h, a, hh, ha, hto⟩ := (hall s₀ s' as hstart hexec).reaches
  rw [hhead'] at hh
  cases hh
  rw [htail', htail] at ha
  cases ha
  rcases hto.cases_head with hsame | ⟨b, hb, -⟩
  · cases hsame
  · rw [nextPtr, hheap', ← nextPtr, hnone] at hb
    cases hb

end Queue
end Lockfree
end Cyan

import Cyan.Base.History
import Cyan.Lockfree.QueueEffect

/-!
# The tags of `head_` and `tail_`

A compare-exchange compares values, so it could take a field that has come back to an old value for
one that never changed.  The tags of `head_` and `tail_` rule that out: the tag of a field is the
number of its successful exchanges, as long as they are fewer than `2 ^ 64`.  So two equal values
at two points of a run have the same number of exchanges behind them, and none in between.

Both fields are treated at once (`Field`).  The local variable with the value that a thread loaded
is part of its program counter (`Pc.copy`), and the history of the run has the load in which it
came there.
-/

namespace Cyan
namespace Lockfree
namespace Queue

open Base

variable {Thread P T : Type*}

/-- The two fields of the queue that are exchanged. -/
inductive Field
  | head
  | tail
  deriving DecidableEq, Repr

/-- `head_` or `tail_` -/
def State.field (s : State Thread P T) : Field → TaggedPtr P
  | .head => s.head
  | .tail => s.tail

/-- The number of successful exchanges. -/
def exchanges : Field → List (Event T) → Nat
  | .head => takes
  | .tail => swings

/-- The local variable `head` or `tail`, which has the value that the thread loaded last. -/
def Pc.copy : Field → Pc P T → Option (TaggedPtr P)
  | .head, .loadTailAt _ _ head => some head
  | .head, .loadHeadNext _ _ head _ => some head
  | .head, .recheckHead _ _ head _ _ => some head
  | .head, .moveData _ _ head _ => some head
  | .head, .casHead _ _ head _ _ => some head
  | .tail, .loadNext _ _ tail => some tail
  | .tail, .recheckTail _ _ tail _ => some tail
  | .tail, .casNext _ _ tail _ => some tail
  | .tail, .reloadTail _ _ tail => some tail
  | .tail, .swingTail _ tail _ => some tail
  | .tail, .helpTail _ _ tail _ => some tail
  | .tail, .loadHeadNext _ _ _ tail => some tail
  | .tail, .recheckHead _ _ _ tail _ => some tail
  | .tail, .helpTailAt _ _ tail _ => some tail
  | _, _ => none

/-- The thread is about to load the field into its local variable. -/
def Pc.Loads : Field → Pc P T → Prop
  | .head, .loadHead _ _ => True
  | .tail, .loadTail _ _ => True
  | .tail, .loadTailAt _ _ _ => True
  | _, _ => False

/-- The compare-exchange that the thread is about to make on the field: the value it expects, and
the one it writes. -/
def Pc.exchange : Field → Pc P T → Option (TaggedPtr P × TaggedPtr P)
  | .head, .casHead _ _ head next _ => some (head, ⟨next.ptr, head.getNextTag⟩)
  | .tail, .swingTail _ tail newTail => some (tail, newTail)
  | .tail, .helpTail _ _ tail newTail => some (tail, newTail)
  | .tail, .helpTailAt _ _ tail node => some (tail, node)
  | _, _ => none

variable [DecidableEq Thread] [DecidableEq P]

/-- The action is a compare-exchange on the field that finds the value it expects. -/
def Exchanges (f : Field) (s : State Thread P T) (a : Action Thread P T)
    (expected desired : TaggedPtr P) : Prop :=
  ∃ t, a = .run t ∧ (s.pc t).exchange f = some (expected, desired) ∧ s.field f = expected

/-- Behind the run of `as` from `s₀`, the field has not changed since thread `t` loaded `expected`
from it into the local variable that still has it. -/
def UnchangedSinceLoad (movedFrom : T → T) (f : Field) (s₀ : State Thread P T)
    (as : List (Action Thread P T)) (t : Thread) (expected : TaggedPtr P) : Prop :=
  ∃ s₁ s₂ after, (machine movedFrom).Moment s₀ as s₁ (.run t) s₂ after ∧
    (s₁.pc t).Loads f ∧
    (machine movedFrom).Throughout (fun s => (s.pc t).copy f = some expected) s₂ after ∧
    (machine movedFrom).Throughout (fun s => s.field f = expected) s₁ (.run t :: after)

variable {movedFrom : T → T} {s s' s₀ : State Thread P T} {a : Action Thread P T} {f : Field}

/-! ## What a step does to the fields -/

/-- What a step can do to the field: nothing, or one exchange. -/
inductive FieldStep (f : Field) (s : State Thread P T) (a : Action Thread P T)
    (s' : State Thread P T) : Prop
  | same (hfield : s'.field f = s.field f) (hcount : exchanges f s'.trace = exchanges f s.trace)
  | exchange (expected desired : TaggedPtr P) (h : Exchanges f s a expected desired)
      (hfield : s'.field f = desired) (hcount : exchanges f s'.trace = exchanges f s.trace + 1)

omit [DecidableEq Thread] in
/-- The exchange on `tail_`, whatever the thread does next. -/
theorem FieldStep.exchangeTail {t : Thread} {tail newTail : TaggedPtr P}
    (hpc : (s.pc t).exchange .tail = some (tail, newTail))
    (hfield : ∀ f, s'.field f = (exchangeTail s tail newTail).field f)
    (hcount : ∀ f, exchanges f s'.trace = exchanges f (exchangeTail s tail newTail).trace) :
    FieldStep f s (.run t) s' := by
  have hfield := hfield f
  have hcount := hcount f
  unfold Queue.exchangeTail at hfield hcount
  split at hfield
  · rename_i hfound
    rw [if_pos hfound] at hcount
    cases f with
    | head => exact .same hfield hcount
    | tail => exact .exchange tail newTail ⟨t, rfl, hpc, hfound⟩ hfield hcount
  · rename_i hmissed
    rw [if_neg hmissed] at hcount
    exact .same hfield hcount

theorem fieldStep_enqueue {t : Thread} (hstep : stepEnqueue s t (s.pc t) = some s') :
    FieldStep f s (.run t) s' := by
  cases hpc : s.pc t with
  | swingTail op tail newTail =>
      rw [hpc] at hstep
      cases hstep
      exact .exchangeTail (by rw [hpc]; rfl) (fun f => by cases f <;> rfl)
        (fun f => by cases f <;> rfl)
  | helpTail op n tail newTail =>
      rw [hpc] at hstep
      cases hstep
      exact .exchangeTail (by rw [hpc]; rfl) (fun f => by cases f <;> rfl)
        (fun f => by cases f <;> rfl)
  | _ =>
      rw [hpc] at hstep
      simp only [stepEnqueue] at hstep
      (repeat' split at hstep) <;> cases hstep <;> cases f <;> exact .same rfl rfl

theorem fieldStep_dequeue {t : Thread} (hstep : stepDequeue movedFrom s t (s.pc t) = some s') :
    FieldStep f s (.run t) s' := by
  cases hpc : s.pc t with
  | helpTailAt op value tail node =>
      rw [hpc] at hstep
      cases hstep
      exact .exchangeTail (by rw [hpc]; rfl) (fun f => by cases f <;> rfl)
        (fun f => by cases f <;> rfl)
  | casHead op value head next old =>
      rw [hpc] at hstep
      simp only [stepDequeue] at hstep
      split at hstep
      · split at hstep
        · rename_i hfound
          cases hstep
          cases f with
          | head => exact .exchange _ _ ⟨t, rfl, by rw [hpc]; rfl, hfound⟩ rfl rfl
          | tail => exact .same rfl rfl
        · cases hstep
          cases f <;> exact .same rfl rfl
      · cases hstep
        cases f <;> exact .same rfl rfl
  | _ =>
      rw [hpc] at hstep
      simp only [stepDequeue] at hstep
      (repeat' split at hstep) <;> cases hstep <;> cases f <;> exact .same rfl rfl

/-- A field only changes by an exchange. -/
theorem fieldStep (hstep : step movedFrom s a = some s') : FieldStep f s a s' := by
  cases a with
  | enqueue t value =>
      simp only [step, enqueue, beginEnqueue] at hstep
      split at hstep <;> cases hstep
      cases f <;> exact .same rfl rfl
  | emplace t value =>
      simp only [step, emplace, beginEnqueue] at hstep
      split at hstep <;> cases hstep
      cases f <;> exact .same rfl rfl
  | tryDequeue t value =>
      simp only [step, tryDequeue] at hstep
      split at hstep <;> cases hstep
      cases f <;> exact .same rfl rfl
  | run t =>
      simp only [step, Option.orElse_eq_orElse, Option.orElse_eq_or,
        Option.or_eq_some_iff] at hstep
      rcases hstep with hstep | ⟨-, hstep⟩
      · exact fieldStep_enqueue hstep
      · exact fieldStep_dequeue hstep
  | allocate t n =>
      simp only [step] at hstep
      (repeat' split at hstep) <;> cases hstep
      cases f <;> exact .same rfl rfl
  | deallocate t word =>
      simp only [step] at hstep
      split at hstep <;> cases hstep
      cases f <;> exact .same rfl rfl

theorem exchanges_le (hstep : step movedFrom s a = some s') :
    exchanges f s.trace ≤ exchanges f s'.trace := by
  cases fieldStep (f := f) hstep with
  | same hfield hcount => exact Nat.le_of_eq hcount.symm
  | exchange expected desired h hfield hcount => exact hcount ▸ Nat.le_succ _

theorem field_eq_of_exchanges (hstep : step movedFrom s a = some s')
    (hcount : exchanges f s'.trace = exchanges f s.trace) : s'.field f = s.field f := by
  cases fieldStep (f := f) hstep with
  | same hfield _ => exact hfield
  | exchange expected desired h hfield hone =>
      rw [hone] at hcount
      exact absurd hcount (Nat.succ_ne_self _)

/-- A compare-exchange that finds the value it expects writes the new one, unless the thread was
about to follow a null pointer. -/
theorem Exchanges.field {t : Thread} {expected desired : TaggedPtr P}
    (h : Exchanges f s (.run t) expected desired) (hstep : step movedFrom s (.run t) = some s')
    (hsafe : s'.pc t ≠ .fault) :
    s'.field f = desired ∧ exchanges f s'.trace = exchanges f s.trace + 1 := by
  obtain ⟨u, hu, hexchange, hfound⟩ := h
  cases hu
  simp only [step, Option.orElse_eq_orElse, Option.orElse_eq_or] at hstep
  cases f with
  | head =>
      change s.head = expected at hfound
      cases hpc : s.pc t <;> rw [hpc] at hexchange <;> cases hexchange
      rw [hpc] at hstep
      simp only [stepEnqueue, stepDequeue, Option.none_or] at hstep
      split at hstep
      · rw [if_pos hfound] at hstep
        cases hstep
        exact ⟨rfl, rfl⟩
      · cases hstep
        exact absurd (goto_pc_self t _) hsafe
  | tail =>
      have hwritten : exchangeTail s expected desired =
          { s with tail := desired }.emit .swing := if_pos hfound
      cases hpc : s.pc t <;> rw [hpc] at hexchange <;> cases hexchange <;> rw [hpc] at hstep <;>
        simp only [stepEnqueue, stepDequeue, Option.some_or, Option.none_or, hwritten] at hstep <;>
        cases hstep <;> exact ⟨rfl, rfl⟩

/-! ## What a thread has loaded -/

/-- The program counter `k` has nothing in its local variable but what was there, or what a load of
the field brings. -/
def Brought (f : Field) (s : State Thread P T) (t : Thread) (k : Pc P T) : Prop :=
  ∀ v, k.copy f = some v → (s.pc t).copy f = some v ∨ (s.pc t).Loads f ∧ s.field f = v

theorem brought_run {t : Thread} (hstep : stepEnqueue s t (s.pc t) = some s' ∨
    stepDequeue movedFrom s t (s.pc t) = some s') :
    ∃ k, s'.pc = Function.update s.pc t k ∧ Brought f s t k := by
  unfold Brought
  rcases hstep with hstep | hstep <;> cases hpc : s.pc t <;> rw [hpc] at hstep <;>
    simp only [stepEnqueue, stepDequeue] at hstep <;>
    (repeat' split at hstep) <;> cases hstep <;>
    refine ⟨_, by first | rfl | exact congrArg (Function.update · t _) (exchangeTail_pc _ _),
      fun v hv => ?_⟩ <;>
    cases f <;>
    -- the variable is kept, loaded or gone
    first
      | exact .inl hv
      | exact .inr ⟨trivial, Option.some.inj hv⟩
      | cases hv

/-- A value comes into the local variable by a load of the field. -/
theorem copy_step {t : Thread} {v : TaggedPtr P} (hstep : step movedFrom s a = some s')
    (hbefore : (s.pc t).copy f ≠ some v) (h : (s'.pc t).copy f = some v) :
    a = .run t ∧ (s.pc t).Loads f ∧ s.field f = v := by
  -- a step that starts or ends a call, or stands at the pool, leaves nothing in the variable
  have hempty : ∀ {u : Thread} {k : Pc P T}, s'.pc = Function.update s.pc u k →
      k.copy f = none → False := by
    intro u k hpc hnone
    rw [hpc] at h
    by_cases htu : t = u
    · subst htu
      rw [Function.update_self, hnone] at h
      cases h
    · rw [Function.update_of_ne htu] at h
      exact hbefore h
  cases a with
  | enqueue u value =>
      simp only [step, enqueue, beginEnqueue] at hstep
      split at hstep <;> cases hstep
      exact (hempty rfl (by cases f <;> rfl)).elim
  | emplace u value =>
      simp only [step, emplace, beginEnqueue] at hstep
      split at hstep <;> cases hstep
      exact (hempty rfl (by cases f <;> rfl)).elim
  | tryDequeue u value =>
      simp only [step, tryDequeue] at hstep
      split at hstep <;> cases hstep
      exact (hempty rfl (by cases f <;> rfl)).elim
  | run u =>
      obtain ⟨k, hpc, hbrought⟩ : ∃ k, s'.pc = Function.update s.pc u k ∧ Brought f s u k := by
        simp only [step, Option.orElse_eq_orElse, Option.orElse_eq_or,
          Option.or_eq_some_iff] at hstep
        exact brought_run (hstep.imp_right And.right)
      rw [hpc] at h
      by_cases htu : t = u
      · subst htu
        rw [Function.update_self] at h
        exact ⟨rfl, (hbrought v h).resolve_left hbefore⟩
      · rw [Function.update_of_ne htu] at h
        exact absurd h hbefore
  | allocate u n =>
      simp only [step] at hstep
      (repeat' split at hstep) <;> cases hstep
      exact (hempty rfl (by cases f <;> rfl)).elim
  | deallocate u word =>
      simp only [step] at hstep
      split at hstep <;> cases hstep
      exact (hempty rfl (by cases f <;> rfl)).elim

omit [DecidableEq P] in
/-- The value that an exchange expects is the one in the local variable. -/
theorem Pc.copy_of_exchange {k : Pc P T} {expected desired : TaggedPtr P}
    (h : k.exchange f = some (expected, desired)) : k.copy f = some expected := by
  cases f <;> cases k <;> cases h <;> rfl

/-! ## Runs -/

/-- A bounded state of a run has the shape of the queue. -/
theorem exists_inv (hreach : (machine movedFrom).Reachable s) (hbound : Bounded s) :
    ∃ sh, Inv s sh := by
  obtain ⟨sh, hinv, -⟩ := reachable_shape (L := fun _ _ => True) (fun _ _ _ => trivial)
    (fun _ _ _ _ _ _ _ _ _ _ _ _ => trivial) hreach hbound
  exact ⟨sh, hinv⟩

/-- The tag of a field is the number of its exchanges. -/
theorem tag_eq_exchanges (hreach : (machine movedFrom).Reachable s) (hbound : Bounded s) :
    (s.field f).tag = UInt64.ofNat (exchanges f s.trace) ∧ exchanges f s.trace < 2 ^ 64 := by
  obtain ⟨sh, hinv⟩ := exists_inv hreach hbound
  cases f with
  | head => exact ⟨hinv.global.head_tag, hbound.1⟩
  | tail => exact ⟨hinv.global.tail_tag, hbound.2⟩

/-- No thread of a bounded run follows a null pointer. -/
theorem pc_ne_fault (hreach : (machine movedFrom).Reachable s) (hbound : Bounded s) (t : Thread) :
    s.pc t ≠ .fault := by
  obtain ⟨sh, hinv⟩ := exists_inv hreach hbound
  intro hpc
  have hlocal := hinv.threads t
  rw [hpc] at hlocal
  exact hlocal

/-- The states behind a bounded one are bounded. -/
theorem Bounded.of_exec {as : List (Action Thread P T)}
    (hexec : (machine movedFrom).exec s as = some s') (h : Bounded s') : Bounded s := by
  have htakes := Machine.count_le_of_exec (fun s => exchanges .head s.trace)
    (fun s a s' hstep => exchanges_le (f := .head) hstep) hexec
  have hswings := Machine.count_le_of_exec (fun s => exchanges .tail s.trace)
    (fun s a s' hstep => exchanges_le (f := .tail) hstep) hexec
  exact ⟨Nat.lt_of_le_of_lt htakes h.1, Nat.lt_of_le_of_lt hswings h.2⟩

/-- A field that has the value again that a thread loaded has not changed since. -/
theorem unchangedSinceLoad {as : List (Action Thread P T)} {t : Thread} {expected : TaggedPtr P}
    (hstart : (machine movedFrom).start s₀) (hexec : (machine movedFrom).exec s₀ as = some s)
    (hbound : Bounded s) (hcopy : (s.pc t).copy f = some expected)
    (hfound : s.field f = expected) : UnchangedSinceLoad movedFrom f s₀ as t expected := by
  have hnone : (s₀.pc t).copy f ≠ some expected := by
    obtain ⟨heap, dummy, data, rfl⟩ := hstart
    cases f <;> exact fun h => by cases h
  obtain ⟨s₁, a, s₂, after, hmoment, hbefore, hsince⟩ :=
    Machine.exists_moment (P := fun s => (s.pc t).copy f = some expected) hnone hexec hcopy
  obtain ⟨rfl, hloads, hloaded⟩ := copy_step hmoment.step hbefore hsince.first
  refine ⟨s₁, s₂, after, hmoment, hloads, hsince, ?_⟩
  -- both values are the same, so both tags are, and as many exchanges have been made
  have hrun := hmoment.exec_cons_after hexec
  obtain ⟨htag₁, hlt₁⟩ := tag_eq_exchanges (f := f) (hmoment.reachable hstart)
    (Bounded.of_exec hrun hbound)
  obtain ⟨htag, hlt⟩ := tag_eq_exchanges (f := f) (.of_exec hstart hexec) hbound
  have hcount : exchanges f s.trace = exchanges f s₁.trace := by
    refine ofNat_tag_inj hlt hlt₁ ?_
    rw [← htag, ← htag₁, hfound, hloaded]
  have hsame := Machine.throughout_of_count (fun s => exchanges f s.trace)
    (fun s => s.field f) (fun s a s' hstep => exchanges_le hstep)
    (fun s a s' hstep => field_eq_of_exchanges hstep) hrun hcount
  rw [hloaded] at hsame
  exact hsame

/-- `head_` and `tail_` are immune to ABA.  In every run with fewer than `2 ^ 64` exchanges on each
of them, either field only changes by a successful compare-exchange; every successful
compare-exchange raises the tag by one; and it finds a field that has not changed since the thread
loaded the value it expects. -/
theorem exchanges_immune {as : List (Action Thread P T)} (f : Field)
    (hstart : (machine movedFrom).start s₀) (hexec : (machine movedFrom).exec s₀ as = some s)
    (hstep : (machine movedFrom).step s a = some s') (hbound : Bounded s') :
    (s'.field f ≠ s.field f → ∃ expected desired, Exchanges f s a expected desired) ∧
      ∀ t expected desired, a = .run t → Exchanges f s a expected desired →
        s'.field f = desired ∧
        (s'.field f).tag.toNat = (s.field f).tag.toNat + 1 ∧
        UnchangedSinceLoad movedFrom f s₀ as t expected := by
  constructor
  · intro hchanged
    cases fieldStep (f := f) hstep with
    | same hfield hcount => exact absurd hfield hchanged
    | exchange expected desired h _ _ => exact ⟨expected, desired, h⟩
  · rintro t expected desired rfl hexchanges
    have hreach := Machine.Reachable.of_exec hstart hexec
    have hreach' := hreach.step trivial hstep
    have hback := Bounded.back (a := .run t) hstep hbound
    obtain ⟨hfield, hcount⟩ := hexchanges.field hstep (pc_ne_fault hreach' hbound t)
    refine ⟨hfield, ?_, ?_⟩
    · obtain ⟨htag, hlt⟩ := tag_eq_exchanges (f := f) hreach hback
      obtain ⟨htag', hlt'⟩ := tag_eq_exchanges (f := f) hreach' hbound
      rw [htag, htag', UInt64.toNat_ofNat_of_lt' hlt, UInt64.toNat_ofNat_of_lt' hlt', hcount]
    · obtain ⟨u, hu, hexchange, hfound⟩ := hexchanges
      cases hu
      exact unchangedSinceLoad hstart hexec hback (Pc.copy_of_exchange hexchange) hfound

/-- The exchange in which an undisturbed enqueue moves `tail_`. -/
theorem exchanges_immune_enqueue :
    ∃ s s' : State ℕ ℕ ℕ, (machine id).exec (initial (fun _ => ⟨⟨none, 0⟩, 0, 0⟩) 0 0)
        ([.enqueue 1 7, .allocate 1 1] ++ List.replicate 7 (.run 1)) = some s ∧
      Exchanges .tail s (.run 1) ⟨some 0, 0⟩ ⟨some 1, 1⟩ ∧
      s'.tail = ⟨some 1, 1⟩ ∧ s'.tail.tag.toNat = s.tail.tag.toNat + 1 ∧
      UnchangedSinceLoad id .tail (initial (fun _ => ⟨⟨none, 0⟩, 0, 0⟩) 0 0)
        ([.enqueue 1 7, .allocate 1 1] ++ List.replicate 7 (.run 1)) 1 ⟨some 0, 0⟩ := by
  obtain ⟨s, s', hexec, hstep, hexchanges, hbound⟩ : ∃ s s' : State ℕ ℕ ℕ,
      (machine id).exec (initial (fun _ => ⟨⟨none, 0⟩, 0, 0⟩) 0 0)
        ([.enqueue 1 7, .allocate 1 1] ++ List.replicate 7 (.run 1)) = some s ∧
      (machine id).step s (.run 1) = some s' ∧
      Exchanges .tail s (.run 1) ⟨some 0, 0⟩ ⟨some 1, 1⟩ ∧ Bounded s' :=
    ⟨_, _, rfl, rfl, ⟨1, rfl, rfl, rfl⟩, by decide, by decide⟩
  obtain ⟨hfield, htag, hsince⟩ :=
    (exchanges_immune .tail ⟨_, _, _, rfl⟩ hexec hstep hbound).2 _ _ _ rfl hexchanges
  exact ⟨s, s', hexec, hexchanges, hfield, htag, hsince⟩

end Queue
end Lockfree
end Cyan

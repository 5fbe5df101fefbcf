import Cyan.Ev.RunWake

/-!
# When `ev_run` returns

`left_by_break`: while the program holds a reference, `ev_run` returns only when
`ev_break` has been called.
-/

namespace Cyan
namespace Ev

open Base

variable {Thread ι T : Type*} [DecidableEq Thread] [DecidableEq ι]
variable [LinearOrder T] [Add T] [Sub T] [Zero T]

namespace Loop

variable {l : Loop ι T} {refs : Int} {c : Call ι T}

/-- Only `ev_break` writes `loop_done`. -/
theorem call_loopDone (hc : ∀ how, c ≠ .break how) : (l.call c).loopDone = l.loopDone := by
  have hother : (∀ w fd, c ≠ .asyncStart w fd) → (∀ w, c ≠ .asyncStop w) →
      (l.call c).loopDone = l.loopDone :=
    call_part (fun _ _ _ _ _ _ _ _ => rfl) hc
  cases c with
  | «break» how => exact absurd rfl (hc how)
  | asyncStart w fd =>
      obtain ⟨_, _, _, _, hstart⟩ := l.evAsyncStart_writes w fd
      change (l.evAsyncStart w fd).loopDone = l.loopDone
      rw [hstart]
  | asyncStop w =>
      obtain ⟨_, _, _, hstop⟩ := l.evAsyncStop_writes w
      change (l.evAsyncStop w).loopDone = l.loopDone
      rw [hstop]
  | _ => exact hother (fun _ _ heq => by cases heq) fun _ heq => by cases heq

omit [LinearOrder T] [Add T] [Sub T] [Zero T] in
theorem fdKillLoop_loopDone (ws : List (Option ι)) : (l.fdKillLoop ws).loopDone = l.loopDone := by
  induction ws generalizing l with
  | nil => rfl
  | cons u ws ih =>
      rw [fdKillLoop, ih]
      obtain ⟨_, _, _, hstop⟩ := l.evIoStop_writes u
      change (l.evIoStop u).loopDone = l.loopDone
      rw [hstop]

omit [DecidableEq ι] [Add T] [Sub T] [Zero T] in
/-- A reference keeps the loop alive. -/
theorem Ok.activecnt_ne_zero (h : l.Ok refs) (hrefs : 1 ≤ refs) : l.activecnt ≠ 0 := by
  have hcount := h.counted.activecnt
  omega

end Loop

namespace Pc

/-- The loop is in `ev_invoke_pending`. -/
def InRound : Pc ι T → Prop
  | .invoke _ => True
  | .callback _ _ _ => True
  | .pipecb _ _ => True
  | _ => False

end Pc

namespace State

variable {s s' s₀ s₁ : State Thread ι T} {cfg : Config T} {eventfd : Bool}
variable {a : Action Thread ι T} {as : List (Action Thread ι T)} {next : Next} {now : T}

/-! ## The end of `ev_run` -/

theorem loopDone_polled (l : Loop ι T) (now : T) : (l.polled now).loopDone = l.loopDone :=
  (congrArg Loop.loopDone (Loop.polled_same l now)).trans rfl

section

omit [DecidableEq Thread] [LinearOrder T] [Add T] [Sub T] [Zero T]

theorem stepInvoke_pc (hpc : s.pc = .invoke next) :
    (s.stepInvoke next).pc.InRound ∨ (s.stepInvoke next).pc = .top ∨
      (s.stepInvoke next).pc = .test := by
  unfold stepInvoke
  dsimp only
  split
  · refine .inl ?_
    split
    · rw [hpc]
      exact trivial
    · exact trivial
    · exact trivial
  · split
    · refine .inr ?_
      cases next
      · exact .inl rfl
      · exact .inr rfl
    · refine .inl ?_
      rw [hpc]
      exact trivial

theorem stepPipecb_pc (p : PipePc ι) : (s.stepPipecb eventfd next p).pc.InRound := by
  unfold stepPipecb
  split
  case h_3 =>
    dsimp only
    split <;> exact trivial
  all_goals exact trivial

end

/-- With a reference and without flags, only `ev_break` ends `ev_run`. -/
theorem Inv.loopDone_of_leave (h : s.Inv) (hpc : s.pc ≠ .outside)
    (hstep : s.step cfg eventfd a = some s') (hout : s'.pc = .outside)
    (hflags : s.flags = ⟨false, false⟩) (hrefs : 1 ≤ s.refs) : s.loop.loopDone ≠ .cancel := by
  cases a with
  | call c =>
      obtain ⟨-, rfl⟩ := step_call hstep
      exact absurd hout hpc
  | run flags =>
      obtain ⟨hpc', -⟩ := step_run hstep
      exact absurd hpc' hpc
  | next now =>
      unfold State.step stepLoop at hstep
      dsimp only at hstep
      split at hstep
      case h_1 => cases hstep
      case h_2 next hpc =>
        cases hstep
        rcases stepInvoke_pc hpc with hround | htop | htest
        · rw [hout] at hround
          exact hround.elim
        · cases hout.symm.trans htop
        · cases hout.symm.trans htest
      case h_3 next hpc =>
        cases hstep
        cases hout
      case h_4 q next hpc =>
        cases hstep
        have hround : (s.stepPipecb eventfd next q).pc.InRound := stepPipecb_pc q
        rw [hout] at hround
        exact hround.elim
      case h_5 hpc =>
        split at hstep
        · assumption
        · cases hstep
          cases hout
      case h_6 prev hpc =>
        cases hstep
        cases hout
      case h_7 wait hpc =>
        cases hstep
        cases hout
      case h_8 hpc =>
        cases hstep
        cases hout
      case h_9 hpc =>
        split at hstep
        · cases hstep
          cases hout
        · rename_i hgoes
          intro hcancel
          refine hgoes ?_
          simp [Loop.goesOn, hflags, hcancel, h.ok.activecnt_ne_zero hrefs]
  | event fd revents =>
      obtain ⟨-, rfl⟩ := step_event hstep
      exact absurd hout hpc
  | kill fd =>
      obtain ⟨-, rfl⟩ := step_kill hstep
      exact absurd hout hpc
  | send t w =>
      obtain ⟨-, rfl⟩ := step_send hstep
      exact absurd hout hpc
  | thread t =>
      obtain ⟨w, p, -, rfl⟩ := step_thread hstep
      exact absurd hout hpc

section

omit [DecidableEq Thread] [LinearOrder T] [Add T] [Sub T] [Zero T]

theorem loopDone_stepInvoke (next : Next) :
    (s.stepInvoke next).loop.loopDone = s.loop.loopDone ∧ (s.stepInvoke next).flags = s.flags := by
  unfold stepInvoke
  dsimp only
  split
  · split <;> exact ⟨rfl, rfl⟩
  · split <;> exact ⟨rfl, rfl⟩

theorem loopDone_stepPipecb (next : Next) (q : PipePc ι) :
    (s.stepPipecb eventfd next q).loop.loopDone = s.loop.loopDone ∧
      (s.stepPipecb eventfd next q).flags = s.flags := by
  unfold stepPipecb
  split
  case h_6 w ws =>
    refine ⟨?_, rfl⟩
    dsimp only
    unfold Loop.pipecbStep
    split <;> rfl
  all_goals exact ⟨rfl, rfl⟩

end

/-- What a step of `ev_run` does to `loop_done` and to the flags. -/
theorem loopDone_step (hstep : s.step cfg eventfd a = some s') :
    (∃ how, a = .call (.break how) ∧ s'.loop.loopDone = how ∧ s'.flags = s.flags) ∨
      s.pc = .outside ∧ s'.loop.loopDone = .cancel ∨
      s'.loop.loopDone = s.loop.loopDone ∧ s'.flags = s.flags ∨
      s'.pc = .outside ∧ s'.loop = s.loop.leave := by
  cases a with
  | call c =>
      obtain ⟨-, rfl⟩ := step_call hstep
      cases c with
      | «break» how => exact .inl ⟨how, rfl, rfl, rfl⟩
      | _ => exact .inr (.inr (.inl ⟨Loop.call_loopDone (fun how h => by cases h), rfl⟩))
  | run flags =>
      obtain ⟨hpc, rfl⟩ := step_run hstep
      exact .inr (.inl ⟨hpc, rfl⟩)
  | next now =>
      refine .inr (.inr ?_)
      unfold State.step stepLoop at hstep
      dsimp only at hstep
      split at hstep
      case h_1 => cases hstep
      case h_2 next hpc =>
        cases hstep
        exact .inl (loopDone_stepInvoke next)
      case h_3 next hpc =>
        cases hstep
        exact .inl ⟨rfl, rfl⟩
      case h_4 q next hpc =>
        cases hstep
        exact .inl (loopDone_stepPipecb next q)
      case h_5 hpc =>
        split at hstep
        · cases hstep
          exact .inr ⟨rfl, rfl⟩
        · cases hstep
          exact .inl ⟨rfl, rfl⟩
      case h_6 prev hpc =>
        cases hstep
        exact .inl ⟨rfl, rfl⟩
      case h_7 wait hpc =>
        cases hstep
        exact .inl ⟨rfl, rfl⟩
      case h_8 hpc =>
        cases hstep
        exact .inl ⟨loopDone_polled _ _, rfl⟩
      case h_9 hpc =>
        split at hstep
        · cases hstep
          exact .inl ⟨rfl, rfl⟩
        · cases hstep
          exact .inr ⟨rfl, rfl⟩
  | event fd revents =>
      obtain ⟨-, rfl⟩ := step_event hstep
      have hsame := Loop.fdEvent_same s.loop fd revents
      exact .inr (.inr (.inl ⟨(congrArg Loop.loopDone hsame).trans rfl, rfl⟩))
  | kill fd =>
      obtain ⟨-, rfl⟩ := step_kill hstep
      exact .inr (.inr (.inl ⟨Loop.fdKillLoop_loopDone _, rfl⟩))
  | send t w =>
      obtain ⟨-, rfl⟩ := step_send hstep
      exact .inr (.inr (.inl ⟨rfl, rfl⟩))
  | thread t =>
      obtain ⟨w, p, -, rfl⟩ := step_thread hstep
      cases p <;> exact .inr (.inr (.inl ⟨rfl, rfl⟩))

/-- While the program holds a reference, `ev_run` without flags returns only when `ev_break` has
been called. -/
theorem left_by_break (h₀ : Reachable cfg eventfd s₀)
    (hstart : s₀.step cfg eventfd (.run ⟨false, false⟩) = some s₁)
    (hrun : (contract cfg eventfd).exec s₁ as = some s)
    (hin : (contract cfg eventfd).Throughout (fun u => u.pc ≠ .outside) s₁ as)
    (hstep : s.step cfg eventfd a = some s') (hout : s'.pc = .outside) (hrefs : 1 ≤ s.refs) :
    ∃ s₂ how s₃ after, (contract cfg eventfd).Moment s₁ as s₂ (.call (.break how)) s₃ after ∧
      how ≠ .cancel := by
  have hallowed : s₀.Allowed (.run ⟨false, false⟩) := trivial
  have h₁ : Reachable cfg eventfd s₁ := h₀.step hallowed hstart
  obtain ⟨-, rfl⟩ := step_run hstart
  have hflags : s.flags = ⟨false, false⟩ := by
    refine (hin.along (Q := fun u => u.flags = ⟨false, false⟩) (fun u b u' hu hf hb hu' => ?_)
      rfl).last hrun
    rcases loopDone_step (Machine.restrict_step.mp hb).2 with ⟨how, -, -, hsame⟩ |
      ⟨hpc, -⟩ | ⟨-, hsame⟩ | ⟨hpc, -⟩
    · exact hsame.trans hf
    · exact absurd hpc hu
    · exact hsame.trans hf
    · exact absurd hpc hu'
  have hdone := (Inv.of_reachable (h₁.exec_restrict hrun)).loopDone_of_leave (hin.last hrun) hstep
    hout hflags hrefs
  obtain ⟨s₂, b, s₃, after, hmoment, hbefore, hsince⟩ := Machine.exists_moment
    (P := fun u => u.loop.loopDone ≠ .cancel) (not_not.mpr rfl) hrun hdone
  have hcancel : s₂.loop.loopDone = .cancel := not_not.mp hbefore
  have hafter := hsince.first
  rcases loopDone_step (Machine.restrict_step.mp hmoment.step).2 with ⟨how, rfl, hhow, -⟩ |
    ⟨-, hnone⟩ | ⟨hsame, -⟩ | ⟨-, hleave⟩
  · exact ⟨s₂, how, s₃, after, hmoment, hhow ▸ hafter⟩
  · exact absurd hnone hafter
  · exact absurd (hsame.trans hcancel) hafter
  · rw [hleave, Loop.leave, hcancel] at hafter
    exact absurd rfl hafter

/-- A timer is started, and `ev_run` is called. -/
def timerRuns : Sample :=
  ((machine plain true).execUnder Allowed (.init false 0)
    [.call .ref, .call (.timerSet true 3 0), .call (.timerStart true)]).get (by decide +kernel)

/-- `ev_run` has begun. -/
def timerBegun : Sample :=
  (timerRuns.step plain true (.run ⟨false, false⟩)).get (by decide +kernel)

/-- The timer expires, and its callback calls `ev_break`. -/
def timerBreaks : List (Action Unit Bool Nat) :=
  List.replicate 8 (.next 0) ++ List.replicate 4 (.next 10) ++ .call (.break .all) ::
    List.replicate 4 (.next 10)

/-- The loop is about to return. -/
def timerEnds : Sample :=
  ((machine plain true).execUnder Allowed timerBegun timerBreaks).get (by decide +kernel)

/-- It has returned. -/
def timerLeft : Sample :=
  (timerEnds.step plain true (.next 10)).get (by decide +kernel)

theorem left_by_break_timer :
    ∃ s₂ how s₃ after, (contract plain true).Moment timerBegun timerBreaks s₂ (.call (.break how))
      s₃ after ∧ how ≠ .cancel := by
  have hreach : Reachable plain true timerRuns :=
    .of_execUnder ⟨false, 0, rfl⟩ (Option.some_get _).symm
  have hstart : timerRuns.step plain true (.run ⟨false, false⟩) = some timerBegun :=
    (Option.some_get _).symm
  have hrun : (contract plain true).exec timerBegun timerBreaks = some timerEnds :=
    exec_contract (Option.some_get _).symm
  have hin : (contract plain true).Throughout (fun u => u.pc ≠ .outside) timerBegun timerBreaks :=
    Machine.throughout_of_checkAlong (P := fun u => u.pc ≠ .outside)
      (fun _ h => of_decide_eq_true h) (by decide +kernel)
  have hstep : timerEnds.step plain true (.next 10) = some timerLeft := (Option.some_get _).symm
  exact left_by_break hreach hstart hrun hin hstep (by decide +kernel) (by decide +kernel)

end State
end Ev
end Cyan

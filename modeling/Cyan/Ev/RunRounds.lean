import Mathlib.Data.Prod.Lex
import Cyan.Base.Budget
import Cyan.Ev.RunReturns

/-!
# Every round of callbacks ends

* `round_ends`: `ev_invoke_pending` returns, when every callback does.
* `returns_after_break`: `ev_run` returns when `ev_break` has been called, and
  `backend_poll` is not called once more.

A round of callbacks ends because nothing is fed in it but async watchers, once, by
`pipecb`, which would feed signal watchers too, if there were any.  `State.left` is what
falls in every step of the loop: first, how far `pipecb` is from its loop over `asyncs`,
and then the entries of the queue.
-/

namespace Cyan
namespace Ev

open Base

namespace Queue

variable {W : Type*} [DecidableEq W] {q q' : Queue W} {p : AnPending W} {w : W}

/-- The entries that `ev_invoke_pending` still looks at. -/
def backlog (q : Queue W) : Nat :=
  ∑ pri ∈ Finset.range (q.pendingpri + 1), (q.pendings pri).length

omit [DecidableEq W] in
theorem Quieter.backlog {P : W → Prop} (h : Quieter P q q') : q'.backlog = q.backlog := by
  rw [Queue.backlog, Queue.backlog, h.pendingpri]
  exact Finset.sum_congr rfl fun pri _ => h.length pri

theorem backlog_takePending (h : q.takePending q.pendingpri = some (p, q')) :
    q'.backlog < q.backlog := by
  rw [backlog, backlog, takePending_pendingpri h]
  have hlast : (q'.pendings q.pendingpri).length < (q.pendings q.pendingpri).length := by
    obtain ⟨l, hl, rfl⟩ := takePending_eq h
    have hrest : (p.w.elim (q.setPendings q.pendingpri l) fun w =>
        { q.setPendings q.pendingpri l with
          pending := Function.update q.pending w 0 }).pendings q.pendingpri = l := by
      cases p.w <;> exact Function.update_self ..
    rw [hrest, hl, List.length_append, List.length_singleton]
    exact Nat.lt_succ_self _
  refine Finset.sum_lt_sum (fun pri _ => ?_) ⟨_, Finset.self_mem_range_succ _, hlast⟩
  by_cases hpri : pri = q.pendingpri
  · exact hpri ▸ hlast.le
  · rw [takePending_pendings h hpri]

omit [DecidableEq W] in
theorem backlog_next (q : Queue W) :
    backlog { q with pendingpri := q.pendingpri - 1 } ≤ q.backlog :=
  Finset.sum_le_sum_of_subset (Finset.range_mono (Nat.succ_le_succ (Nat.sub_le ..)))

/-- Feeding a watcher adds at most one entry. -/
theorem Swept.backlog_feedEvent (h : q.Swept) (w : W) (revents : UInt32) :
    (q.feedEvent w revents).backlog ≤ q.backlog + 1 := by
  have hfed : ∀ pri, ((q.feedEvent w revents).pendings pri).length ≤
      (q.pendings pri).length + if pri = q.abspri w then 1 else 0 := by
    intro pri
    have hpendings : (q.feedEvent w revents).pendings = Function.update q.pendings (q.abspri w)
        (if q.pending w ≠ 0 then
          (q.pendings (q.abspri w)).modify (q.pending w - 1)
            fun p => { p with events := p.events ||| revents }
        else q.pendings (q.abspri w) ++ [⟨some w, revents⟩]) := by
      unfold feedEvent
      dsimp only
      split <;> rfl
    rw [hpendings]
    by_cases hpri : pri = q.abspri w
    · rw [if_pos hpri, hpri, Function.update_self]
      split
      · rw [List.length_modify]
        exact Nat.le_succ _
      · rw [List.length_append, List.length_singleton]
    · rw [if_neg hpri, Function.update_of_ne hpri, Nat.add_zero]
  have hlooked : ∑ pri ∈ Finset.range numpri, (q.pendings pri).length ≤ q.backlog := by
    refine Finset.sum_le_sum_of_ne_zero fun pri hpri hne => ?_
    by_contra hout
    refine hne (List.length_eq_zero_iff.mpr (h pri ?_ (Finset.mem_range.mp hpri)))
    exact Nat.lt_of_succ_le (not_lt.mp (mt Finset.mem_range.mpr hout))
  have hone : ∑ pri ∈ Finset.range numpri, (if pri = q.abspri w then 1 else 0) ≤ 1 := by
    rw [Finset.sum_ite_eq']
    split
    · exact le_rfl
    · exact Nat.zero_le _
  calc (q.feedEvent w revents).backlog
    _ = ∑ pri ∈ Finset.range numpri, ((q.feedEvent w revents).pendings pri).length := rfl
    _ ≤ ∑ pri ∈ Finset.range numpri,
          ((q.pendings pri).length + if pri = q.abspri w then 1 else 0) :=
        Finset.sum_le_sum fun pri _ => hfed pri
    _ = ∑ pri ∈ Finset.range numpri, (q.pendings pri).length +
          ∑ pri ∈ Finset.range numpri, (if pri = q.abspri w then 1 else 0) :=
        Finset.sum_add_distrib
    _ ≤ q.backlog + 1 := Nat.add_le_add hlooked hone

end Queue

variable {Thread ι T : Type*} [DecidableEq Thread] [DecidableEq ι]
variable [LinearOrder T] [Add T] [Sub T] [Zero T]

namespace Pc

/-- How far `pipecb` is from its loop over `asyncs`. -/
def ahead : Pc ι T → Nat
  | .pipecb (.read _) _ => 4
  | .pipecb .skipped _ => 3
  | .pipecb .pending _ => 2
  | .pipecb .clear _ => 1
  | _ => 0

/-- What the loop has begun. -/
def begun : Pc ι T → Nat
  -- every watcher may be fed, and `pendingpri` goes up
  | .pipecb (.scan ws) _ => 8 * ws.length + 3
  | .callback _ _ _ => 4
  | .invoke _ => 2
  | .test => 1
  | _ => 0

/-- The loop is in `ev_run`, and not on its way to `backend_poll` or back. -/
def Busy : Pc ι T → Prop
  | .top => True
  | .test => True
  | pc => pc.InRound

omit [DecidableEq ι] [LinearOrder T] [Add T] [Sub T] [Zero T] in
theorem InRound.busy {pc : Pc ι T} (h : pc.InRound) : pc.Busy := by
  cases pc <;> first | exact h | exact trivial

end Pc

namespace State

variable {s s' : State Thread ι T} {cfg : Config T} {eventfd : Bool}
variable {a : Action Thread ι T} {next : Next} {now : T}

/-- What is left to do before the round is over. -/
def left (s : State Thread ι T) : ℕ ×ₗ ℕ :=
  toLex ((if s.loop.queue.pending (.io none) ≠ 0 then 5 else 0) + s.pc.ahead,
    3 * s.loop.queue.backlog + s.loop.queue.pendingpri + s.pc.begun)

/-- The loop takes its next step. -/
def Goes (a : Action Thread ι T) : Prop :=
  ∃ now, a = .next now

section

omit [DecidableEq Thread] [DecidableEq ι] [LinearOrder T] [Add T] [Sub T] [Zero T]

theorem polls_of_busy (h : s.pc.Busy) : s.polls = false := by
  unfold State.polls
  split
  · rename_i hpc
    rw [hpc] at h
    exact h.elim
  · rfl

theorem ne_outside_of_busy (h : s.pc.Busy) : s.pc ≠ .outside := by
  intro hpc
  rw [hpc] at h
  exact h

end

/-- What the program and the threads do adds nothing to the round. -/
theorem Inv.left_le (h : s.Inv) (ha : s.Allowed a) (hbusy : s.pc.Busy)
    (hstep : s.step cfg eventfd a = some s') (hgoes : ¬Goes a) : s'.left ≤ s.left := by
  cases a with
  | call c =>
      obtain ⟨-, rfl⟩ := step_call hstep
      have hquiet := (h.ok.call ha).2.queue
      have hpipe : (if (s.loop.call c).queue.pending (.io none) ≠ 0 then 5 else 0) ≤
          if s.loop.queue.pending (.io none) ≠ 0 then 5 else 0 := by
        split
        · rename_i hpending
          rw [if_pos (hquiet.pending _ hpending)]
        · exact Nat.zero_le _
      refine Prod.Lex.toLex_mono ⟨Nat.add_le_add_right hpipe _, ?_⟩
      dsimp only
      rw [hquiet.backlog, hquiet.pendingpri]
  | run flags =>
      obtain ⟨hpc, -⟩ := step_run hstep
      rw [hpc] at hbusy
      exact hbusy.elim
  | next now => exact absurd ⟨now, rfl⟩ hgoes
  | event fd revents =>
      obtain ⟨hpolls, -⟩ := step_event hstep
      exact absurd hpolls (Bool.eq_false_iff.mp (polls_of_busy hbusy))
  | kill fd =>
      obtain ⟨hpolls, -⟩ := step_kill hstep
      exact absurd hpolls (Bool.eq_false_iff.mp (polls_of_busy hbusy))
  | send t w =>
      obtain ⟨-, rfl⟩ := step_send hstep
      exact le_rfl
  | thread t =>
      obtain ⟨w, p, -, rfl⟩ := step_thread hstep
      cases p <;> exact le_rfl

section

omit [DecidableEq Thread] [DecidableEq ι] [LinearOrder T] [Add T] [Sub T] [Zero T]

theorem left_lt_of_ahead (hqueue : s'.loop.queue = s.loop.queue)
    (hlt : s'.pc.ahead < s.pc.ahead) : s'.left < s.left := by
  refine Prod.Lex.toLex_lt_toLex.mpr (.inl ?_)
  dsimp only
  rw [hqueue]
  exact Nat.add_lt_add_left hlt _

theorem left_lt_of_begun (hqueue : s'.loop.queue = s.loop.queue)
    (hahead : s'.pc.ahead ≤ s.pc.ahead) (hlt : s'.pc.begun < s.pc.begun) : s'.left < s.left := by
  refine Prod.Lex.toLex_lt_toLex'.mpr ⟨?_, fun _ => ?_⟩
  · dsimp only
    rw [hqueue]
    exact Nat.add_le_add_left hahead _
  · dsimp only
    rw [hqueue]
    exact Nat.add_lt_add_left hlt _

end

section

omit [DecidableEq Thread] [Add T] [Sub T] [Zero T]

theorem Inv.left_stepInvoke (h : s.Inv) (hpc : s.pc = .invoke next) :
    (s.stepInvoke next).left < s.left := by
  unfold stepInvoke
  dsimp only
  split
  · rename_i p q htake
    have hbacklog := Queue.backlog_takePending htake
    have hpri := Queue.takePending_pendingpri htake
    obtain ⟨-, hold, hgone⟩ := Queue.takePending_pending htake
    have hpipe : (if q.pending (.io none) ≠ 0 then 5 else 0) ≤
        if s.loop.queue.pending (.io none) ≠ 0 then 5 else 0 := by
      split
      · rename_i hpending
        rw [if_pos (hold _ hpending)]
      · exact Nat.zero_le _
    split
    · refine Prod.Lex.toLex_lt_toLex'.mpr ⟨Nat.add_le_add_right hpipe _, fun _ => ?_⟩
      dsimp only
      rw [hpri]
      omega
    · rename_i hp
      refine Prod.Lex.toLex_lt_toLex.mpr (.inl ?_)
      obtain ⟨w, events⟩ := p
      obtain rfl : w = some (.io none) := hp
      have hmem := Queue.mem_agenda_of_takePending htake
      have hpending : s.loop.queue.pending (.io none) ≠ 0 :=
        h.ok.manned.sound.pending_of_mem (List.mem_map.mpr ⟨_, hmem, rfl⟩)
      dsimp only [left]
      rw [if_pos hpending, if_neg (not_not.mpr (hgone _ rfl)), hpc]
      exact Nat.lt_succ_self 4
    · refine Prod.Lex.toLex_lt_toLex'.mpr ⟨?_, fun _ => ?_⟩
      · dsimp only [left]
        rw [hpc]
        exact hpipe
      · dsimp only [left]
        rw [hpri, hpc]
        dsimp only [Pc.begun]
        omega
  · split
    · refine left_lt_of_begun rfl ?_ ?_
      · rw [hpc]
        cases next <;> exact le_rfl
      · rw [hpc]
        cases next
        · exact Nat.zero_lt_two
        · exact Nat.one_lt_two
    · rename_i hpri
      have hbacklog := Queue.backlog_next s.loop.queue
      refine Prod.Lex.toLex_lt_toLex'.mpr ⟨le_rfl, fun _ => ?_⟩
      dsimp only [left]
      omega

theorem Inv.left_pipecbStep {w : ι} {ws : List ι} (h : s.Inv)
    (hpc : s.pc = .pipecb (.scan (w :: ws)) next) :
    (s.stepPipecb eventfd next (.scan (w :: ws))).left < s.left := by
  have hpipe : (if (s.loop.pipecbStep w).queue.pending (.io none) ≠ 0 then 5 else 0) ≤
      if s.loop.queue.pending (.io none) ≠ 0 then 5 else 0 := by
    split
    · rename_i hpending
      rcases (Loop.pipecbStep_fed h.ok.manned.sound w).pending _ hpending with ⟨hasync, -⟩ | hold
      · cases hasync
      · rw [if_pos hold]
    · exact Nat.zero_le _
  have hqueue : 3 * (s.loop.pipecbStep w).queue.backlog +
      (s.loop.pipecbStep w).queue.pendingpri ≤
      3 * s.loop.queue.backlog + s.loop.queue.pendingpri + 7 := by
    unfold Loop.pipecbStep
    split
    · have hbacklog := h.swept.backlog_feedEvent (.async w) evAsync
      have hpri : (s.loop.queue.feedEvent (.async w) evAsync).pendingpri = 4 := rfl
      dsimp only [Loop.feedEvent]
      omega
    · exact Nat.le_add_right ..
  refine Prod.Lex.toLex_lt_toLex'.mpr ⟨?_, fun _ => ?_⟩
  · dsimp only [left]
    rw [hpc]
    exact hpipe
  · dsimp only [left, stepPipecb]
    rw [hpc]
    dsimp only [Pc.begun]
    rw [List.length_cons]
    omega

theorem Inv.left_stepPipecb {p : PipePc ι} (h : s.Inv) (hpc : s.pc = .pipecb p next) :
    (s.stepPipecb eventfd next p).left < s.left := by
  cases p with
  | read revents =>
      refine left_lt_of_ahead rfl ?_
      rw [hpc]
      exact Nat.lt_succ_self 3
  | skipped =>
      refine left_lt_of_ahead rfl ?_
      rw [hpc]
      exact Nat.lt_succ_self 2
  | pending =>
      refine left_lt_of_ahead rfl ?_
      rw [hpc]
      unfold stepPipecb
      dsimp only
      split
      · exact Nat.one_lt_two
      · exact Nat.zero_lt_two
  | clear =>
      refine left_lt_of_ahead rfl ?_
      rw [hpc]
      exact Nat.one_pos
  | scan ws =>
      cases ws with
      | nil =>
          refine left_lt_of_begun rfl ?_ ?_
          · rw [hpc]
            exact le_rfl
          · rw [hpc]
            exact Nat.lt_succ_self 2
      | cons w ws => exact h.left_pipecbStep hpc

end

/-- What the next step of the loop takes off. -/
theorem Inv.left_lt (h : s.Inv) (hbusy : s.pc.Busy) (hbusy' : s'.pc.Busy)
    (hstep : s.step cfg eventfd (.next now) = some s') : s'.left < s.left := by
  unfold State.step stepLoop at hstep
  dsimp only at hstep
  split at hstep
  case h_1 => cases hstep
  case h_2 next hpc =>
    cases hstep
    exact h.left_stepInvoke hpc
  case h_3 next hpc =>
    cases hstep
    refine left_lt_of_begun rfl ?_ ?_
    · rw [hpc]
      exact le_rfl
    · rw [hpc]
      exact Nat.lt_of_succ_lt (Nat.lt_succ_self 3)
  case h_4 p next hpc =>
    cases hstep
    exact h.left_stepPipecb hpc
  case h_5 hpc =>
    split at hstep <;> cases hstep <;> exact hbusy'.elim
  case h_6 prev hpc =>
    rw [hpc] at hbusy
    exact hbusy.elim
  case h_7 wait hpc =>
    rw [hpc] at hbusy
    exact hbusy.elim
  case h_8 hpc =>
    rw [hpc] at hbusy
    exact hbusy.elim
  case h_9 hpc =>
    split at hstep
    · cases hstep
      refine left_lt_of_begun rfl ?_ ?_
      · rw [hpc]
        exact le_rfl
      · rw [hpc]
        exact Nat.one_pos
    · cases hstep
      exact hbusy'.elim

/-- The rounds of a loop that goes on. -/
theorem busy_falls : (contract cfg eventfd).Falls
    (fun s : State Thread ι T => s.Inv ∧ s.pc.Busy) Goes left where
  rests s a s' hs hs' hstep := by
    obtain ⟨hallowed, hstep⟩ := Machine.restrict_step.mp hstep
    by_cases hgoes : Goes a
    · obtain ⟨now, rfl⟩ := hgoes
      exact (hs.1.left_lt hs.2 hs'.2 hstep).le
    · exact hs.1.left_le hallowed hs.2 hstep hgoes
  falls s a s' hs hs' hstep hgoes := by
    obtain ⟨now, rfl⟩ := hgoes
    exact hs.1.left_lt hs.2 hs'.2 (Machine.restrict_step.mp hstep).2

/-! ## Runs without end -/

variable {run : Nat → State Thread ι T} {act : Nat → Action Thread ι T}

theorem inv_of_run (h₀ : Reachable cfg eventfd (run 0))
    (hrun : ∀ n, (contract cfg eventfd).step (run n) (act n) = some (run (n + 1))) (n : Nat) :
    (run n).Inv := by
  have hreach : Reachable cfg eventfd (run n) := by
    induction n with
    | zero => exact h₀
    | succ n ih =>
        obtain ⟨hallowed, hstep⟩ := Machine.restrict_step.mp (hrun n)
        exact ih.step hallowed hstep
  exact .of_reachable hreach

/-- Nobody but the loop moves it on. -/
theorem pc_of_rest (hbusy : s.pc.Busy) (hstep : s.step cfg eventfd a = some s')
    (hgoes : ¬Goes a) : s'.pc = s.pc := by
  cases a with
  | call c =>
      obtain ⟨-, rfl⟩ := step_call hstep
      rfl
  | run flags =>
      obtain ⟨hpc, -⟩ := step_run hstep
      rw [hpc] at hbusy
      exact hbusy.elim
  | next now => exact absurd ⟨now, rfl⟩ hgoes
  | event fd revents =>
      obtain ⟨hpolls, -⟩ := step_event hstep
      exact absurd hpolls (Bool.eq_false_iff.mp (polls_of_busy hbusy))
  | kill fd =>
      obtain ⟨hpolls, -⟩ := step_kill hstep
      exact absurd hpolls (Bool.eq_false_iff.mp (polls_of_busy hbusy))
  | send t w =>
      obtain ⟨-, rfl⟩ := step_send hstep
      rfl
  | thread t =>
      obtain ⟨w, p, -, rfl⟩ := step_thread hstep
      rfl

/-- The end of a round. -/
theorem inRound_step (hround : s.pc.InRound) (hstep : s.step cfg eventfd a = some s') :
    s'.pc.InRound ∨ s'.pc = .top ∨ s'.pc = .test := by
  by_cases hgoes : Goes a
  · obtain ⟨now, rfl⟩ := hgoes
    unfold State.step stepLoop at hstep
    dsimp only at hstep
    split at hstep
    case h_2 next hpc =>
      cases hstep
      exact stepInvoke_pc hpc
    case h_3 next hpc =>
      cases hstep
      exact .inl trivial
    case h_4 p next hpc =>
      cases hstep
      exact .inl (stepPipecb_pc p)
    -- the others are not in a round
    all_goals
      rename_i hpc
      rw [hpc] at hround
      exact hround.elim
  · exact .inl (pc_of_rest hround.busy hstep hgoes ▸ hround)

/-- Every round of callbacks ends, when the loop goes on: no callback runs for ever. -/
theorem round_ends {k : Nat} (h₀ : Reachable cfg eventfd (run 0))
    (hrun : ∀ n, (contract cfg eventfd).step (run n) (act n) = some (run (n + 1)))
    (hgoes : ∀ n, (run n).pc.InRound → ∃ m, n ≤ m ∧ Goes (act m))
    (hround : (run k).pc.InRound) :
    ∃ n, k ≤ n ∧ (∀ m, k ≤ m → m ≤ n → (run m).pc.InRound) ∧
      ((run (n + 1)).pc = .top ∨ (run (n + 1)).pc = .test) := by
  have hinv := inv_of_run h₀ hrun
  have hfalls : (contract cfg eventfd).Falls
      (fun s : State Thread ι T => s.Inv ∧ s.pc.InRound) Goes left :=
    busy_falls.mono fun s hs => ⟨hs.1, hs.2.busy⟩
  obtain ⟨n, hk, hin, hout⟩ :=
    hfalls.exists_exit ⟨hinv k, hround⟩ hrun fun n hn => hgoes n hn.2
  refine ⟨n, hk, fun m hm hmn => (hin m hm hmn).2, ?_⟩
  have hstep := (Machine.restrict_step.mp (hrun n)).2
  exact (inRound_step (hin n hk le_rfl).2 hstep).resolve_left fun h => hout ⟨hinv (n + 1), h⟩

/-- The callback of the first timer calls `ev_break`, and both timers are called. -/
def timerLeaves : List (Action Unit Bool Nat) :=
  .call (.break .all) :: List.replicate 7 (.next 10)

/-- `ev_run` has returned. -/
def timersLeft : Sample :=
  ((machine plain true).execUnder Allowed timerCalled timerLeaves).get (by decide +kernel)

theorem timersLeft_pc : timersLeft.pc = .outside := by
  decide +kernel

/-- Reading the clock again changes nothing. -/
theorem nowUpdate_step (hcalls : s.calls = true) :
    s.step cfg eventfd (.call (.nowUpdate s.loop.mnNow)) = some s := by
  unfold State.step
  dsimp only
  rw [if_pos hcalls, show refsOf (.nowUpdate s.loop.mnNow : Call ι T) = 0 from rfl, Int.add_zero]
  rfl

/-- Afterwards the program does nothing but read the clock. -/
theorem exists_timerRun : ∃ run : Nat → Sample, ∃ act : Nat → Action Unit Bool Nat,
    run 0 = timerCalled ∧
      (∀ n, (contract plain true).step (run n) (act n) = some (run (n + 1))) ∧
      ∀ n, timerLeaves[n]? = some (act n) ∨ timerLeaves.length ≤ n ∧ run n = timersLeft := by
  have hcalls : timersLeft.calls = true := by
    decide +kernel
  have hread : timersLeft.step plain true (.call (.nowUpdate timersLeft.loop.mnNow)) =
      some timersLeft := nowUpdate_step hcalls
  have hidle : (contract plain true).step timersLeft (.call (.nowUpdate timersLeft.loop.mnNow)) =
      some timersLeft := Machine.restrict_step.mpr ⟨trivial, hread⟩
  exact Machine.exists_run (exec_contract (Option.some_get _).symm) hidle

theorem timerRun_goes {run : Nat → Sample} {act : Nat → Action Unit Bool Nat}
    (hact : ∀ n, timerLeaves[n]? = some (act n) ∨ timerLeaves.length ≤ n ∧ run n = timersLeft)
    {n : Nat} (hpc : (run n).pc ≠ .outside) : ∃ m, n ≤ m ∧ Goes (act m) := by
  rcases hact 7 with hlast | ⟨hlength, -⟩
  · have hn : n < 8 := by
      by_contra hlong
      rcases hact n with hn | ⟨-, hleft⟩
      · exact hlong (List.getElem?_eq_some_iff.mp hn).1
      · exact hpc (hleft ▸ timersLeft_pc)
    exact ⟨7, Nat.le_of_lt_succ hn, 10, (Option.some.inj hlast).symm⟩
  · exact absurd hlength (by decide)

theorem timerCalled_reachable : Reachable plain true timerCalled :=
  (timersFed_reachable.exec_restrict timerNext_exec).step
    (show timerNext.Allowed (.next 10) from trivial) timerCalled_step

theorem round_ends_timers : ∃ run : Nat → Sample, run 0 = timerCalled ∧
    ∃ n, (∀ m, m ≤ n → (run m).pc.InRound) ∧
      ((run (n + 1)).pc = .top ∨ (run (n + 1)).pc = .test) := by
  obtain ⟨run, act, hstart, hrun, hact⟩ := exists_timerRun
  have hgoes : ∀ n, (run n).pc.InRound → ∃ m, n ≤ m ∧ Goes (act m) := fun n hround =>
    timerRun_goes hact (ne_outside_of_busy hround.busy)
  have hround : (run 0).pc.InRound := by
    rw [hstart]
    exact trivial
  obtain ⟨n, -, hin, hout⟩ := round_ends (hstart ▸ timerCalled_reachable) hrun hgoes hround
  exact ⟨run, hstart, n, fun m hm => hin m (Nat.zero_le m) hm, hout⟩

/-- `ev_break` has been called, and the loop is on its way out of `ev_run`. -/
def Leaving (s : State Thread ι T) : Prop :=
  s.loop.loopDone ≠ .cancel ∧ s.pc.Busy

theorem busy_step (hbusy : s.pc.Busy) (hdone : s.loop.loopDone ≠ .cancel)
    (hstep : s.step cfg eventfd a = some s') : s'.pc.Busy ∨ s'.pc = .outside := by
  by_cases hround : s.pc.InRound
  · rcases inRound_step hround hstep with hround | hpc | hpc
    · exact .inl hround.busy
    · rw [hpc]
      exact .inl trivial
    · rw [hpc]
      exact .inl trivial
  by_cases hgoes : Goes a
  · obtain ⟨now, rfl⟩ := hgoes
    refine .inr ?_
    unfold State.step stepLoop at hstep
    dsimp only at hstep
    split at hstep
    case h_5 hpc =>
      rw [if_pos hdone] at hstep
      cases hstep
      rfl
    case h_9 hpc =>
      have hends : s.loop.goesOn s.flags = false := by
        simp [Loop.goesOn, hdone]
      rw [if_neg (Bool.eq_false_iff.mp hends)] at hstep
      cases hstep
      rfl
    -- the others are in a round, or on their way to `backend_poll` or back
    all_goals
      rename_i hpc
      rw [hpc] at hbusy hround
      exact absurd hbusy hround
  · exact .inl (pc_of_rest hbusy hstep hgoes ▸ hbusy)

theorem leaving_step (hleaving : s.Leaving) (hstep : s.step cfg eventfd a = some s')
    (hkeeps : a ≠ .call (.break .cancel)) : s'.Leaving ∨ s'.pc = .outside := by
  obtain ⟨hdone, hbusy⟩ := hleaving
  rcases busy_step hbusy hdone hstep with hbusy' | hout
  · refine .inl ⟨?_, hbusy'⟩
    rcases loopDone_step hstep with ⟨how, rfl, hhow, -⟩ | ⟨hpc, -⟩ | ⟨hsame, -⟩ | ⟨hpc, -⟩
    · rw [hhow]
      rintro rfl
      exact hkeeps rfl
    · rw [hpc] at hbusy
      exact hbusy.elim
    · exact hsame ▸ hdone
    · rw [hpc] at hbusy'
      exact hbusy'.elim
  · exact .inr hout

/-- When `ev_break` has been called, `ev_run` returns, and `backend_poll` is not called before:
when the loop goes on, and `EVBREAK_CANCEL` does not take it back. -/
theorem returns_after_break {how : LoopDone} {k : Nat} (h₀ : Reachable cfg eventfd (run 0))
    (hrun : ∀ n, (contract cfg eventfd).step (run n) (act n) = some (run (n + 1)))
    (hgoes : ∀ n, (run n).pc ≠ .outside → ∃ m, n ≤ m ∧ Goes (act m))
    (hkeeps : ∀ n, (run n).pc ≠ .outside → act n ≠ .call (.break .cancel))
    (hpc : (run k).pc ≠ .outside) (hbreak : act k = .call (.break how)) :
    ∃ n, k ≤ n ∧ (∀ m, k ≤ m → m ≤ n → (run m).polls = false) ∧ (run (n + 1)).pc = .outside := by
  have hinv := inv_of_run h₀ hrun
  have hcall : (run k).step cfg eventfd (.call (.break how)) = some (run (k + 1)) :=
    hbreak ▸ (Machine.restrict_step.mp (hrun k)).2
  obtain ⟨hcalls, hnext⟩ := step_call hcall
  have hround : (run k).pc.InRound := by
    unfold State.calls at hcalls
    split at hcalls
    · rename_i houtside
      exact absurd houtside hpc
    · rename_i hcallback
      rw [hcallback]
      exact trivial
    · cases hcalls
  have hleaving : (run (k + 1)).Leaving := by
    rw [hnext]
    refine ⟨fun hcancel => hkeeps k hpc ?_, hround.busy⟩
    rw [hbreak, show how = .cancel from hcancel]
  have hfalls : (contract cfg eventfd).Falls
      (fun s : State Thread ι T => s.Inv ∧ s.Leaving) Goes left :=
    busy_falls.mono fun s hs => ⟨hs.1, hs.2.2⟩
  obtain ⟨n, hk, hin, hout⟩ := hfalls.exists_exit ⟨hinv (k + 1), hleaving⟩ hrun
    fun n hn => hgoes n (ne_outside_of_busy hn.2.2)
  have hlast := (hin n hk le_rfl).2
  have hstep := (Machine.restrict_step.mp (hrun n)).2
  refine ⟨n, (Nat.le_succ k).trans hk, fun m hm hmn => ?_, ?_⟩
  · rcases Nat.eq_or_lt_of_le hm with rfl | hlt
    · exact polls_of_busy hround.busy
    · exact polls_of_busy (hin m hlt hmn).2.2
  · exact (leaving_step hlast hstep (hkeeps n (ne_outside_of_busy hlast.2))).resolve_left
      fun h => hout ⟨hinv (n + 1), h⟩

theorem returns_after_break_timer : ∃ run : Nat → Sample, run 0 = timerCalled ∧
    ∃ n, (∀ m, m ≤ n → (run m).polls = false) ∧ (run (n + 1)).pc = .outside := by
  obtain ⟨run, act, hstart, hrun, hact⟩ := exists_timerRun
  have hkeeps : ∀ n, (run n).pc ≠ .outside → act n ≠ .call (.break .cancel) := by
    intro n hpc hcancel
    rcases hact n with hn | ⟨-, hleft⟩
    · have hmem : .call (.break .cancel) ∈ timerLeaves := hcancel ▸ List.mem_of_getElem? hn
      exact absurd hmem (by decide)
    · exact hpc (hleft ▸ timersLeft_pc)
  have hpc : (run 0).pc ≠ .outside := by
    rw [hstart]
    decide +kernel
  have hbreak : act 0 = .call (.break .all) := by
    rcases hact 0 with hfirst | ⟨hlength, -⟩
    · exact (Option.some.inj hfirst).symm
    · exact absurd hlength (by decide)
  obtain ⟨n, -, hpolls, hout⟩ := returns_after_break (hstart ▸ timerCalled_reachable) hrun
    (fun n => timerRun_goes hact) hkeeps hpc hbreak
  exact ⟨run, hstart, n, fun m hm => hpolls m (Nat.zero_le m) hm, hout⟩

end State
end Ev
end Cyan

import Cyan.Base.History
import Cyan.Base.InFront
import Cyan.Ev.RunOk

/-!
# What a run does to the queue

`QueueStep` says what a step of the machine does to whoever is pending: it stays
pending with all its events, or its callback begins, or the program takes it off
the queue.  `Rises` says who becomes pending, and `Retires` who is so without being
active.
-/

namespace Cyan
namespace Ev

open Base

variable {Thread ι T : Type*} [DecidableEq Thread] [DecidableEq ι]
variable [LinearOrder T] [Add T] [Sub T] [Zero T]

/-- The machine, which keeps to the contract. -/
noncomputable def contract (cfg : Config T) (eventfd : Bool) :
    Machine (State Thread ι T) (Action Thread ι T) :=
  (machine cfg eventfd).restrict State.Allowed

/-- A checked run keeps to the contract. -/
theorem exec_contract [Fintype ι] {cfg : Config T} {eventfd : Bool} {s s' : State Thread ι T}
    {as : List (Action Thread ι T)}
    (h : (machine cfg eventfd).execUnder State.Allowed s as = some s') :
    (contract cfg eventfd).exec s as = some s' :=
  Machine.exec_restrict_of_execUnder (fun _ _ hallowed => hallowed) h

namespace State

variable {s s' : State Thread ι T} {cfg : Config T} {eventfd : Bool} {a : Action Thread ι T}
variable {x v : Watcher ι} {events : UInt32} {w : ι} {now : T}

/-- The callback of `x` begins with `events`. -/
def Begins (s : State Thread ι T) (x : Watcher ι) (events : UInt32) : Prop :=
  (∃ next, s.pc = .callback x events next) ∨
    x = .io none ∧ ∃ next, s.pc = .pipecb (.read events) next

/-- The action takes `x` off the queue. -/
def Stops (s : State Thread ι T) (x : Watcher ι) : Action Thread ι T → Prop
  | .call c => c.Stops x
  | .kill fd => ∃ u ∈ (s.loop.fds.anfds fd).head, x = .io u
  | _ => False

/-- Who becomes pending behind `backend_poll`. -/
def Due (s : State Thread ι T) (now : T) : Watcher ι → Prop
  | .timer w => ∃ d, s.loop.timers.deadline w = some d ∧ d < now
  | .io u => u = none ∧ s.loop.pipeWriteSkipped = true
  | .idle w => s.loop.idleActive w ≠ 0
  | .async _ => False

/-- The step behind `backend_poll`. -/
theorem polled_next (hpc : s.pc = .polled) (hstep : s.step cfg eventfd (.next now) = some s') :
    s' = s.enter (s.loop.polled now) .test := by
  unfold State.step stepLoop at hstep
  simp only [hpc] at hstep
  exact (Option.some.inj hstep).symm

section

omit [DecidableEq Thread]

/-- `timers_reify` behind `backend_poll`. -/
theorem Inv.timersReified (h : s.Inv) (hpc : s.pc = .polled) (now : T) :
    ∃ fired, Loop.TimersReified (s.loop.woken now) (s.loop.woken now).timersReify fired := by
  have hstage := h.stage
  unfold Stage at hstage
  rw [hpc] at hstage
  have hwoken := h.ok.woken now fun hskipped => h.pipe (.inl hskipped)
  have hfed := Loop.woken_fed h.ok.manned.sound now
  refine Loop.timersReify_fired hwoken.timers hwoken.manned.sound (fun w => ?_)
    (Loop.woken_rfeeds h.rfeeds now)
  by_contra hpending
  rcases hfed.pending _ hpending with ⟨hpipe, -⟩ | hold
  · cases hpipe
  · obtain ⟨u, hu⟩ := hstage.1 _ hold
    cases hu

/-- Who is fed behind `backend_poll`. -/
theorem Inv.polled_fed (h : s.Inv) (hpc : s.pc = .polled) (now : T) :
    Queue.Fuller (s.Due now) s.loop.queue (s.loop.polled now).queue := by
  have hwoken := h.ok.woken now fun hskipped => h.pipe (.inl hskipped)
  obtain ⟨fired, hfired⟩ := h.timersReified hpc now
  obtain ⟨htimers, hnow, hidles⟩ := Loop.woken_timers s.loop now
  have hpipe := Loop.woken_fed h.ok.manned.sound now
  have hok := hwoken.timersReify (Loop.woken_rfeeds h.rfeeds now)
  have hsame := Loop.timersReify_same (s.loop.woken now)
  have hidle : ∀ w, (s.loop.woken now).timersReify.idleActive w = s.loop.idleActive w := by
    intro w
    have hpriority := hfired.fed.priority.trans hpipe.priority
    have harrays : (s.loop.woken now).timersReify.idles = s.loop.idles :=
      ((congrArg Loop.idles hsame).trans rfl).trans hidles
    rw [Loop.idleActive, Loop.idleActive, harrays, Queue.abspri, Queue.abspri, hpriority]
  refine (hpipe.mono fun x hx => ?_).trans
    ((hfired.fed.mono fun x hx => ?_).trans (hok.idleReify_fed.mono fun x hx => ?_))
  · obtain ⟨rfl, hskipped⟩ := hx
    exact ⟨rfl, hskipped⟩
  · obtain ⟨w, hw, rfl⟩ := hx
    have hdue := (hfired.mem w).mp hw
    rwa [htimers, hnow] at hdue
  · obtain ⟨w, rfl, hactive⟩ := hx
    rwa [hidle] at hactive

end

/-- What a step does to the queue. -/
structure QueueStep (s : State Thread ι T) (a : Action Thread ι T) (s' : State Thread ι T) :
    Prop where
  /-- whoever is pending stays pending, or its callback begins, or it is stopped -/
  kept : ∀ pri x events, (x, events) ∈ s.loop.queue.agenda pri →
    (∃ events', (x, events') ∈ s'.loop.queue.agenda pri ∧ events' &&& events = events) ∨
      (s'.Begins x events ∨ s.Stops x a) ∧ (¬Loop.IsIo x → s'.loop.queue.pending x = 0)
  /-- and nobody gets in front of anybody, while `backend_poll` does not run -/
  order : ∀ pri x v, ¬Loop.IsIo x → InFront ((s.loop.queue.agenda pri).map Prod.fst) x v →
    x ∈ (s'.loop.queue.agenda pri).map Prod.fst → v ∈ (s'.loop.queue.agenda pri).map Prod.fst →
    InFront ((s'.loop.queue.agenda pri).map Prod.fst) x v

section

omit [DecidableEq Thread] [DecidableEq ι] [LinearOrder T] [Add T] [Sub T] [Zero T]

theorem QueueStep.of_same (h : s'.loop.queue.agenda = s.loop.queue.agenda) :
    QueueStep s a s' where
  kept _ _ events he := .inl ⟨events, h ▸ he, UInt32.and_self⟩
  order _ _ _ _ hfront _ _ := by
    rwa [h]

theorem QueueStep.of_quieter {P : Watcher ι → Prop} (hsound : s.loop.queue.Sound)
    (h : Queue.Quieter P s.loop.queue s'.loop.queue) (hstops : ∀ x, P x → s.Stops x a) :
    QueueStep s a s' where
  kept pri x events he :=
    (h.kept pri (x, events) he).imp (fun he' => ⟨events, he', UInt32.and_self⟩)
      fun hx => ⟨.inr (hstops x hx.1), fun _ => hx.2⟩
  order pri _ _ _ hfront hx hv :=
    hfront.stay (hsound.agenda_nodup pri) ((h.agenda pri).map Prod.fst) hx hv

theorem QueueStep.of_fuller {P : Watcher ι → Prop}
    (h : Queue.Fuller P s.loop.queue s'.loop.queue) : QueueStep s a s' where
  kept pri x events he := .inl (h.kept pri x events he)
  order pri _ _ _ hfront _ _ := hfront.of_sublist (h.agenda pri).sublist

end

omit [DecidableEq Thread] [DecidableEq ι] [Add T] [Sub T] [Zero T] in
/-- `backend_poll` runs, so only `ev_io` watchers are pending. -/
theorem Inv.isIo_of_polls (h : s.Inv) (hpolls : s.polls = true) {pri : Nat}
    (hx : x ∈ (s.loop.queue.agenda pri).map Prod.fst) : Loop.IsIo x := by
  have hstage := h.stage
  unfold State.polls at hpolls
  split at hpolls
  · rename_i hpc
    unfold Stage at hstage
    rw [hpc] at hstage
    exact hstage.1 x (h.ok.manned.sound.pending_of_mem hx)
  · cases hpolls

section

omit [DecidableEq Thread] [Add T] [Sub T] [Zero T]

/-- A step of `ev_invoke_pending` takes the last watcher of the agenda. -/
theorem Inv.invoke_queue {next : Next} (h : s.Inv) :
    QueueStep s (.next now) (s.stepInvoke next) := by
  unfold stepInvoke
  dsimp only
  split
  · rename_i p q htake
    have hagenda := Queue.agenda_takePending htake
    have hgone := (Queue.takePending_pending htake).2.2
    have hsub : ∀ pri, ((q.agenda pri).map Prod.fst).Sublist
        ((s.loop.queue.agenda pri).map Prod.fst) := fun pri => by
      rw [hagenda]
      exact (List.sublist_append_left ..).map Prod.fst
    have hkept : ∀ pri x events, (x, events) ∈ s.loop.queue.agenda pri →
        (x, events) ∈ q.agenda pri ∨ p = ⟨some x, events⟩ := by
      intro pri x events he
      rw [hagenda] at he
      refine (List.mem_append.mp he).imp id fun hlast => ?_
      split at hlast
      · exact (List.mem_singleton.mp (mem_view.mp hlast)).symm
      · cases hlast
    have horder : ∀ pri x v, InFront ((s.loop.queue.agenda pri).map Prod.fst) x v →
        x ∈ (q.agenda pri).map Prod.fst → v ∈ (q.agenda pri).map Prod.fst →
        InFront ((q.agenda pri).map Prod.fst) x v := fun pri x v hfront hx hv =>
      hfront.stay (h.ok.manned.sound.agenda_nodup pri) (hsub pri) hx hv
    split
    · rename_i hp
      refine ⟨fun pri x events he => .inl ?_, fun pri x v _ => horder pri x v⟩
      rcases hkept pri x events he with he | rfl
      · exact ⟨events, he, UInt32.and_self⟩
      · cases hp
    · rename_i hp
      refine ⟨fun pri x events he => ?_, fun pri x v _ => horder pri x v⟩
      rcases hkept pri x events he with he | rfl
      · exact .inl ⟨events, he, UInt32.and_self⟩
      · cases hp
        exact .inr ⟨.inl (.inr ⟨rfl, next, rfl⟩), fun _ => hgone _ rfl⟩
    · rename_i y hy hp
      refine ⟨fun pri x events he => ?_, fun pri x v _ => horder pri x v⟩
      rcases hkept pri x events he with he | rfl
      · exact .inl ⟨events, he, UInt32.and_self⟩
      · cases hp
        exact .inr ⟨.inl (.inl ⟨next, rfl⟩), fun _ => hgone _ rfl⟩
  · split
    · exact .of_same rfl
    · exact .of_same rfl

theorem Inv.pipecb_queue {p : PipePc ι} {next : Next} (h : s.Inv) :
    QueueStep s (.next now) (s.stepPipecb eventfd next p) := by
  cases p with
  | read revents => exact .of_same rfl
  | skipped => exact .of_same rfl
  | pending => exact .of_same rfl
  | clear => exact .of_same rfl
  | scan ws =>
      cases ws with
      | nil => exact .of_same rfl
      | cons w ws => exact .of_fuller (Loop.pipecbStep_fed h.ok.manned.sound w)

end

omit [DecidableEq Thread] in
theorem Inv.loop_queue (h : s.Inv) (hstep : s.stepLoop cfg eventfd now = some s') :
    QueueStep s (.next now) s' := by
  unfold stepLoop at hstep
  split at hstep
  case h_1 => cases hstep
  case h_2 next hpc =>
    cases hstep
    exact h.invoke_queue
  case h_3 next hpc =>
    cases hstep
    exact .of_same rfl
  case h_4 p next hpc =>
    cases hstep
    exact h.pipecb_queue
  case h_5 hpc =>
    split at hstep <;> cases hstep <;> exact .of_same rfl
  case h_6 prev hpc =>
    cases hstep
    exact .of_same rfl
  case h_7 wait hpc =>
    cases hstep
    exact .of_same rfl
  case h_8 hpc =>
    cases hstep
    have hfed := h.polled_fed hpc now
    exact ⟨fun pri x events he => .inl (hfed.kept pri x events he),
      fun pri _ _ _ hfront _ _ => hfront.of_sublist (hfed.agenda pri).sublist⟩
  case h_9 hpc =>
    split at hstep <;> cases hstep <;> exact .of_same rfl

theorem Inv.queueStep (h : s.Inv) (ha : s.Allowed a)
    (hstep : s.step cfg eventfd a = some s') : QueueStep s a s' := by
  cases a with
  | call c =>
      obtain ⟨-, rfl⟩ := step_call hstep
      exact .of_quieter h.ok.manned.sound (h.ok.call ha).2.queue fun _ hx => hx
  | run flags =>
      obtain ⟨-, rfl⟩ := step_run hstep
      exact .of_same rfl
  | next now => exact h.loop_queue hstep
  | event fd revents =>
      obtain ⟨-, rfl⟩ := step_event hstep
      exact .of_fuller (Loop.fdEvent_fed h.ok.manned.sound fd revents)
  | kill fd =>
      obtain ⟨hpolls, rfl⟩ := step_kill hstep
      have hkilled := (h.ok.kill ha).2.1
      refine ⟨fun pri x events he => ?_, fun _ x v hx hfront _ _ => ?_⟩
      · exact (hkilled.kept pri x events he).imp id fun ⟨u, hu, hx⟩ =>
          ⟨.inr ⟨u, hu, hx⟩, fun hio => absurd ⟨u, hx⟩ hio⟩
      · exact absurd (h.isIo_of_polls hpolls hfront.mem_left) hx
  | send t w =>
      obtain ⟨-, rfl⟩ := step_send hstep
      exact .of_same rfl
  | thread t =>
      obtain ⟨w, p, -, rfl⟩ := step_thread hstep
      cases p <;> exact .of_same rfl

/-- Who becomes pending, and when. -/
inductive Rises (s : State Thread ι T) : Action Thread ι T → Watcher ι → Prop
  | timer {now d : T} {w : ι} (hpc : s.pc = .polled) (hd : s.loop.timers.deadline w = some d)
      (hlt : d < now) : Rises s (.next now) (.timer w)
  | idle {now : T} {w : ι} (hpc : s.pc = .polled) (hw : s.loop.idleActive w ≠ 0) :
      Rises s (.next now) (.idle w)
  | async {now : T} {w : ι} {ws : List ι} {next : Next}
      (hpc : s.pc = .pipecb (.scan (w :: ws)) next) (hsent : s.loop.sent w = true) :
      Rises s (.next now) (.async w)
  | pipe {now : T} (hpc : s.pc = .polled) (hskipped : s.loop.pipeWriteSkipped = true) :
      Rises s (.next now) (.io none)
  | event {fd : Nat} {revents : UInt32} {u : Option ι} (hpolls : s.polls = true)
      (hwaits : s.loop.Waits fd revents (.io u)) : Rises s (.event fd revents) (.io u)
  | kill {fd : Nat} {u : Option ι} (hpolls : s.polls = true)
      (hu : u ∈ (s.loop.fds.anfds fd).head) : Rises s (.kill fd) (.io u)

omit [DecidableEq Thread] [LinearOrder T] [Add T] [Sub T] [Zero T] in
theorem Inv.rises_invoke {next : Next} (hx : s.loop.queue.pending x = 0) :
    (s.stepInvoke next).loop.queue.pending x = 0 := by
  unfold stepInvoke
  dsimp only
  split
  · rename_i p q htake
    have hq : q.pending x = 0 := by
      by_contra hne
      exact (Queue.takePending_pending htake).2.1 x hne hx
    split <;> exact hq
  · split <;> exact hx

omit [DecidableEq Thread] in
theorem Inv.rises_loop (h : s.Inv) (hstep : s.stepLoop cfg eventfd now = some s')
    (hx : s.loop.queue.pending x = 0) (hx' : s'.loop.queue.pending x ≠ 0) :
    s.Rises (.next now) x := by
  unfold stepLoop at hstep
  split at hstep
  case h_1 => cases hstep
  case h_2 next hpc =>
    cases hstep
    exact absurd (Inv.rises_invoke hx) hx'
  case h_3 next hpc =>
    cases hstep
    exact absurd hx hx'
  case h_4 p next hpc =>
    cases hstep
    cases p with
    | read revents => exact absurd hx hx'
    | skipped => exact absurd hx hx'
    | pending => exact absurd hx hx'
    | clear => exact absurd hx hx'
    | scan ws =>
        cases ws with
        | nil => exact absurd hx hx'
        | cons w ws =>
            rcases (Loop.pipecbStep_fed h.ok.manned.sound w).pending x hx' with ⟨rfl, hsent⟩ | hold
            · exact .async hpc hsent
            · exact absurd hx hold
  case h_5 hpc => split at hstep <;> cases hstep <;> exact absurd hx hx'
  case h_6 prev hpc =>
    cases hstep
    exact absurd hx hx'
  case h_7 wait hpc =>
    cases hstep
    exact absurd hx hx'
  case h_8 hpc =>
    cases hstep
    rcases (h.polled_fed hpc now).pending x hx' with hdue | hold
    · cases x with
      | timer w =>
          obtain ⟨d, hd, hlt⟩ := hdue
          exact .timer hpc hd hlt
      | io u =>
          obtain ⟨rfl, hskipped⟩ := hdue
          exact .pipe hpc hskipped
      | idle w => exact .idle hpc hdue
      | async w => exact hdue.elim
    · exact absurd hx hold
  case h_9 hpc => split at hstep <;> cases hstep <;> exact absurd hx hx'

/-- Nobody else becomes pending. -/
theorem Inv.rises (h : s.Inv) (ha : s.Allowed a) (hstep : s.step cfg eventfd a = some s')
    (hx : s.loop.queue.pending x = 0) (hx' : s'.loop.queue.pending x ≠ 0) : s.Rises a x := by
  cases a with
  | call c =>
      obtain ⟨-, rfl⟩ := step_call hstep
      exact absurd hx ((h.ok.call ha).2.queue.pending x hx')
  | run flags =>
      obtain ⟨-, rfl⟩ := step_run hstep
      exact absurd hx hx'
  | next now => exact h.rises_loop hstep hx hx'
  | event fd revents =>
      obtain ⟨hpolls, rfl⟩ := step_event hstep
      rcases (Loop.fdEvent_fed h.ok.manned.sound fd revents).pending x hx' with hwaits | hold
      · obtain ⟨-, u, -, rfl, -⟩ := id hwaits
        exact .event hpolls hwaits
      · exact absurd hx hold
  | kill fd =>
      obtain ⟨hpolls, rfl⟩ := step_kill hstep
      rcases (h.ok.kill ha).2.1.pending x hx' with ⟨u, hu, rfl⟩ | hold
      · exact .kill hpolls hu
      · exact absurd hx hold
  | send t w =>
      obtain ⟨-, rfl⟩ := step_send hstep
      exact absurd hx hx'
  | thread t =>
      obtain ⟨w, p, -, rfl⟩ := step_thread hstep
      cases p <;> exact absurd hx hx'

/-! ## Who is pending without being active -/

/-- A watcher becomes inactive and stays pending: a timer expires that does not repeat, or the
descriptor of an io watcher is killed. -/
inductive Retires (s : State Thread ι T) : Action Thread ι T → Watcher ι → Prop
  | timer {now d : T} {w : ι} (hpc : s.pc = .polled) (hd : s.loop.timers.deadline w = some d)
      (hlt : d < now) (hrepeat : s.loop.timers.evRepeat w = 0) : Retires s (.next now) (.timer w)
  | kill {fd : Nat} {u : Option ι} (hpolls : s.polls = true)
      (hu : u ∈ (s.loop.fds.anfds fd).head) : Retires s (.kill fd) (.io u)

omit [DecidableEq Thread] [DecidableEq ι] [Add T] [Sub T] [Zero T] in
/-- A timer or an io watcher that becomes pending is active. -/
theorem Inv.active_of_rises (h : s.Inv) (hrises : s.Rises a x)
    (hx : (∃ w, x = .timer w) ∨ Loop.IsIo x) : s.loop.active x ≠ 0 := by
  cases hrises with
  | timer _ hd _ => exact Timers.active_of_deadline hd
  | pipe _ hskipped => exact h.pipe (.inl hskipped)
  | event _ hwaits =>
      obtain ⟨-, u, hu, heq, -⟩ := hwaits
      cases heq
      exact h.ok.active_of_head hu
  | kill _ hu => exact h.ok.active_of_head hu
  | idle _ _ => rcases hx with ⟨w, hx⟩ | ⟨u, hx⟩ <;> cases hx
  | async _ _ => rcases hx with ⟨w, hx⟩ | ⟨u, hx⟩ <;> cases hx

section

omit [DecidableEq Thread]

/-- The loop writes the timers behind `backend_poll` alone, and no watcher of a descriptor starts
or stops. -/
theorem stepLoop_parts (hstep : s.stepLoop cfg eventfd now = some s') :
    s'.loop.fds.active = s.loop.fds.active ∧
      (s.pc ≠ .polled → s'.loop.timers = s.loop.timers) := by
  unfold stepLoop at hstep
  split at hstep
  case h_1 => cases hstep
  case h_2 next hpc =>
    cases hstep
    unfold stepInvoke
    dsimp only
    split
    · split <;> exact ⟨rfl, fun _ => rfl⟩
    · split <;> exact ⟨rfl, fun _ => rfl⟩
  case h_3 next hpc =>
    cases hstep
    exact ⟨rfl, fun _ => rfl⟩
  case h_4 p next hpc =>
    cases hstep
    cases p with
    | scan ws =>
        cases ws with
        | nil => exact ⟨rfl, fun _ => rfl⟩
        | cons w ws =>
            have hsame : (s.loop.pipecbStep w).fds = s.loop.fds ∧
                (s.loop.pipecbStep w).timers = s.loop.timers := by
              unfold Loop.pipecbStep
              split <;> exact ⟨rfl, rfl⟩
            exact ⟨congrArg Fds.active hsame.1, fun _ => hsame.2⟩
    | _ => exact ⟨rfl, fun _ => rfl⟩
  case h_5 hpc =>
    split at hstep <;> cases hstep
    · exact ⟨rfl, fun _ => rfl⟩
    · exact ⟨Fds.reify_active _, fun _ => rfl⟩
  case h_6 prev hpc =>
    cases hstep
    exact ⟨rfl, fun _ => rfl⟩
  case h_7 wait hpc =>
    cases hstep
    exact ⟨rfl, fun _ => rfl⟩
  case h_8 hpc =>
    cases hstep
    exact ⟨congrArg Fds.active (Loop.polled_same s.loop now).fds, fun hne => absurd hpc hne⟩
  case h_9 hpc => split at hstep <;> cases hstep <;> exact ⟨rfl, fun _ => rfl⟩

/-- A timer that stops behind `backend_poll` has expired and does not repeat. -/
theorem Inv.timer_polled (h : s.Inv) (hpc : s.pc = .polled) (hw : s.loop.timers.active w ≠ 0)
    (hout : (s.loop.polled now).timers.active w = 0) : s.Retires (.next now) (.timer w) := by
  obtain ⟨fired, hfired⟩ := h.timersReified hpc now
  obtain ⟨htimers, hmnNow, -⟩ := Loop.woken_timers s.loop now
  rw [Loop.polled_eq, Loop.idleReify_timers] at hout
  have hnone := Timers.deadline_eq_none_iff.mpr hout
  by_cases hmem : w ∈ fired
  · obtain ⟨d, hd, hlt⟩ := (hfired.mem w).mp hmem
    rw [hfired.renewed w hmem, hd, Option.bind_some, Timers.renewed] at hnone
    rw [htimers] at hd hnone
    rw [hmnNow] at hlt
    refine .timer hpc hd hlt ?_
    by_contra hrepeat
    rw [if_pos hrepeat] at hnone
    cases hnone
  · rw [hfired.rest w hmem, htimers] at hnone
    exact absurd (Timers.deadline_eq_none_iff.mp hnone) hw

end

/-- A timer stays active while it is pending, but for its expiry. -/
theorem Inv.timer_stays (h : s.Inv) (ha : s.Allowed a) (hstep : s.step cfg eventfd a = some s')
    (hw : s.loop.timers.active w ≠ 0) (hpending : s'.loop.queue.pending (.timer w) ≠ 0)
    (hout : s'.loop.timers.active w = 0) : s.Retires a (.timer w) := by
  cases a with
  | call c =>
      obtain ⟨-, rfl⟩ := step_call hstep
      rcases Loop.timer_of_call (c := c) h.ok.timers hw with hactive | hstops
      · exact absurd hout hactive
      · exact absurd (Loop.pending_of_stops hstops) hpending
  | run flags =>
      obtain ⟨-, rfl⟩ := step_run hstep
      exact absurd hout hw
  | next now =>
      by_cases hpc : s.pc = .polled
      · obtain rfl := polled_next hpc hstep
        exact h.timer_polled hpc hw hout
      · rw [(stepLoop_parts hstep).2 hpc] at hout
        exact absurd hout hw
  | event fd revents =>
      obtain ⟨-, rfl⟩ := step_event hstep
      have hsame : (s.loop.fdEvent fd revents).timers = s.loop.timers := by
        unfold Loop.fdEvent
        split <;> rfl
      exact absurd (hsame ▸ hout) hw
  | kill fd =>
      obtain ⟨-, rfl⟩ := step_kill hstep
      have hsame : (s.loop.kill fd).timers = s.loop.timers :=
        (congrArg Loop.timers (h.ok.kill ha).2.1.rest).trans rfl
      exact absurd (hsame ▸ hout) hw
  | send t v =>
      obtain ⟨-, rfl⟩ := step_send hstep
      exact absurd hout hw
  | thread t =>
      obtain ⟨v, p, -, rfl⟩ := step_thread hstep
      cases p <;> exact absurd hout hw

/-- An io watcher stays active while it is pending, but for `fd_kill`. -/
theorem Inv.io_stays {u : Option ι} (h : s.Inv) (ha : s.Allowed a)
    (hstep : s.step cfg eventfd a = some s') (hu : s.loop.fds.active u ≠ 0)
    (hpending : s'.loop.queue.pending (.io u) ≠ 0) (hout : s'.loop.fds.active u = 0) :
    s.Retires a (.io u) := by
  cases a with
  | call c =>
      obtain ⟨-, rfl⟩ := step_call hstep
      rcases Loop.io_of_call (c := c) hu with hactive | hstops
      · exact absurd hout hactive
      · exact absurd (Loop.pending_of_stops hstops) hpending
  | run flags =>
      obtain ⟨-, rfl⟩ := step_run hstep
      exact absurd hout hu
  | next now =>
      rw [(stepLoop_parts hstep).1] at hout
      exact absurd hout hu
  | event fd revents =>
      obtain ⟨-, rfl⟩ := step_event hstep
      change (s.loop.fdEvent fd revents).fds.active u = 0 at hout
      rw [(Loop.fdEvent_same s.loop fd revents).fds] at hout
      exact absurd hout hu
  | kill fd =>
      obtain ⟨hpolls, rfl⟩ := step_kill hstep
      change (s.loop.kill fd).fds.active u = 0 at hout
      rw [(h.ok.kill ha).2.2.2] at hout
      split at hout
      · exact .kill hpolls ‹_›
      · exact absurd hout hu
  | send t v =>
      obtain ⟨-, rfl⟩ := step_send hstep
      exact absurd hout hu
  | thread t =>
      obtain ⟨v, p, -, rfl⟩ := step_thread hstep
      cases p <;> exact absurd hout hu

/-- Whoever comes to be pending without being active has retired in that step. -/
theorem Inv.retires (h : s.Inv) (ha : s.Allowed a) (hstep : s.step cfg eventfd a = some s')
    (hbefore : s.loop.queue.pending x = 0 ∨ s.loop.active x ≠ 0)
    (hpending : s'.loop.queue.pending x ≠ 0) (hout : s'.loop.active x = 0) : s.Retires a x := by
  have hkind : (∃ w, x = .timer w) ∨ Loop.IsIo x → s.loop.active x ≠ 0 := fun hx =>
    hbefore.elim (fun hnone => h.active_of_rises (h.rises ha hstep hnone hpending) hx) id
  cases x with
  | timer w => exact h.timer_stays ha hstep (hkind (.inl ⟨w, rfl⟩)) hpending hout
  | io u => exact h.io_stays ha hstep (hkind (.inr ⟨u, rfl⟩)) hpending hout
  | idle w =>
      obtain ⟨⟨_, events⟩, he, rfl⟩ := List.mem_map.mp
        ((h.step ha hstep).ok.manned.sound.pending_iff.mp hpending)
      exact (((h.step ha hstep).ok.manned.live _ _ _ he).resolve_left (not_not.mpr hout)).elim
  | async w =>
      obtain ⟨⟨_, events⟩, he, rfl⟩ := List.mem_map.mp
        ((h.step ha hstep).ok.manned.sound.pending_iff.mp hpending)
      exact (((h.step ha hstep).ok.manned.live _ _ _ he).resolve_left (not_not.mpr hout)).elim

end State
end Ev
end Cyan

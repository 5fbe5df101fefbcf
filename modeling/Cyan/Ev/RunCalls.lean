import Cyan.Ev.RunQueue

/-!
# Whose callback begins

What a program can rely on when one of its callbacks runs, over all runs that keep
to the contract.

* `called_active`: the watcher is active, but for timers that do not repeat and for
  errors of a descriptor, and it has not been stopped.
* `called_first`: nobody with a higher priority waits.
* `timer_not_early`: a timer has expired, and has been pending ever since.
* `timers_in_order`: timers of one priority are called in the order of their
  deadlines.
* `called_or_stopped`: a round of callbacks forgets nobody, and no event.
* `idle_alone`: idle watchers come when nobody else of their priority does.
-/

namespace Cyan
namespace Ev

open Base

variable {Thread ι T : Type*} [DecidableEq Thread] [DecidableEq ι]
variable [LinearOrder T] [Add T] [Sub T] [Zero T]

namespace State

variable {s s' s₀ : State Thread ι T} {cfg : Config T} {eventfd : Bool}
variable {as : List (Action Thread ι T)} {x v : Watcher ι} {events : UInt32} {w : ι} {now : T}
variable {a : Action Thread ι T} {next : Next}

/-- A loop that has come to a place of `ev_run`. -/
abbrev Sample := State Unit Bool Nat

/-- Nothing is put together, and the backend waits for one unit of time at least. -/
def plain : Config Nat := ⟨0, 0, 1, 60⟩

/-- Two timers are started, and `ev_run` comes to where they have expired. -/
def bootTimers : List (Action Unit Bool Nat) :=
  [.call .ref, .call (.timerSet false 5 0), .call (.timerStart false),
    .call (.timerSet true 3 0), .call (.timerStart true), .run ⟨false, false⟩] ++
  List.replicate 8 (.next 0)

/-- `backend_poll` has returned. -/
def timersPolled : Sample :=
  ((machine plain true).execUnder Allowed (.init false 0) bootTimers).get (by decide +kernel)

theorem timersPolled_reachable : Reachable plain true timersPolled :=
  .of_execUnder ⟨false, 0, rfl⟩ (Option.some_get _).symm

/-- The timers are pending. -/
def timersFed : Sample :=
  (timersPolled.step plain true (.next 10)).get (by decide +kernel)

theorem timersFed_step : timersPolled.step plain true (.next 10) = some timersFed :=
  (Option.some_get _).symm

theorem timersFed_reachable : Reachable plain true timersFed :=
  .step timersPolled_reachable (show timersPolled.Allowed (.next 10) from trivial) timersFed_step

/-- The first timer is to be called. -/
def timerNext : Sample :=
  ((machine plain true).execUnder Allowed timersFed (List.replicate 2 (.next 10))).get
    (by decide +kernel)

theorem timerNext_exec :
    (contract plain true).exec timersFed (List.replicate 2 (.next 10)) = some timerNext :=
  exec_contract (Option.some_get _).symm

theorem timerNext_reachable : Reachable plain true timerNext :=
  timersFed_reachable.exec_restrict timerNext_exec

theorem timerNext_pc : timerNext.pc = .invoke .test := by
  decide +kernel

/-- Its callback begins. -/
def timerCalled : Sample :=
  (timerNext.step plain true (.next 10)).get (by decide +kernel)

theorem timerCalled_step : timerNext.step plain true (.next 10) = some timerCalled :=
  (Option.some_get _).symm

theorem timerCalled_begins : timerCalled.Begins (.timer true) evTimer :=
  .inl ⟨.test, by decide +kernel⟩

/-- The watcher whose callback begins has been next on the queue. -/
theorem begins_inv (hpc : s.pc = .invoke next) (hstep : s.step cfg eventfd (.next now) = some s')
    (hbegins : s'.Begins x events) :
    ∃ q, s.loop.queue.takePending s.loop.queue.pendingpri = some (⟨some x, events⟩, q) ∧
      s'.loop = { s.loop with queue := q } := by
  have hs' : s' = s.stepInvoke next := by
    unfold State.step stepLoop at hstep
    simp only [hpc] at hstep
    exact (Option.some.inj hstep).symm
  subst hs'
  unfold stepInvoke at hbegins ⊢
  dsimp only at hbegins ⊢
  split at hbegins
  · rename_i p q htake
    obtain ⟨y, events'⟩ := p
    split at hbegins
    · rcases hbegins with ⟨_, hpc'⟩ | ⟨-, _, hpc'⟩
      · cases hpc.symm.trans hpc'
      · cases hpc.symm.trans hpc'
    · rename_i hy
      cases hy
      rcases hbegins with ⟨_, hpc'⟩ | ⟨rfl, _, hpc'⟩
      · cases hpc'
      · cases hpc'
        exact ⟨q, htake, rfl⟩
    · rename_i z hz hy
      cases hy
      rcases hbegins with ⟨_, hpc'⟩ | ⟨-, _, hpc'⟩
      · cases hpc'
        exact ⟨q, htake, rfl⟩
      · cases hpc'
  · split at hbegins
    · rcases hbegins with ⟨_, hpc'⟩ | ⟨-, _, hpc'⟩
      · cases next <;> cases hpc'
      · cases next <;> cases hpc'
    · rcases hbegins with ⟨_, hpc'⟩ | ⟨-, _, hpc'⟩
      · cases hpc.symm.trans hpc'
      · cases hpc.symm.trans hpc'

/-- A watcher is active when its callback begins, unless it is a timer that expired without
repeating, or its descriptor was killed, and it has not been active since. -/
theorem called_active (h₀ : Reachable cfg eventfd s₀)
    (hfirst : s₀.loop.queue.pending x = 0 ∨ s₀.loop.active x ≠ 0)
    (hrun : (contract cfg eventfd).exec s₀ as = some s) (hpc : s.pc = .invoke next)
    (hstep : s.step cfg eventfd (.next now) = some s') (hbegins : s'.Begins x events) :
    s.loop.active x ≠ 0 ∨
      ∃ s₁ a s₂ after, (contract cfg eventfd).Moment s₀ as s₁ a s₂ after ∧ s₁.Retires a x ∧
        (contract cfg eventfd).Throughout
          (fun u => u.loop.queue.pending x ≠ 0 ∧ u.loop.active x = 0) s₂ after := by
  have hs : Reachable cfg eventfd s := h₀.exec_restrict hrun
  obtain ⟨q, htake, -⟩ := begins_inv hpc hstep hbegins
  have hpending : s.loop.queue.pending x ≠ 0 :=
    (Inv.of_reachable hs).ok.manned.sound.pending_of_mem
      (List.mem_map_of_mem (Queue.mem_agenda_of_takePending htake))
  refine or_iff_not_imp_left.mpr fun hout => ?_
  obtain ⟨s₁, a, s₂, after, hmoment, hnot, hsince⟩ := Machine.exists_moment
    (P := fun u => u.loop.queue.pending x ≠ 0 ∧ u.loop.active x = 0)
    (fun hboth => hfirst.elim hboth.1 fun hactive => hactive hboth.2) hrun
    ⟨hpending, not_not.mp hout⟩
  obtain ⟨⟨before, -, hbefore⟩, hmove⟩ := id hmoment
  obtain ⟨hallowed, hmove⟩ := Machine.restrict_step.mp hmove
  have hs₁ : Reachable cfg eventfd s₁ := h₀.exec_restrict hbefore
  have hstill : s₁.loop.queue.pending x = 0 ∨ s₁.loop.active x ≠ 0 := by
    rw [not_and_or, not_not] at hnot
    exact hnot
  exact ⟨s₁, a, s₂, after, hmoment,
    (Inv.of_reachable hs₁).retires hallowed hmove hstill hsince.first.1 hsince.first.2, hsince⟩

/-- A timer that repeats is started, and `backend_poll` has returned. -/
def repeatPolled : Sample :=
  ((machine plain true).execUnder Allowed (.init false 0)
    ([.call (.timerSet true 3 4), .call (.timerStart true), .run ⟨false, false⟩] ++
      List.replicate 8 (.next 0))).get (by decide +kernel)

/-- It has expired, and is to be called. -/
def repeatNext : Sample :=
  ((machine plain true).execUnder Allowed repeatPolled (List.replicate 3 (.next 10))).get
    (by decide +kernel)

/-- Its callback begins. -/
def repeatCalled : Sample :=
  (repeatNext.step plain true (.next 10)).get (by decide +kernel)

/-- The timer repeats all along, so it is still active. -/
theorem called_active_repeat : repeatNext.loop.active (.timer true) ≠ 0 := by
  have hreach : Reachable plain true repeatPolled :=
    .of_execUnder ⟨false, 0, rfl⟩ (Option.some_get _).symm
  have hrun : (contract plain true).exec repeatPolled (List.replicate 3 (.next 10)) =
      some repeatNext := exec_contract (Option.some_get _).symm
  have hrepeats : (contract plain true).Throughout
      (fun u => u.loop.timers.evRepeat true ≠ 0) repeatPolled (List.replicate 3 (.next 10)) :=
    Machine.throughout_of_checkAlong (P := fun u => u.loop.timers.evRepeat true ≠ 0)
      (fun _ h => of_decide_eq_true h) (by decide +kernel)
  have hpc : repeatNext.pc = .invoke .test := by decide +kernel
  have hstep : repeatNext.step plain true (.next 10) = some repeatCalled :=
    (Option.some_get _).symm
  have hbegins : repeatCalled.Begins (.timer true) evTimer := .inl ⟨.test, by decide +kernel⟩
  refine (called_active hreach (.inl (by decide +kernel)) hrun hpc hstep hbegins).resolve_right ?_
  rintro ⟨s₁, a, s₂, after, hmoment, hretires, -⟩
  cases hretires with
  | timer _ _ _ hrepeat => exact hmoment.throughout hrepeats hrepeat

/-- The last watcher of the highest priority is called. -/
theorem called_first (h : Reachable cfg eventfd s) (hpc : s.pc = .invoke next)
    (hstep : s.step cfg eventfd (.next now) = some s') (hbegins : s'.Begins x events) :
    (∀ v, s.loop.queue.pending v ≠ 0 → s.loop.queue.abspri v ≤ s.loop.queue.abspri x) ∧
      s.loop.queue.agenda (s.loop.queue.abspri x) =
        s'.loop.queue.agenda (s.loop.queue.abspri x) ++ [(x, events)] := by
  have hinv := Inv.of_reachable h
  obtain ⟨q, htake, hloop⟩ := begins_inv hpc hstep hbegins
  have hagenda := Queue.agenda_takePending htake s.loop.queue.pendingpri
  rw [if_pos rfl, view_some, view_nil] at hagenda
  have hmem := Queue.mem_agenda_of_takePending htake
  have hpri := hinv.ok.manned.sound.abspri_of_mem hmem
  refine ⟨fun v hv => ?_, ?_⟩
  · rw [← hpri]
    by_contra hlt
    have hrange := Queue.abspri_lt (hinv.ok.manned.inRange v (.inr hv))
    exact hinv.ok.manned.sound.pendings_ne_nil hv (hinv.swept _ (not_le.mp hlt) hrange)
  · rw [← hpri, hloop]
    exact hagenda

theorem called_first_timer :
    (∀ v, timerNext.loop.queue.pending v ≠ 0 →
      timerNext.loop.queue.abspri v ≤ timerNext.loop.queue.abspri (.timer true)) ∧
    timerNext.loop.queue.agenda (timerNext.loop.queue.abspri (.timer true)) =
      timerCalled.loop.queue.agenda (timerNext.loop.queue.abspri (.timer true)) ++
        [(.timer true, evTimer)] :=
  called_first timerNext_reachable timerNext_pc timerCalled_step timerCalled_begins

/-! ## Timers -/

/-- A timer is called when its deadline has passed, and has been pending since. -/
theorem timer_not_early (h₀ : Reachable cfg eventfd s₀)
    (hnone : s₀.loop.queue.pending (.timer w) = 0)
    (hrun : (contract cfg eventfd).exec s₀ as = some s) (hpc : s.pc = .invoke next)
    (hstep : s.step cfg eventfd (.next now) = some s') (hbegins : s'.Begins (.timer w) events) :
    ∃ s₁ now₁ s₂ after d, (contract cfg eventfd).Moment s₀ as s₁ (.next now₁) s₂ after ∧
      s₁.pc = .polled ∧ s₁.loop.timers.deadline w = some d ∧ d < now₁ ∧
      (contract cfg eventfd).Throughout
        (fun u => u.loop.queue.pending (.timer w) ≠ 0) s₂ after := by
  have hs : Reachable cfg eventfd s := h₀.exec_restrict hrun
  obtain ⟨q, htake, -⟩ := begins_inv hpc hstep hbegins
  have hpending : s.loop.queue.pending (.timer w) ≠ 0 :=
    (Inv.of_reachable hs).ok.manned.sound.pending_of_mem
      (List.mem_map_of_mem (Queue.mem_agenda_of_takePending htake))
  obtain ⟨s₁, a, s₂, after, hmoment, hnot, hsince⟩ := Machine.exists_moment
    (P := fun u => u.loop.queue.pending (.timer w) ≠ 0) (not_not.mpr hnone) hrun hpending
  obtain ⟨⟨before, -, hbefore⟩, hrise⟩ := id hmoment
  obtain ⟨hallowed, hrise⟩ := Machine.restrict_step.mp hrise
  have hs₁ : Reachable cfg eventfd s₁ := h₀.exec_restrict hbefore
  cases (Inv.of_reachable hs₁).rises hallowed hrise (not_not.mp hnot) hsince.first with
  | timer hpc₁ hd hlt => exact ⟨s₁, _, s₂, after, _, hmoment, hpc₁, hd, hlt, hsince⟩

theorem timer_not_early_run :
    ∃ s₁ now₁ s₂ after d,
      (contract plain true).Moment timersPolled (.next 10 :: List.replicate 2 (.next 10)) s₁
        (.next now₁) s₂ after ∧
      s₁.pc = .polled ∧ s₁.loop.timers.deadline true = some d ∧ d < now₁ ∧
      (contract plain true).Throughout
        (fun u => u.loop.queue.pending (.timer true) ≠ 0) s₂ after := by
  have hallowed : timersPolled.Allowed (.next 10) := trivial
  have hstep : (contract plain true).step timersPolled (.next 10) = some timersFed :=
    Machine.restrict_step.mpr ⟨hallowed, timersFed_step⟩
  exact timer_not_early timersPolled_reachable (by decide +kernel)
    (((contract plain true).exec_of_step hstep _).trans timerNext_exec) timerNext_pc
    timerCalled_step timerCalled_begins

/-! ## Rounds of callbacks -/

/-- Whoever is pending at the beginning of a run and not at its end has been called with all
its events, or has been stopped. -/
theorem called_of_gone (h₀ : Reachable cfg eventfd s₀) {pri : Nat}
    (he : (x, events) ∈ s₀.loop.queue.agenda pri)
    (hrun : (contract cfg eventfd).exec s₀ as = some s)
    (hgone : x ∉ (s.loop.queue.agenda pri).map Prod.fst) :
    ∃ s₁ a s₂ after, (contract cfg eventfd).Moment s₀ as s₁ a s₂ after ∧
      ((∃ events', s₂.Begins x events' ∧ events' &&& events = events) ∨ s₁.Stops x a) := by
  -- an entry stays, with more events, until its watcher is called or stopped
  refine (Machine.exec_or_moment (I := Reachable cfg eventfd)
    (P := fun u => ∃ events', (x, events') ∈ u.loop.queue.agenda pri ∧ events' &&& events = events)
    (fun s a s' hs hstep => ?_) (fun s a s' hs hP hstep => ?_) h₀
    ⟨events, he, UInt32.and_self⟩ hrun).resolve_left ?_
  · obtain ⟨hallowed, hstep⟩ := Machine.restrict_step.mp hstep
    exact hs.step hallowed hstep
  · obtain ⟨hallowed, hstep⟩ := Machine.restrict_step.mp hstep
    obtain ⟨events₁, he₁, hsub₁⟩ := hP
    rcases ((Inv.of_reachable hs).queueStep hallowed hstep).kept pri x events₁ he₁ with
      ⟨events₂, he₂, hsub₂⟩ | ⟨hbegins | hstops, -⟩
    · refine .inl ⟨events₂, he₂, ?_⟩
      rw [← hsub₁, ← UInt32.and_assoc, hsub₂]
    · exact .inr (.inl ⟨events₁, hbegins, hsub₁⟩)
    · exact .inr (.inr hstops)
  · rintro ⟨events', he', -⟩
    exact hgone (List.mem_map_of_mem he')

/-- Behind `ev_invoke_pending` everybody who was pending has been called or stopped. -/
theorem called_or_stopped (h₀ : Reachable cfg eventfd s₀) {pri : Nat}
    (he : (x, events) ∈ s₀.loop.queue.agenda pri)
    (hrun : (contract cfg eventfd).exec s₀ as = some s)
    (hpc : s.pc = .top ∨ s.pc = .test ∨ s.pc = .outside) :
    ∃ s₁ a s₂ after, (contract cfg eventfd).Moment s₀ as s₁ a s₂ after ∧
      ((∃ events', s₂.Begins x events' ∧ events' &&& events = events) ∨ s₁.Stops x a) := by
  refine called_of_gone h₀ he hrun fun hmem => ?_
  have hinv := Inv.of_reachable (h₀.exec_restrict hrun : Reachable cfg eventfd s)
  exact hinv.ok.manned.sound.pending_of_mem hmem (hinv.empty (hinv.empty_behind hpc) x)

/-- Both timers have been called. -/
def timersDone : Sample :=
  ((machine plain true).execUnder Allowed timersFed (List.replicate 9 (.next 10))).get
    (by decide +kernel)

theorem called_or_stopped_timers :
    ∃ s₁ a s₂ after,
      (contract plain true).Moment timersFed (List.replicate 9 (.next 10)) s₁ a s₂ after ∧
      ((∃ events', s₂.Begins (.timer false) events' ∧ events' &&& evTimer = evTimer) ∨
        s₁.Stops (.timer false) a) := by
  have hrun : (contract plain true).exec timersFed (List.replicate 9 (.next 10)) =
      some timersDone := exec_contract (Option.some_get _).symm
  have hfed : (.timer false, evTimer) ∈ timersFed.loop.queue.agenda 2 := by decide +kernel
  exact called_or_stopped timersFed_reachable hfed hrun (.inr (.inl (by decide +kernel)))

/-! ## The order of the timers -/

/-- Nobody gets in front of a watcher that waits. -/
theorem inFront_of_run (h₀ : Reachable cfg eventfd s₀) (hx : ¬Loop.IsIo x) {pri : Nat}
    (hfront : InFront ((s₀.loop.queue.agenda pri).map Prod.fst) x v)
    (hrun : (contract cfg eventfd).exec s₀ as = some s)
    (hwaits : (contract cfg eventfd).Throughout (fun u => u.loop.queue.pending x ≠ 0) s₀ as)
    (hstays : v ∈ (s.loop.queue.agenda pri).map Prod.fst) :
    InFront ((s.loop.queue.agenda pri).map Prod.fst) x v ∨
      ∃ s₁ a s₂ after, (contract cfg eventfd).Moment s₀ as s₁ a s₂ after ∧
        ((∃ events', s₂.Begins v events') ∨ s₁.Stops v a) := by
  induction as generalizing s₀ with
  | nil =>
      cases hrun
      exact .inl hfront
  | cons a as ih =>
      obtain ⟨s₁, hstep, hrest⟩ := Option.bind_eq_some_iff.mp hrun
      obtain ⟨hallowed, hstep'⟩ := Machine.restrict_step.mp hstep
      have hqueue := (Inv.of_reachable h₀).queueStep hallowed hstep'
      have hwaits₁ := hwaits.2 s₁ hstep
      obtain ⟨⟨_, events₁⟩, he₁, rfl⟩ := List.mem_map.mp hfront.mem_left
      obtain ⟨⟨_, events₂⟩, he₂, rfl⟩ := List.mem_map.mp hfront.mem_right
      rcases hqueue.kept pri _ events₂ he₂ with ⟨events₃, he₃, -⟩ | ⟨hend, -⟩
      · rcases hqueue.kept pri _ events₁ he₁ with ⟨events₄, he₄, -⟩ | ⟨-, hgone⟩
        · have hnext := hqueue.order pri _ _ hx hfront (List.mem_map.mpr ⟨_, he₄, rfl⟩)
            (List.mem_map.mpr ⟨_, he₃, rfl⟩)
          refine (ih (h₀.step hallowed hstep') hnext hrest hwaits₁).imp id ?_
          rintro ⟨s₂, b, s₃, after, hmoment, hend⟩
          exact ⟨s₂, b, s₃, after, hmoment.cons hstep, hend⟩
        · exact absurd (hgone hx) hwaits₁.first
      · exact .inr ⟨s₀, a, s₁, as, ⟨⟨[], rfl, rfl⟩, hstep⟩, hend.imp (fun hb => ⟨events₂, hb⟩) id⟩

/-- Of two timers that expire at once, the one with the earlier deadline is in front. -/
theorem inFront_of_polled (h₀ : Reachable cfg eventfd s₀) (hpc : s₀.pc = .polled)
    (hstep : s₀.step cfg eventfd (.next now) = some s) {v w : ι} {d e : T}
    (hv : s₀.loop.timers.deadline v = some d) (hw : s₀.loop.timers.deadline w = some e)
    (hlt : d < e) (hnow : e < now)
    (hpri : s₀.loop.queue.abspri (.timer v) = s₀.loop.queue.abspri (.timer w)) :
    InFront ((s.loop.queue.agenda (s₀.loop.queue.abspri (.timer w))).map Prod.fst)
      (.timer w) (.timer v) := by
  have hinv := Inv.of_reachable h₀
  obtain rfl := polled_next hpc hstep
  have hwoken := hinv.ok.woken now fun hskipped => hinv.pipe (.inl hskipped)
  obtain ⟨fired, hfired⟩ := hinv.timersReified hpc now
  obtain ⟨htimers, hmnNow, -⟩ := Loop.woken_timers s₀.loop now
  have hpriority := (Loop.woken_fed hinv.ok.manned.sound now).priority
  rw [← htimers] at hv hw
  have hmem : ∀ u f, (s₀.loop.woken now).timers.deadline u = some f → f < now → u ∈ fired :=
    fun u f hf hlt => (hfired.mem u).mpr ⟨f, hf, by rwa [hmnNow]⟩
  have hfront : InFront fired v w :=
    .of_pairwise hfired.sorted (hmem v d hv (hlt.trans hnow)) (hmem w e hw hnow)
      (by
        rintro rfl
        rw [hv] at hw
        exact hlt.ne (Option.some.inj hw))
      fun hle => absurd (hle e d hw hv) (not_le.mpr hlt)
  have hwoke : InFront (((s₀.loop.woken now).timersReify.queue.agenda
      (s₀.loop.queue.abspri (.timer w))).map Prod.fst) (.timer w) (.timer v) := by
    have habs : ∀ x, (s₀.loop.woken now).queue.abspri x = s₀.loop.queue.abspri x := fun x => by
      rw [Queue.abspri, hpriority, Queue.abspri]
    rw [hfired.agenda, List.map_append, List.map_map]
    refine InFront.of_sublist ?_ (List.sublist_append_right ..)
    have hposted := ((hfront.reverse.map (β := Watcher ι) .timer).filter
      (p := fun x => s₀.loop.queue.abspri (.timer w) = (s₀.loop.woken now).queue.abspri x)
      (by simp [habs]) (by simp [habs, hpri])).map (Prod.fst ∘ fun x => (x, evTimer))
    exact hposted
  have hreified := hwoken.timersReify (Loop.woken_rfeeds hinv.rfeeds now)
  exact hwoke.of_sublist (hreified.idleReify_fed.agenda _).sublist

/-- Timers of one priority that expire at once are called in the order of their deadlines. -/
theorem timers_in_order (h₀ : Reachable cfg eventfd s₀) (hpc : s₀.pc = .polled)
    {s₁ : State Thread ι T} (hpolled : s₀.step cfg eventfd (.next now) = some s₁) {v w : ι}
    {d e : T} (hv : s₀.loop.timers.deadline v = some d)
    (hw : s₀.loop.timers.deadline w = some e) (hlt : d < e) (hnow : e < now)
    (hpri : s₀.loop.queue.abspri (.timer v) = s₀.loop.queue.abspri (.timer w))
    (hrun : (contract cfg eventfd).exec s₁ as = some s)
    (hwaits : (contract cfg eventfd).Throughout
      (fun u => u.loop.queue.pending (.timer w) ≠ 0) s₁ as)
    (hinvoke : s.pc = .invoke next) {now' : T}
    (hstep : s.step cfg eventfd (.next now') = some s') (hbegins : s'.Begins (.timer w) events) :
    ∃ s₂ a s₃ after, (contract cfg eventfd).Moment s₁ as s₂ a s₃ after ∧
      ((∃ events', s₃.Begins (.timer v) events') ∨ s₂.Stops (.timer v) a) := by
  have hfront := inFront_of_polled h₀ hpc hpolled hv hw hlt hnow hpri
  have hallowed : s₀.Allowed (.next now) := trivial
  have h₁ : Reachable cfg eventfd s₁ := h₀.step hallowed hpolled
  have hs : Reachable cfg eventfd s := h₁.exec_restrict hrun
  obtain ⟨⟨_, events₁⟩, he₁, hfst⟩ := List.mem_map.mp hfront.mem_right
  cases hfst
  by_cases hstays : .timer v ∈
      (s.loop.queue.agenda (s₀.loop.queue.abspri (.timer w))).map Prod.fst
  · refine (inFront_of_run h₁ (fun ⟨u, hu⟩ => by cases hu) hfront hrun hwaits hstays).resolve_left
      fun hlast => ?_
    -- `w` is the last of its agenda
    have hsound := (Inv.of_reachable hs).ok.manned.sound
    obtain ⟨q, htake, -⟩ := begins_inv hinvoke hstep hbegins
    have hon := Queue.mem_agenda_of_takePending htake
    obtain ⟨⟨_, events₂⟩, he₂, hfst⟩ := List.mem_map.mp hlast.mem_left
    cases hfst
    have hagenda := Queue.agenda_takePending htake s.loop.queue.pendingpri
    rw [hsound.abspri_of_mem he₂, ← hsound.abspri_of_mem hon] at hlast
    have hnodup := hsound.agenda_nodup s.loop.queue.pendingpri
    rw [hagenda, if_pos rfl, view_some, view_nil, List.map_append] at hlast hnodup
    exact hlast.ne_last hnodup rfl
  · obtain ⟨s₂, a, s₃, after, hmoment, hend⟩ := called_of_gone h₁ he₁ hrun hstays
    exact ⟨s₂, a, s₃, after, hmoment, hend.imp (fun ⟨events', hb, _⟩ => ⟨events', hb⟩) id⟩

/-- The second timer is to be called. -/
def secondNext : Sample :=
  ((machine plain true).execUnder Allowed timersFed (List.replicate 4 (.next 10))).get
    (by decide +kernel)

/-- Its callback begins. -/
def secondCalled : Sample :=
  (secondNext.step plain true (.next 10)).get (by decide +kernel)

theorem timers_in_order_run :
    ∃ s₂ a s₃ after,
      (contract plain true).Moment timersFed (List.replicate 4 (.next 10)) s₂ a s₃ after ∧
      ((∃ events', s₃.Begins (.timer true) events') ∨ s₂.Stops (.timer true) a) := by
  have hrun : (contract plain true).exec timersFed (List.replicate 4 (.next 10)) =
      some secondNext := exec_contract (Option.some_get _).symm
  have hwaits : (contract plain true).Throughout
      (fun u => u.loop.queue.pending (.timer false) ≠ 0) timersFed (List.replicate 4 (.next 10)) :=
    Machine.throughout_of_checkAlong (P := fun u => u.loop.queue.pending (.timer false) ≠ 0)
      (fun _ h => of_decide_eq_true h) (by decide +kernel)
  have hd : timersPolled.loop.timers.deadline true = some 3 := by decide +kernel
  have he : timersPolled.loop.timers.deadline false = some 5 := by decide +kernel
  have hstep : secondNext.step plain true (.next 10) = some secondCalled :=
    (Option.some_get _).symm
  have hpc : secondNext.pc = .invoke .test := by decide +kernel
  have hbegins : secondCalled.Begins (.timer false) evTimer := .inl ⟨.test, by decide +kernel⟩
  exact timers_in_order timersPolled_reachable (by decide +kernel) timersFed_step hd he
    (by decide) (by decide) (by decide +kernel) hrun hwaits hpc hstep hbegins

/-! ## Idle watchers -/

/-- An idle watcher becomes pending when nobody else of its priority or a higher one is
pending, and no idle watcher has a higher priority. -/
theorem idle_alone (h : Reachable cfg eventfd s) (ha : s.Allowed a)
    (hstep : s.step cfg eventfd a = some s') (hnone : s.loop.queue.pending (.idle w) = 0)
    (hw : s'.loop.queue.pending (.idle w) ≠ 0) :
    (∀ x, s'.loop.queue.pending x ≠ 0 → (∀ v, x ≠ .idle v) →
      s'.loop.queue.abspri x < s'.loop.queue.abspri (.idle w)) ∧
    ∀ v, s'.loop.idleActive v ≠ 0 →
      s'.loop.queue.abspri (.idle v) ≤ s'.loop.queue.abspri (.idle w) := by
  have hinv := Inv.of_reachable h
  cases hinv.rises ha hstep hnone hw with
  | @idle now w hpc =>
      obtain rfl := polled_next hpc hstep
      have hreified : (s.loop.woken now).timersReify.queue.pending (.idle w) = 0 := by
        obtain ⟨fired, hfired⟩ := hinv.timersReified hpc now
        by_contra hpending
        rcases hfired.fed.pending _ hpending with ⟨v, -, hv⟩ | hpending
        · cases hv
        · rcases (Loop.woken_fed hinv.ok.manned.sound now).pending _ hpending with
            ⟨hv, -⟩ | hpending
          · cases hv
          · exact hpending hnone
      have hwoken := hinv.ok.woken now fun hskipped => hinv.pipe (.inl hskipped)
      have hok := hwoken.timersReify (Loop.woken_rfeeds hinv.rfeeds now)
      exact hok.idleReify_alone hreified hw

/-- An idle watcher is started, and `backend_poll` has returned. -/
def idlePolled : Sample :=
  ((machine plain true).execUnder Allowed (.init false 0)
    ([.call (.idleStart false), .run ⟨false, false⟩] ++ List.replicate 8 (.next 0))).get
    (by decide +kernel)

/-- The idle watcher is pending. -/
def idleFed : Sample :=
  (idlePolled.step plain true (.next 1)).get (by decide +kernel)

theorem idle_alone_run :
    (∀ x, idleFed.loop.queue.pending x ≠ 0 → (∀ v, x ≠ .idle v) →
      idleFed.loop.queue.abspri x < idleFed.loop.queue.abspri (.idle false)) ∧
    ∀ v, idleFed.loop.idleActive v ≠ 0 →
      idleFed.loop.queue.abspri (.idle v) ≤ idleFed.loop.queue.abspri (.idle false) := by
  have hreach : Reachable plain true idlePolled :=
    .of_execUnder ⟨false, 0, rfl⟩ (Option.some_get _).symm
  have hstep : idlePolled.step plain true (.next 1) = some idleFed := (Option.some_get _).symm
  exact idle_alone hreach (show idlePolled.Allowed (.next 1) from trivial) hstep
    (by decide +kernel) (by decide +kernel)

end State
end Ev
end Cyan

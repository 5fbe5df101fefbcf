import Cyan.Ev.RunCalls

/-!
# Timers on time

* `waits_in_time`: `backend_poll` is not asked to wait beyond the next deadline, or
  beyond the times for which everything waits.
* `timers_renewed`: behind `backend_poll` every timer has a deadline to come, or none.
* `expired_called`: a timer that has expired is called in the same iteration, or it is
  stopped before, or restarted by `ev_timer_again`.
-/

namespace Cyan
namespace Ev

open Base

section Waiting

variable {Thread ι T : Type*} [DecidableEq Thread] [DecidableEq ι]
variable [LinearOrder T] [Add T] [Sub T] [Zero T]

/-- What rounding leaves of the laws of subtraction. -/
structure MonotoneSub (T : Type*) [LinearOrder T] [Sub T] [Zero T] : Prop where
  mono : ∀ a b c : T, a ≤ b → a - c ≤ b - c
  le_self : ∀ a b : T, 0 ≤ b → a - b ≤ a

section

omit [DecidableEq ι] [Add T]

/-- With a timer, `ev_run` waits until its deadline at most. -/
theorem Loop.blocktime_le (hsub : MonotoneSub T) {l : Loop ι T} (hok : l.timers.Ok)
    (cfg : Config T) (prev : T) {w : ι} {d : T} (hd : l.timers.deadline w = some d) :
    l.blocktime cfg prev ≤
      max 0 (max (d - l.mnNow) (max cfg.timeoutBlocktime cfg.backendMintime)) := by
  have hcnt := hok.timercnt_ne_zero (Timers.active_of_deadline hd)
  have hfirst : l.timers.heap.key heap0 - l.mnNow ≤ d - l.mnNow :=
    hsub.mono _ _ _ ((hok.first hcnt).2 w d hd)
  -- each of the steps that compute the waiting time keeps it below the bound
  have htimeout : ∀ t : T, (if t > l.timers.heap.key heap0 - l.mnNow then
      l.timers.heap.key heap0 - l.mnNow else t) ≤ d - l.mnNow := by
    intro t
    split
    · exact hfirst
    · exact (not_lt.mp ‹_›).trans hfirst
  have hgrow : ∀ t : T, t ≤ d - l.mnNow →
      (if t < cfg.timeoutBlocktime then cfg.timeoutBlocktime else t) ≤
        max (d - l.mnNow) (max cfg.timeoutBlocktime cfg.backendMintime) := by
    intro t ht
    split
    · exact (le_max_left ..).trans (le_max_right ..)
    · exact ht.trans (le_max_left ..)
  have hmintime : ∀ t : T, t ≤ max (d - l.mnNow) (max cfg.timeoutBlocktime cfg.backendMintime) →
      (if t < cfg.backendMintime then if t ≤ 0 then 0 else cfg.backendMintime else t) ≤
        max 0 (max (d - l.mnNow) (max cfg.timeoutBlocktime cfg.backendMintime)) := by
    intro t ht
    split
    · split
      · exact le_max_left ..
      · exact (le_max_right ..).trans ((le_max_right ..).trans (le_max_right ..))
    · exact ht.trans (le_max_right ..)
  have hsleep : ∀ t sleep bound : T, t ≤ bound →
      (if sleep > 0 then t - sleep else t) ≤ bound := by
    intro t sleep bound ht
    split
    · exact (hsub.le_self t sleep (le_of_lt ‹_›)).trans ht
    · exact ht
  unfold Loop.blocktime
  dsimp only
  rw [if_pos hcnt]
  split
  · exact hsleep _ _ _ (hmintime _ (hgrow _ (htimeout _)))
  · exact hmintime _ (hgrow _ (htimeout _))

theorem Loop.waittime_le (hsub : MonotoneSub T) {l : Loop ι T} (hok : l.timers.Ok)
    (cfg : Config T) (nowait : Bool) (prev : T) {w : ι} {d : T}
    (hd : l.timers.deadline w = some d) :
    l.waittime cfg nowait prev ≤
      max 0 (max (d - l.mnNow) (max cfg.timeoutBlocktime cfg.backendMintime)) := by
  unfold Loop.waittime
  split
  · exact le_max_left ..
  · exact Loop.blocktime_le hsub hok cfg prev hd

end

namespace State

variable {s s' : State Thread ι T} {cfg : Config T} {eventfd : Bool} {prev now d : T} {w : ι}

/-- `backend_poll` waits until the next deadline at most, but for the times for which it waits
in any case. -/
theorem waits_in_time (hsub : MonotoneSub T) (h : Reachable cfg eventfd s)
    (hpc : s.pc = .wanted prev)
    (hstep : s.step cfg eventfd (.next now) = some s')
    (hd : s.loop.timers.deadline w = some d) :
    ∃ wait, s'.pc = .poll wait ∧ wait ≤
      max 0 (max (d - s.loop.mnNow) (max cfg.timeoutBlocktime cfg.backendMintime)) := by
  unfold State.step stepLoop at hstep
  simp only [hpc] at hstep
  cases hstep
  exact ⟨_, rfl, Loop.waittime_le hsub (Inv.of_reachable h).ok.timers cfg _ prev hd⟩

/-- A timer that expires in three units of time. -/
def timerWanted : State Unit Bool Int :=
  ((machine ⟨0, 0, 1, 60⟩ true).execUnder Allowed (.init false 0)
    ([.call (.timerSet true 3 0), .call (.timerStart true), .run ⟨false, false⟩] ++
      List.replicate 6 (.next 0))).get (by decide +kernel)

theorem waits_in_time_timer : ∃ s' wait,
    timerWanted.step ⟨0, 0, 1, 60⟩ true (.next 0) = some s' ∧ s'.pc = .poll wait ∧
      wait ≤ max 0 (max (3 - 0) (max 0 1)) := by
  have hreach : Reachable ⟨0, 0, 1, 60⟩ true timerWanted :=
    .of_execUnder ⟨false, 0, rfl⟩ (Option.some_get _).symm
  have hd : timerWanted.loop.timers.deadline true = some 3 := by decide +kernel
  have hpc : timerWanted.pc = .wanted 0 := by decide +kernel
  have hnow : timerWanted.loop.mnNow = 0 := by decide +kernel
  have hsome : (timerWanted.step ⟨0, 0, 1, 60⟩ true (.next 0)).isSome := by decide +kernel
  obtain ⟨s', hstep⟩ := Option.isSome_iff_exists.mp hsome
  have hsub : MonotoneSub Int :=
    ⟨fun _ _ c hle => Int.sub_le_sub_right hle c, fun a _ hle => Int.sub_le_self a hle⟩
  obtain ⟨wait, hpoll, hle⟩ := waits_in_time hsub hreach hpc hstep hd
  exact ⟨s', wait, hstep, hpoll, hnow ▸ hle⟩

end State

end Waiting

variable {Thread ι T : Type*} [DecidableEq Thread] [DecidableEq ι]
variable [LinearOrder T] [Add T] [Sub T] [Zero T]

namespace State

variable {s s' s₀ s₁ : State Thread ι T} {cfg : Config T} {eventfd : Bool}
variable {as : List (Action Thread ι T)} {w : ι} {now d : T}

/-- Behind `backend_poll` a timer that has expired begins its next interval or stops, the others
keep their deadlines, and no deadline is left that has passed. -/
theorem timers_renewed (h : Reachable cfg eventfd s) (hpc : s.pc = .polled)
    (hstep : s.step cfg eventfd (.next now) = some s') (w : ι) :
    (s'.loop.timers.deadline w = (s.loop.timers.deadline w).bind fun d =>
      if d < now then s.loop.timers.renewed now w d else some d) ∧
    ∀ e, s'.loop.timers.deadline w = some e → now ≤ e := by
  have hinv := Inv.of_reachable h
  obtain ⟨fired, hfired⟩ := hinv.timersReified hpc now
  obtain ⟨htimers, hmnNow, -⟩ := Loop.woken_timers s.loop now
  have hs' : s'.loop.timers = (s.loop.woken now).timersReify.timers := by
    rw [polled_next hpc hstep]
    change (s.loop.polled now).timers = _
    rw [Loop.polled_eq, Loop.idleReify_timers]
  rw [hs']
  refine ⟨?_, fun e he => hmnNow ▸ hfired.not_due he⟩
  have hmem := hfired.mem w
  have hrenewed := hfired.renewed w
  have hrest := hfired.rest w
  rw [htimers, hmnNow] at hmem hrenewed
  rw [htimers] at hrest
  cases hd : s.loop.timers.deadline w with
  | none =>
      have hnot : w ∉ fired := fun hw => by
        obtain ⟨d, hd', -⟩ := hmem.mp hw
        rw [hd] at hd'
        cases hd'
      rw [hrest hnot, hd, Option.bind_none]
  | some d =>
      rw [Option.bind_some]
      split
      · rename_i hlt
        rw [hrenewed (hmem.mpr ⟨d, hd, hlt⟩), hd, Option.bind_some]
      · rename_i hlt
        refine (hrest fun hw => ?_).trans hd
        obtain ⟨e, he, hlt'⟩ := hmem.mp hw
        rw [hd] at he
        cases he
        exact hlt hlt'

theorem timers_renewed_timers :
    (timersFed.loop.timers.deadline true = (timersPolled.loop.timers.deadline true).bind fun d =>
      if d < 10 then timersPolled.loop.timers.renewed 10 true d else some d) ∧
    ∀ e, timersFed.loop.timers.deadline true = some e → 10 ≤ e :=
  timers_renewed timersPolled_reachable (by decide +kernel) timersFed_step true

/-- A timer that has expired is pending. -/
theorem expired_fed (h : Reachable cfg eventfd s) (hpc : s.pc = .polled)
    (hstep : s.step cfg eventfd (.next now) = some s')
    (hd : s.loop.timers.deadline w = some d) (hlt : d < now) :
    ∃ pri events, (.timer w, events) ∈ s'.loop.queue.agenda pri ∧
      events &&& evTimer = evTimer := by
  have hinv := Inv.of_reachable h
  have hwoken := hinv.ok.woken now fun hskipped => hinv.pipe (.inl hskipped)
  obtain ⟨fired, hfired⟩ := hinv.timersReified hpc now
  obtain ⟨htimers, hmnNow, -⟩ := Loop.woken_timers s.loop now
  have hw : w ∈ fired := (hfired.mem w).mpr ⟨d, htimers ▸ hd, hmnNow ▸ hlt⟩
  have hposted : (.timer w, evTimer) ∈ (s.loop.woken now).timersReify.queue.agenda
      ((s.loop.woken now).queue.abspri (.timer w)) := by
    rw [hfired.agenda]
    refine List.mem_append_right _ (List.mem_map.mpr ⟨.timer w, ?_, rfl⟩)
    refine List.mem_filter.mpr ⟨List.mem_map_of_mem (List.mem_reverse.mpr hw), ?_⟩
    exact decide_eq_true rfl
  have hok := hwoken.timersReify (Loop.woken_rfeeds hinv.rfeeds now)
  obtain ⟨events, he, hevents⟩ := hok.idleReify_fed.kept _ _ _ hposted
  rw [polled_next hpc hstep]
  exact ⟨_, events, he, hevents⟩

/-- A timer that has expired is called before the next call of `backend_poll`, or it is
stopped. -/
theorem expired_called (h₀ : Reachable cfg eventfd s₀) (hpc : s₀.pc = .polled)
    (hstep : s₀.step cfg eventfd (.next now) = some s₁)
    (hd : s₀.loop.timers.deadline w = some d) (hlt : d < now)
    (hrun : (contract cfg eventfd).exec s₁ as = some s)
    (hend : s.pc = .top ∨ s.pc = .test ∨ s.pc = .outside) :
    ∃ s₂ a s₃ after, (contract cfg eventfd).Moment s₁ as s₂ a s₃ after ∧
      ((∃ events, s₃.Begins (.timer w) events ∧ events &&& evTimer = evTimer) ∨
        s₂.Stops (.timer w) a) := by
  have hallowed : s₀.Allowed (.next now) := trivial
  have h₁ : Reachable cfg eventfd s₁ := h₀.step hallowed hstep
  obtain ⟨pri, events, he, hevents⟩ := expired_fed h₀ hpc hstep hd hlt
  have hinv := Inv.of_reachable (h₁.exec_restrict hrun : Reachable cfg eventfd s)
  obtain ⟨s₂, a, s₃, after, hmoment, hcalled⟩ := called_of_gone h₁ he hrun fun hmem =>
    hinv.ok.manned.sound.pending_of_mem hmem (hinv.empty (hinv.empty_behind hend) _)
  refine ⟨s₂, a, s₃, after, hmoment, hcalled.imp (fun ⟨events', hbegins, hsub⟩ => ?_) id⟩
  refine ⟨events', hbegins, ?_⟩
  rw [← hevents, ← UInt32.and_assoc, hsub]

theorem expired_called_timers :
    ∃ s₂ a s₃ after,
      (contract plain true).Moment timersFed (List.replicate 9 (.next 10)) s₂ a s₃ after ∧
      ((∃ events, s₃.Begins (.timer false) events ∧ events &&& evTimer = evTimer) ∨
        s₂.Stops (.timer false) a) := by
  have hrun : (contract plain true).exec timersFed (List.replicate 9 (.next 10)) =
      some timersDone := exec_contract (Option.some_get _).symm
  have hd : timersPolled.loop.timers.deadline false = some 5 := by decide +kernel
  exact expired_called timersPolled_reachable (by decide +kernel) timersFed_step hd (by decide)
    hrun (.inr (.inl (by decide +kernel)))

end State

end Ev
end Cyan

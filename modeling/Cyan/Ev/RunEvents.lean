import Cyan.Ev.RunCalls

/-!
# What the loop and the kernel know of each other

* `verified_of_reachable`: `ev_verify` finds nothing wrong, whenever it is called.
* `kernel_reports`: while `backend_poll` runs, the kernel has been asked for what
  the active watchers want, and libev knows what that is.
* `event_delivered`: and what it reports goes to those that want it.
-/

namespace Cyan
namespace Ev

open Base

variable {Thread ι T : Type*} [DecidableEq Thread] [DecidableEq ι]
variable [LinearOrder T] [Add T] [Sub T] [Zero T]

namespace Loop

variable {l : Loop ι T} {ws : List (Option ι)} {w : Option ι}

/-- The events of a report that the watchers of a list want. -/
def wantedOf (l : Loop ι T) (ws : List (Option ι)) (revents : UInt32) : Watcher ι → UInt32
  | .io w => if w ∈ ws then l.fds.events w &&& revents else 0
  | _ => 0

section

omit [LinearOrder T] [Add T] [Sub T] [Zero T]

theorem wantedOf_nil (l : Loop ι T) (revents : UInt32) (x : Watcher ι) :
    l.wantedOf [] revents x = 0 := by
  cases x <;> simp [wantedOf]

theorem wantedOf_cons_self (hw : w ∉ ws) (revents : UInt32) :
    l.wantedOf (w :: ws) revents (.io w) = l.fds.events w &&& revents ∧
      l.wantedOf ws revents (.io w) = 0 := by
  simp [wantedOf, hw]

theorem wantedOf_cons_of_ne {x : Watcher ι} (hx : x ≠ .io w) (revents : UInt32) :
    l.wantedOf (w :: ws) revents x = l.wantedOf ws revents x := by
  cases x with
  | io u =>
      have hu : u ≠ w := fun heq => hx (congrArg _ heq)
      simp [wantedOf, hu]
  | _ => rfl

end

section

omit [LinearOrder T] [Add T] [Sub T] [Zero T]

/-- Every watcher of a list gets what it wants of the report. -/
theorem foldl_report {q : Queue (Watcher ι)} (hq : q.Sound) (hnodup : ws.Nodup)
    (revents : UInt32) (x : Watcher ι) :
    let q' := ws.foldl (fun q w =>
      let ev := l.fds.events w &&& revents
      if ev ≠ 0 then q.feedEvent (.io w) ev else q) q
    q'.pendingEvents x = q.pendingEvents x ||| l.wantedOf ws revents x ∧
      (q'.pending x ≠ 0 ↔ q.pending x ≠ 0 ∨ l.wantedOf ws revents x ≠ 0) := by
  induction ws generalizing q with
  | nil => simp [wantedOf_nil]
  | cons w ws ih =>
      obtain ⟨hw, hnodup⟩ := List.nodup_cons.mp hnodup
      dsimp only at ih ⊢
      rw [List.foldl_cons]
      by_cases hev : l.fds.events w &&& revents = 0
      · -- the watcher does not want it
        rw [if_neg (not_not.mpr hev)]
        have hsame : l.wantedOf (w :: ws) revents x = l.wantedOf ws revents x := by
          by_cases hx : x = .io w
          · rw [hx, (wantedOf_cons_self hw revents).1, (wantedOf_cons_self hw revents).2, hev]
          · exact wantedOf_cons_of_ne hx revents
        rw [hsame]
        exact ih hq hnodup
      · rw [if_pos hev]
        obtain ⟨hevents, hpending⟩ := ih (hq.feedEvent (.io w) (l.fds.events w &&& revents)) hnodup
        rw [hevents, hpending, hq.feedEvent_pendingEvents]
        by_cases hx : x = .io w
        · subst hx
          obtain ⟨hself, hrest⟩ := wantedOf_cons_self (l := l) hw revents
          have hfed := Queue.feedEvent_pending_self q (.io w) (l.fds.events w &&& revents)
          rw [hself, hrest, Function.update_self, UInt32.or_zero]
          exact ⟨rfl, fun _ => .inr hev, fun _ => .inl hfed⟩
        · rw [wantedOf_cons_of_ne hx, Function.update_of_ne hx, Queue.feedEvent_pending_of_ne hx]
          exact ⟨rfl, Iff.rfl⟩

/-- What `fd_event` makes pending, when nothing waits for `fd_reify`. -/
theorem fdEvent_report (hq : l.queue.Sound) (hok : l.fds.Ok) (hstep : l.fds.InStep) (fd : Nat)
    (revents : UInt32) (x : Watcher ι) :
    (l.fdEvent fd revents).queue.pendingEvents x =
        l.queue.pendingEvents x ||| l.wantedOf (l.fds.anfds fd).head revents x ∧
      ((l.fdEvent fd revents).queue.pending x ≠ 0 ↔
        l.queue.pending x ≠ 0 ∨ l.wantedOf (l.fds.anfds fd).head revents x ≠ 0) := by
  unfold fdEvent
  split
  · exact foldl_report hq (hok.nodup fd) revents x
  · rename_i hreify
    rw [hstep.settled fd hreify, wantedOf_nil, UInt32.or_zero]
    exact ⟨rfl, .inl, fun h => h.resolve_right fun hne => hne rfl⟩

end

end Loop

namespace State

variable {s s' : State Thread ι T} {cfg : Config T} {eventfd : Bool}

omit [DecidableEq Thread] [DecidableEq ι] [Add T] [Sub T] [Zero T] in
/-- The descriptors are in step while `backend_poll` runs. -/
theorem Inv.inStep (h : s.Inv) (hpolls : s.polls = true) : s.loop.fds.InStep := by
  have hstage := h.stage
  unfold State.polls at hpolls
  split at hpolls
  · rename_i hpc
    unfold Stage at hstage
    rw [hpc] at hstage
    exact hstage.2
  · cases hpolls

/-- `ev_verify` finds nothing wrong in any state of a run that keeps to the contract. -/
theorem verified_of_reachable (h : Reachable cfg eventfd s) : s.loop.Verified :=
  (Inv.of_reachable h).ok.verified (Inv.of_reachable h).refs

/-- A timer, an idle watcher and an io watcher are started, and the loop polls. -/
def ioPolls : Sample :=
  ((machine plain true).execUnder Allowed (.init false 0)
    ([.call (.ioSet false 7 evRead), .call (.ioStart false), .call (.timerSet true 3 1),
      .call (.timerStart true), .call (.idleStart true), .run ⟨false, false⟩] ++
    List.replicate 7 (.next 0))).get (by decide +kernel)

theorem ioPolls_reachable : Reachable plain true ioPolls :=
  .of_execUnder ⟨false, 0, rfl⟩ (Option.some_get _).symm

theorem verified_of_reachable_io : ioPolls.loop.Verified :=
  verified_of_reachable ioPolls_reachable

/-- In `backend_poll` the members `events` of `anfds` tell what the active watchers want, and when
somebody wants something of a descriptor, the kernel has been asked for exactly what is wanted. -/
theorem kernel_reports (h : Reachable cfg eventfd s) (hpolls : s.polls = true) (fd : Nat) :
    ((s.loop.fds.anfds fd).reify = 0 → ∀ event,
      (s.loop.fds.anfds fd).events &&& event ≠ 0 ↔ ∃ w, s.loop.fds.Wants w fd event) ∧
    ((∃ w event, s.loop.fds.Wants w fd event) → ∀ event,
      s.loop.fds.kernel fd &&& event ≠ 0 ↔ ∃ w, s.loop.fds.Wants w fd event) := by
  have hinv := Inv.of_reachable h
  refine ⟨fun hreify event => ?_, ?_⟩
  · rw [hinv.sync.wanted fd hreify]
    exact hinv.ok.fds.wanted_iff fd event
  · rintro ⟨w, event, hw⟩
    exact (hinv.inStep hpolls).kernel_iff hinv.ok.fds hw

theorem kernel_reports_io : ioPolls.polls = true ∧
    (∀ event, (ioPolls.loop.fds.anfds 7).events &&& event ≠ 0 ↔
      ∃ w, ioPolls.loop.fds.Wants w 7 event) ∧
    ∀ event, ioPolls.loop.fds.kernel 7 &&& event ≠ 0 ↔ ∃ w, ioPolls.loop.fds.Wants w 7 event := by
  have hpolls : ioPolls.polls = true := by decide +kernel
  have hwants : ioPolls.loop.fds.Wants (some false) 7 evRead.toUInt8 := by
    refine ⟨?_, ?_, ?_⟩ <;> decide +kernel
  obtain ⟨hevents, hkernel⟩ := kernel_reports ioPolls_reachable hpolls 7
  exact ⟨hpolls, hevents (by decide +kernel), hkernel ⟨_, _, hwants⟩⟩

/-- The events of a report that a watcher is to get: those that it wants, when it is active and
waits for that descriptor. -/
def reported (s : State Thread ι T) (fd : Nat) (revents : UInt32) : Watcher ι → UInt32
  | .io w =>
      if s.loop.fds.active w ≠ 0 ∧ s.loop.fds.fd w = fd then s.loop.fds.events w &&& revents else 0
  | _ => 0

omit [DecidableEq Thread] [Add T] [Sub T] [Zero T] in
theorem Inv.reported_eq (h : s.Inv) (fd : Nat) (revents : UInt32) (x : Watcher ι) :
    s.reported fd revents x = s.loop.wantedOf (s.loop.fds.anfds fd).head revents x := by
  cases x with
  | io w => simp only [reported, Loop.wantedOf, h.ok.fds.listed w fd]
  | _ => rfl

/-- `fd_event` adds the events that are reported to those of every watcher that wants them, and
makes nobody else pending. -/
theorem event_delivered (h : Reachable cfg eventfd s) {fd : Nat} {revents : UInt32}
    (hstep : s.step cfg eventfd (.event fd revents) = some s') (x : Watcher ι) :
    s'.loop.queue.pendingEvents x =
        s.loop.queue.pendingEvents x ||| s.reported fd revents x ∧
      (s'.loop.queue.pending x ≠ 0 ↔
        s.loop.queue.pending x ≠ 0 ∨ s.reported fd revents x ≠ 0) := by
  have hinv := Inv.of_reachable h
  obtain ⟨hpolls, rfl⟩ := step_event hstep
  rw [hinv.reported_eq]
  exact Loop.fdEvent_report hinv.ok.manned.sound hinv.ok.fds (hinv.inStep hpolls) fd revents x

/-- The kernel has reported the descriptor. -/
def ioReported : Sample :=
  (ioPolls.step plain true (.event 7 evRead)).get (by decide +kernel)

theorem event_delivered_io :
    ioReported.loop.queue.pendingEvents (.io (some false)) =
        ioPolls.loop.queue.pendingEvents (.io (some false)) |||
          ioPolls.reported 7 evRead (.io (some false)) ∧
      (ioReported.loop.queue.pending (.io (some false)) ≠ 0 ↔
        ioPolls.loop.queue.pending (.io (some false)) ≠ 0 ∨
          ioPolls.reported 7 evRead (.io (some false)) ≠ 0) := by
  have hstep : ioPolls.step plain true (.event 7 evRead) = some ioReported :=
    (Option.some_get _).symm
  exact event_delivered ioPolls_reachable hstep (.io (some false))

end State
end Ev
end Cyan

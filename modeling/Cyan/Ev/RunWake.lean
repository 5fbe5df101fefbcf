import Cyan.Ev.RunEvents

/-!
# No send is lost

What `ev_async_send` and the loop do to the members that they share.

* `Shares` says what a step of the machine does to them.
* `Alert` is the invariant: who has been sent to is announced, what is announced
  has set off the alarm, and a loop that sleeps is not told by
  `pipe_write_skipped` alone.
* `State.awake`: a loop that sleeps while somebody has been sent to is about to be
  woken.
* `State.async_called`: and then it calls that watcher.
-/

namespace Cyan
namespace Ev

open Base

variable {Thread ι T : Type*} [DecidableEq Thread] [DecidableEq ι]
variable [LinearOrder T] [Add T] [Sub T] [Zero T]

namespace Send

/-- `sent` is set, and `async_pending` is not. -/
def announces : Send → Bool
  | .testFlag => true
  | .setFlag => true
  | _ => false

/-- The thread sets `pipe_write_skipped`, or writes to the pipe. -/
def alarms : Send → Bool
  | .setSkipped => true
  | .clearSkipped => true
  | .write => true
  | _ => false

/-- The thread looks whether it has to write. -/
def looks : Send → Bool
  | .testWanted => true
  | .clearSkipped => true
  | _ => false

end Send

/-- `pipecb` has not tested `async_pending`, or has found it set. -/
def PipePc.answers : PipePc ι → Bool
  | .read _ => false
  | .scan _ => false
  | _ => true

namespace Pc

/-- The loop wants to be written to. -/
def wants : Pc ι T → Bool
  | .wanted _ => true
  | .poll _ => true
  | _ => false

/-- `pipecb` runs. -/
def pipes : Pc ι T → Bool
  | .pipecb _ _ => true
  | _ => false

end Pc

namespace State

variable {s s' s₀ : State Thread ι T} {cfg : Config T} {eventfd : Bool} {a : Action Thread ι T}
variable {as : List (Action Thread ι T)} {w v : ι} {t : Thread} {p : Send} {now : T}
variable {on : ι × Send → Bool}

/-- A thread is at a place of `ev_async_send` with `on`. -/
def Sends (s : State Thread ι T) (on : ι × Send → Bool) : Prop :=
  ∃ t x, s.sending t = some x ∧ on x = true

/-- `backend_poll` has been told to wait. -/
def Asleep (s : State Thread ι T) : Prop :=
  ∃ wait, s.pc = .poll wait ∧ wait ≠ 0

/-- A step that the threads do not notice. -/
structure Quiet (s : State Thread ι T) (a : Action Thread ι T) (s' : State Thread ι T) :
    Prop where
  sending : s'.sending = s.sending
  asyncPending : s'.loop.asyncPending = s.loop.asyncPending
  pipeWriteSkipped : s'.loop.pipeWriteSkipped = s.loop.pipeWriteSkipped
  evpipe : s'.loop.evpipe = s.loop.evpipe
  reads : s.loop.PipeReads → s'.loop.PipeReads
  sent : ∀ w, s'.loop.Hailed w → s.loop.Hailed w
  hailed : ∀ w, s.loop.Hailed w → s'.loop.Hailed w ∨ s.Stops (.async w) a
  pipes : s.pc.pipes = false
  wants : s'.pc.wants = true → s'.loop.pipeWriteWanted = true ∨
    s.pc.wants = true ∧ s'.loop.pipeWriteWanted = s.loop.pipeWriteWanted
  asleep : s'.Asleep → s.Asleep ∨ s.loop.pipeWriteSkipped = false

/-- What a step does to the members that are shared. -/
inductive Shares (eventfd : Bool) (s : State Thread ι T) :
    Action Thread ι T → State Thread ι T → Prop
  | quiet {a : Action Thread ι T} {s' : State Thread ι T} (h : Quiet s a s') :
      Shares eventfd s a s'
  | send {t : Thread} (w : ι) (ht : s.sending t = none) :
      Shares eventfd s (.send t w)
        { s with sending := Function.update s.sending t (some (w, .sent)) }
  | thread {t : Thread} {w : ι} {p : Send} (ht : s.sending t = some (w, p)) :
      Shares eventfd s (.thread t) { s with
        loop := (stepSend s.loop w p).1
        sending := Function.update s.sending t ((stepSend s.loop w p).2.map (w, ·)) }
  | pipecb {p : PipePc ι} {next : Next} {now : T} (hpc : s.pc = .pipecb p next) :
      Shares eventfd s (.next now) (s.stepPipecb eventfd next p)

omit [DecidableEq Thread] [DecidableEq ι] [LinearOrder T] [Add T] [Sub T] in
/-- The loop has changed, in nothing that is shared. -/
theorem Quiet.of_same {l : Loop ι T} {pc : Pc ι T} {flags : RunFlags} {refs : Int}
    (hsame : l = { s.loop with
      queue := l.queue, timers := l.timers, activecnt := l.activecnt, rfeeds := l.rfeeds
      loopDone := l.loopDone, mnNow := l.mnNow, fds := l.fds })
    (hreads : s.loop.PipeReads → l.PipeReads) (hpipes : s.pc.pipes = false)
    (hnext : pc = s.pc ∨ pc.wants = false) :
    Quiet s a { s with loop := l, pc := pc, flags := flags, refs := refs } := by
  have hhailed : ∀ w, l.Hailed w ↔ s.loop.Hailed w := fun w => by
    have hasyncs : l.asyncs = s.loop.asyncs := (congrArg Loop.asyncs hsame).trans rfl
    have hsent : l.sent = s.loop.sent := (congrArg Loop.sent hsame).trans rfl
    rw [Loop.Hailed, Loop.Hailed, hasyncs, hsent]
  refine ⟨rfl, (congrArg Loop.asyncPending hsame).trans rfl,
    (congrArg Loop.pipeWriteSkipped hsame).trans rfl, (congrArg Loop.evpipe hsame).trans rfl,
    hreads, fun w => (hhailed w).mp, fun w hw => .inl ((hhailed w).mpr hw), hpipes,
    fun hw => .inr ⟨?_, ?_⟩, fun hw => .inl ?_⟩
  · rcases hnext with rfl | hnot
    · exact hw
    · cases hw.symm.trans hnot
  · exact (congrArg Loop.pipeWriteWanted hsame).trans rfl
  · rcases hnext with rfl | hnot
    · exact hw
    · obtain ⟨wait, hw, -⟩ := hw
      rw [show pc = .poll wait from hw] at hnot
      cases hnot

section

omit [DecidableEq Thread] [DecidableEq ι] [LinearOrder T] [Add T] [Sub T] [Zero T]

theorem pipes_of_polls (h : s.polls = true) : s.pc.pipes = false := by
  unfold State.polls at h
  split at h
  · rename_i hpc
    rw [hpc]
    rfl
  · cases h

theorem pipes_of_calls (h : s.calls = true) : s.pc.pipes = false := by
  unfold State.calls at h
  split at h
  · rename_i hpc
    rw [hpc]
    rfl
  · rename_i hpc
    rw [hpc]
    rfl
  · cases h

end

omit [DecidableEq Thread] [LinearOrder T] [Add T] [Sub T] in
theorem quiet_invoke {next : Next} (hpc : s.pc = .invoke next) : Quiet s a (s.stepInvoke next) := by
  have hnot : s.pc.pipes = false := by rw [hpc]; rfl
  unfold stepInvoke
  dsimp only
  split
  · rename_i p q htake
    split
    · exact .of_same rfl id hnot (.inl rfl)
    · exact .of_same rfl id hnot (.inr rfl)
    · exact .of_same rfl id hnot (.inr rfl)
  · split
    · cases next with
      | top => exact .of_same rfl id hnot (.inr rfl)
      | test => exact .of_same rfl id hnot (.inr rfl)
    · exact .of_same rfl id hnot (.inl rfl)

omit [DecidableEq Thread] in
theorem quiet_polled (hpc : s.pc = .polled) (now : T) :
    Quiet s a (s.enter (s.loop.polled now) .test) := by
  have hsame : s.loop.polled now = { s.loop with
      queue := (s.loop.polled now).queue, timers := (s.loop.polled now).timers
      activecnt := (s.loop.polled now).activecnt, rfeeds := (s.loop.polled now).rfeeds
      mnNow := now } := Loop.polled_same s.loop now
  have hfds : (s.loop.polled now).fds = s.loop.fds := (Loop.polled_same s.loop now).fds
  refine .of_same (l := (s.loop.polled now).invokePending) ?_ (fun hr => ?_) (by rw [hpc]; rfl)
    (.inr rfl)
  · unfold Loop.invokePending
    rw [hsame]
  · have hreads : (s.loop.polled now).PipeReads := by
      rw [Loop.PipeReads, hfds]
      exact hr
    exact hreads

theorem shares_loop (hstep : s.stepLoop cfg eventfd now = some s') :
    Shares eventfd s (.next now) s' := by
  unfold stepLoop at hstep
  split at hstep
  case h_1 => cases hstep
  case h_2 next hpc =>
    cases hstep
    exact .quiet (quiet_invoke hpc)
  case h_3 next hpc =>
    cases hstep
    exact .quiet (.of_same rfl id (by rw [hpc]; rfl) (.inr rfl))
  case h_4 p next hpc =>
    cases hstep
    exact .pipecb hpc
  case h_5 hpc =>
    have hnot : s.pc.pipes = false := by rw [hpc]; rfl
    split at hstep
    · cases hstep
      exact .quiet (.of_same rfl id hnot (.inr rfl))
    · cases hstep
      refine .quiet ⟨rfl, rfl, rfl, rfl, fun hr => ?_, fun _ => id, fun _ => .inl, hnot,
        fun _ => .inl rfl,
        fun hw => ?_⟩
      · have hreads : s.loop.fds.reify.active none ≠ 0 →
            s.loop.fds.reify.events none = evRead := by
          rw [Fds.reify_active, Fds.reify_events]
          exact hr
        exact hreads
      · obtain ⟨_, hw, -⟩ := hw
        cases hw
  case h_6 prev hpc =>
    cases hstep
    refine .quiet ⟨rfl, rfl, rfl, rfl, id, fun _ => id, fun _ => .inl, by rw [hpc]; rfl,
      fun _ => .inr ⟨by rw [hpc]; rfl, rfl⟩, fun hw => .inr ?_⟩
    obtain ⟨wait, hw, hwait⟩ := hw
    cases hw
    unfold Loop.waittime at hwait
    by_contra hskipped
    rw [if_pos (by simp [Bool.eq_true_of_not_eq_false hskipped])] at hwait
    exact hwait rfl
  case h_7 wait hpc =>
    cases hstep
    refine .quiet ⟨rfl, rfl, rfl, rfl, id, fun _ => id, fun _ => .inl, by rw [hpc]; rfl,
      fun hw => ?_, fun hw => ?_⟩
    · cases hw
    · obtain ⟨_, hw, -⟩ := hw
      cases hw
  case h_8 hpc =>
    cases hstep
    exact .quiet (quiet_polled hpc now)
  case h_9 hpc =>
    have hnot : s.pc.pipes = false := by rw [hpc]; rfl
    split at hstep
    · cases hstep
      exact .quiet (.of_same rfl id hnot (.inr rfl))
    · cases hstep
      exact .quiet (.of_same rfl id hnot (.inr rfl))

theorem Inv.shares (h : s.Inv) (ha : s.Allowed a) (hstep : s.step cfg eventfd a = some s') :
    Shares eventfd s a s' := by
  cases a with
  | call c =>
      obtain ⟨hcalls, rfl⟩ := step_call hstep
      have hcalled := (h.ok.call ha).2
      exact .quiet ⟨rfl, hcalled.asyncPending, hcalled.pipeWriteSkipped, hcalled.evpipe,
        hcalled.reads, hcalled.sent, hcalled.hailed, pipes_of_calls hcalls,
        fun hw => .inr ⟨hw, hcalled.pipeWriteWanted⟩, .inl⟩
  | run flags =>
      obtain ⟨hpc, rfl⟩ := step_run hstep
      exact .quiet (.of_same rfl id (by rw [hpc]; rfl) (.inr rfl))
  | next now => exact shares_loop hstep
  | event fd revents =>
      obtain ⟨hpolls, rfl⟩ := step_event hstep
      have hsame := Loop.fdEvent_same s.loop fd revents
      have hquiet : Quiet s (.event fd revents) { s with
          loop := s.loop.fdEvent fd revents, pc := s.pc, flags := s.flags, refs := s.refs } := by
        refine .of_same ?_ (fun hr => ?_) (pipes_of_polls hpolls) (.inl rfl)
        · rw [hsame]
        · rw [Loop.PipeReads, hsame.fds]
          exact hr
      exact .quiet hquiet
  | kill fd =>
      obtain ⟨hpolls, rfl⟩ := step_kill hstep
      obtain ⟨-, hkilled, -, hactive⟩ := h.ok.kill ha
      have hsame : s.loop.kill fd = { s.loop with
          queue := (s.loop.kill fd).queue, activecnt := (s.loop.kill fd).activecnt
          fds := (s.loop.kill fd).fds } := by
        unfold Loop.kill Loop.close
        rw [hkilled.rest]
      have hquiet : Quiet s (.kill fd) { s with
          loop := s.loop.kill fd, pc := s.pc, flags := s.flags, refs := s.refs } := by
        refine .of_same ?_ (fun hr hp => ?_) (pipes_of_polls hpolls) (.inl rfl)
        · rw [hsame]
        · rw [hactive, if_neg ha] at hp
          have hevents : (s.loop.kill fd).fds.events = s.loop.fds.events := hkilled.apart.events
          rw [hevents]
          exact hr hp
      exact .quiet hquiet
  | send t w =>
      obtain ⟨ht, rfl⟩ := step_send hstep
      exact .send w ht
  | thread t =>
      obtain ⟨w, p, ht, rfl⟩ := step_thread hstep
      exact .thread ht

/-! ## The invariant -/

/-- `w` has been sent to, and the loop is told or is about to be. -/
def Announced (s : State Thread ι T) (w : ι) : Prop :=
  s.loop.asyncPending = true ∨ s.Sends (fun x => x.1 = w && x.2.announces) ∨
    ∃ ws next, s.pc = .pipecb (.scan ws) next ∧ w ∈ ws

/-- `async_pending` is set, and the loop wakes up or runs `pipecb`. -/
def Alarmed (s : State Thread ι T) : Prop :=
  s.loop.pipeWriteSkipped = true ∨ 0 < s.loop.evpipe ∨ s.Sends (·.2.alarms) ∨
    ∃ p next, s.pc = .pipecb p next ∧ p.answers = true

/-- The invariant. -/
structure Alert (s : State Thread ι T) : Prop where
  hailed : ∀ w, s.loop.Hailed w → s.Announced w
  pending : s.loop.asyncPending = true → s.Alarmed
  wants : s.pc.wants = true → s.loop.pipeWriteWanted = true
  skipped : s.Asleep → s.loop.pipeWriteSkipped = true → s.Sends (·.2.looks)
  reads : s.loop.PipeReads

section

omit [DecidableEq ι] [LinearOrder T] [Add T] [Sub T] [Zero T]

/-- A thread gets on; whoever else sends stays where it is. -/
theorem Sends.move {l : Loop ι T} {k : Option (ι × Send)} (h : s.Sends on) (t : Thread) :
    Sends { s with loop := l, sending := Function.update s.sending t k } on ∨
      ∃ x, s.sending t = some x ∧ on x = true := by
  obtain ⟨u, x, hu, hx⟩ := h
  by_cases hut : u = t
  · subst hut
    exact .inr ⟨x, hu, hx⟩
  · exact .inl ⟨u, x, (Function.update_of_ne hut ..).trans hu, hx⟩

/-- The place that a thread gets to counts. -/
theorem Sends.of_move {l : Loop ι T} {x : ι × Send} (hx : on x = true) (t : Thread) :
    Sends { s with loop := l, sending := Function.update s.sending t (some x) } on :=
  ⟨t, x, Function.update_self .., hx⟩

end

omit [DecidableEq Thread] [LinearOrder T] [Add T] [Sub T] in
theorem Alert.quiet (h : s.Alert) (hq : Quiet s a s') : s'.Alert := by
  have hsends : ∀ {on}, s.Sends on → s'.Sends on := fun hs => by
    rw [Sends, hq.sending]
    exact hs
  have hnot : ∀ {p next}, s.pc ≠ .pipecb p next := fun hpc => by
    have hpipes := hq.pipes
    rw [hpc] at hpipes
    cases hpipes
  refine ⟨fun w hw => ?_, fun hpending => ?_, fun hw => ?_, fun hw hskipped => ?_,
    hq.reads h.reads⟩
  · rcases h.hailed w (hq.sent w hw) with hpending | hthread | ⟨ws, next, hpc, -⟩
    · exact .inl (hq.asyncPending.trans hpending)
    · exact .inr (.inl (hsends hthread))
    · exact absurd hpc hnot
  · rcases h.pending (hq.asyncPending.symm.trans hpending) with hskipped | hevpipe | hthread |
      ⟨p, next, hpc, -⟩
    · exact .inl (hq.pipeWriteSkipped.trans hskipped)
    · exact .inr (.inl (hq.evpipe ▸ hevpipe))
    · exact .inr (.inr (.inl (hsends hthread)))
    · exact absurd hpc hnot
  · rcases hq.wants hw with hwanted | ⟨hwants, hsame⟩
    · exact hwanted
    · exact hsame.trans (h.wants hwants)
  · have hskipped := hq.pipeWriteSkipped.symm.trans hskipped
    rcases hq.asleep hw with hasleep | hnone
    · exact hsends (h.skipped hasleep hskipped)
    · cases hnone.symm.trans hskipped

section

omit [LinearOrder T] [Add T] [Sub T]

/-- A call of `ev_async_send` begins. -/
theorem Alert.send (h : s.Alert) (ht : s.sending t = none) (w : ι) :
    Alert { s with sending := Function.update s.sending t (some (w, .sent)) } := by
  have hsends : ∀ {on}, s.Sends on →
      Sends { s with sending := Function.update s.sending t (some (w, .sent)) } on := by
    rintro on ⟨u, x, hu, hx⟩
    have hut : u ≠ t := by
      rintro rfl
      cases ht.symm.trans hu
    exact ⟨u, x, (Function.update_of_ne hut ..).trans hu, hx⟩
  exact ⟨fun v hv => (h.hailed v hv).imp id (Or.imp hsends id),
    fun hp => (h.pending hp).imp id (Or.imp id (Or.imp hsends id)), h.wants,
    fun hw hs => hsends (h.skipped hw hs), h.reads⟩

/-- A thread takes a step of `ev_async_send`. -/
theorem Alert.thread (h : s.Alert) (ht : s.sending t = some (w, p)) :
    Alert { s with
      loop := (stepSend s.loop w p).1
      sending := Function.update s.sending t ((stepSend s.loop w p).2.map (w, ·)) } := by
  -- the thread is no witness of anything that its place does not stand for
  have hsends : ∀ {on} {l : Loop ι T} {k}, on (w, p) = false → s.Sends on →
      Sends { s with loop := l, sending := Function.update s.sending t k } on := by
    intro on l k hon hs
    refine (hs.move t).resolve_right ?_
    rintro ⟨x, hx, honx⟩
    cases ht.symm.trans hx
    cases hon.symm.trans honx
  cases p with
  | sent =>
      refine ⟨fun v hv => ?_, fun hp => ?_, h.wants, fun hw hs => hsends rfl (h.skipped hw hs),
        h.reads⟩
      · by_cases hvw : v = w
        · exact .inr (.inl (.of_move (by simp [Send.announces, hvw]) t))
        · have hsent : Function.update s.loop.sent w true v = true := hv.2
          rw [Function.update_of_ne hvw] at hsent
          exact (h.hailed v ⟨hv.1, hsent⟩).imp id
            (Or.imp (hsends (by simp [Send.announces])) id)
      · exact (h.pending hp).imp id (Or.imp id (Or.imp (hsends rfl) id))
  | testFlag =>
      by_cases hflag : s.loop.asyncPending = true
      · exact ⟨fun v hv => .inl hflag,
          fun hp => (h.pending hp).imp id (Or.imp id (Or.imp (hsends rfl) id)), h.wants,
          fun hw hs => hsends rfl (h.skipped hw hs), h.reads⟩
      · simp only [stepSend, if_neg hflag]
        refine ⟨fun v hv => ?_, fun hp => absurd hp hflag, h.wants,
          fun hw hs => hsends rfl (h.skipped hw hs), h.reads⟩
        by_cases hvw : v = w
        · exact .inr (.inl (.of_move (by simp [Send.announces, hvw]) t))
        · exact (h.hailed v hv).imp id (Or.imp (hsends (by simp [Ne.symm hvw])) id)
  | setFlag =>
      exact ⟨fun v hv => .inl rfl, fun hp => .inr (.inr (.inl (.of_move rfl t))), h.wants,
        fun hw hs => hsends rfl (h.skipped hw hs), h.reads⟩
  | setSkipped =>
      exact ⟨fun v hv => (h.hailed v hv).imp id (Or.imp (hsends (by simp [Send.announces])) id),
        fun hp => .inl rfl, h.wants, fun hw hs => .of_move rfl t, h.reads⟩
  | testWanted =>
      refine ⟨fun v hv => (h.hailed v hv).imp id (Or.imp (hsends (by simp [Send.announces])) id),
        fun hp => (h.pending hp).imp id (Or.imp id (Or.imp (hsends rfl) id)), h.wants,
        fun hw hs => ?_, h.reads⟩
      -- the loop sleeps, so it has set `pipe_write_wanted` before
      obtain ⟨wait, hpc, -⟩ := id hw
      have hwanted := h.wants (by rw [show s.pc = .poll wait from hpc]; rfl)
      simp only [stepSend, if_pos hwanted]
      exact .of_move rfl t
  | clearSkipped =>
      exact ⟨fun v hv => (h.hailed v hv).imp id (Or.imp (hsends (by simp [Send.announces])) id),
        fun hp => .inr (.inr (.inl (.of_move rfl t))), h.wants,
        fun _ hs => (by cases hs), h.reads⟩
  | write =>
      exact ⟨fun v hv => (h.hailed v hv).imp id (Or.imp (hsends (by simp [Send.announces])) id),
        fun hp => .inr (.inl (Nat.succ_pos _)), h.wants, fun hw hs => hsends rfl (h.skipped hw hs),
        h.reads⟩

end

omit [DecidableEq Thread] [Add T] [Sub T] in
/-- `pipecb` is announced what it has not scanned. -/
theorem Alert.pipecb {q : PipePc ι} {next : Next} (h : s.Alert) (hinv : s.Inv)
    (hpc : s.pc = .pipecb q next) : (s.stepPipecb eventfd next q).Alert := by
  have hannounced : ∀ {w}, (∀ ws, q ≠ .scan ws) → s.Announced w →
      s.loop.asyncPending = true ∨ s.Sends (fun x => x.1 = w && x.2.announces) := by
    rintro w hscan (hp | hs | ⟨ws, next', hpc', -⟩)
    · exact .inl hp
    · exact .inr hs
    · cases hpc.symm.trans hpc'
      exact absurd rfl (hscan ws)
  cases q with
  | read revents =>
      refine ⟨fun w hw => ?_, fun _ => .inr (.inr (.inr ⟨_, next, rfl, rfl⟩)),
        fun hw => (by cases hw), fun hw => ?_, h.reads⟩
      · exact (hannounced (fun _ hq => by cases hq) (h.hailed w hw)).imp id .inl
      · obtain ⟨_, hw, -⟩ := hw
        cases hw
  | skipped =>
      refine ⟨fun w hw => ?_, fun _ => .inr (.inr (.inr ⟨_, next, rfl, rfl⟩)),
        fun hw => (by cases hw), fun hw => ?_, h.reads⟩
      · exact (hannounced (fun _ hq => by cases hq) (h.hailed w hw)).imp id .inl
      · obtain ⟨_, hw, -⟩ := hw
        cases hw
  | pending =>
      have hkept : ∀ w, s.loop.Hailed w →
          s.loop.asyncPending = true ∨ s.Sends (fun x => x.1 = w && x.2.announces) :=
        fun w hw => hannounced (fun _ hq => by cases hq) (h.hailed w hw)
      unfold stepPipecb
      dsimp only
      split
      · refine ⟨fun w hw => (hkept w hw).imp id .inl,
          fun _ => .inr (.inr (.inr ⟨_, next, rfl, rfl⟩)), fun hw => (by cases hw), fun hw => ?_,
          h.reads⟩
        obtain ⟨_, hw, -⟩ := hw
        cases hw
      · rename_i hnone
        refine ⟨fun w hw => (hkept w hw).imp id .inl, fun hp => absurd hp hnone,
          fun hw => (by cases hw), fun hw => ?_, h.reads⟩
        obtain ⟨_, hw, -⟩ := hw
        cases hw
  | clear =>
      refine ⟨fun w hw => .inr (.inr ⟨_, next, rfl, ?_⟩), fun hp => (by cases hp),
        fun hw => (by cases hw), fun hw => ?_, h.reads⟩
      · exact List.mem_reverse.mpr (hinv.ok.asyncs.mem_watchers.mpr hw.1)
      · obtain ⟨_, hw, -⟩ := hw
        cases hw
  | scan ws =>
      have halarmed : s.loop.asyncPending = true →
          s.loop.pipeWriteSkipped = true ∨ 0 < s.loop.evpipe ∨ s.Sends (·.2.alarms) := by
        intro hp
        rcases h.pending hp with hskipped | hevpipe | hs | ⟨q, next', hpc', hq⟩
        · exact .inl hskipped
        · exact .inr (.inl hevpipe)
        · exact .inr (.inr hs)
        · cases hpc.symm.trans hpc'
          cases hq
      cases ws with
      | nil =>
          refine ⟨fun w hw => ?_, fun hp => (halarmed hp).imp id (Or.imp id .inl),
            fun hw => (by cases hw), fun hw => ?_, h.reads⟩
          · rcases h.hailed w hw with hp | hs | ⟨ws, next', hpc', hmem⟩
            · exact .inl hp
            · exact .inr (.inl hs)
            · cases hpc.symm.trans hpc'
              cases hmem
          · obtain ⟨_, hw, -⟩ := hw
            cases hw
      | cons w ws =>
          have hsame : s.loop.pipecbStep w = { s.loop with
              queue := (s.loop.pipecbStep w).queue, sent := (s.loop.pipecbStep w).sent } := by
            unfold Loop.pipecbStep
            split <;> rfl
          have hsent : (s.loop.pipecbStep w).sent = Function.update s.loop.sent w false := by
            unfold Loop.pipecbStep
            split
            · rfl
            · rename_i hnot
              rw [← Bool.eq_false_of_not_eq_true hnot, Function.update_eq_self]
          have hasyncs : (s.loop.pipecbStep w).asyncs = s.loop.asyncs :=
            (congrArg Loop.asyncs hsame).trans rfl
          have hpending : (s.loop.pipecbStep w).asyncPending = s.loop.asyncPending :=
            (congrArg Loop.asyncPending hsame).trans rfl
          refine ⟨fun v hv => ?_, fun hp => ?_, fun hw => (by cases hw), fun hw => ?_, ?_⟩
          · have hvsent : (s.loop.pipecbStep w).sent v = true := hv.2
            have hvactive : (s.loop.pipecbStep w).asyncs.active v ≠ 0 := hv.1
            rw [hsent] at hvsent
            rw [hasyncs] at hvactive
            have hne : v ≠ w := by
              rintro rfl
              rw [Function.update_self] at hvsent
              cases hvsent
            rw [Function.update_of_ne hne] at hvsent
            rcases h.hailed v ⟨hvactive, hvsent⟩ with hp | hs | ⟨ws', next', hpc', hmem⟩
            · exact .inl (hpending.trans hp)
            · exact .inr (.inl hs)
            · cases hpc.symm.trans hpc'
              exact .inr (.inr ⟨ws, next, rfl, (List.mem_cons.mp hmem).resolve_left hne⟩)
          · have hskipped : (s.loop.pipecbStep w).pipeWriteSkipped = s.loop.pipeWriteSkipped :=
              (congrArg Loop.pipeWriteSkipped hsame).trans rfl
            have hevpipe : (s.loop.pipecbStep w).evpipe = s.loop.evpipe :=
              (congrArg Loop.evpipe hsame).trans rfl
            rcases halarmed (hpending.symm.trans hp) with hs | he | hs
            · exact .inl (hskipped.trans hs)
            · exact .inr (.inl (hevpipe ▸ he))
            · exact .inr (.inr (.inl hs))
          · obtain ⟨_, hw, -⟩ := hw
            cases hw
          · have hfds : (s.loop.pipecbStep w).fds = s.loop.fds :=
              (congrArg Loop.fds hsame).trans rfl
            have hreads : (s.loop.pipecbStep w).PipeReads := by
              rw [Loop.PipeReads, hfds]
              exact h.reads
            exact hreads

theorem Alert.step (h : s.Alert) (hinv : s.Inv) (ha : s.Allowed a)
    (hstep : s.step cfg eventfd a = some s') : s'.Alert := by
  cases hinv.shares ha hstep with
  | quiet hq => exact h.quiet hq
  | send w ht => exact h.send ht w
  | thread ht => exact h.thread ht
  | pipecb hpc => exact h.pipecb hinv hpc

omit [DecidableEq Thread] [LinearOrder T] [Add T] [Sub T] in
theorem Alert.init (garbage : ι) (mnNow : T) :
    Alert (State.init garbage mnNow : State Thread ι T) where
  hailed _ hw := absurd rfl hw.1
  pending hp := by cases hp
  wants hw := by cases hw
  skipped _ hs := by cases hs
  reads hp := absurd rfl hp

theorem Alert.of_reachable (h : Reachable cfg eventfd s) : s.Alert := by
  refine (Machine.ReachableUnder.invariant (I := fun s => s.Inv ∧ s.Alert) (fun s hs => ?_)
    (fun s a s' hI ha hstep => ?_) h).2
  · obtain ⟨garbage, mnNow, rfl⟩ := hs
    exact ⟨.init garbage mnNow, .init garbage mnNow⟩
  · exact ⟨hI.1.step ha hstep, hI.2.step hI.1 ha hstep⟩

/-! ## Waking up -/

/-- While the loop sleeps and `w` has been sent to, a thread has not finished with the pipe, or
there is something in the pipe, and the kernel has been asked for it. -/
theorem awake (h : Reachable cfg eventfd s) (hasleep : s.Asleep) (hw : s.loop.Hailed w) :
    (∃ t v p, s.sending t = some (v, p) ∧ p ≠ .sent) ∨
      0 < s.loop.evpipe ∧ ∃ fd : Nat, s.loop.fds.fd none = fd ∧ none ∈ (s.loop.fds.anfds fd).head ∧
        (s.loop.fds.anfds fd).reify = 0 ∧ s.loop.fds.kernel fd &&& evRead.toUInt8 ≠ 0 := by
  have hinv := Inv.of_reachable h
  have halert := Alert.of_reachable h
  obtain ⟨wait, hpc, hwait⟩ := id hasleep
  have hthread : ∀ {on : ι × Send → Bool}, (∀ v, on (v, .sent) = false) → s.Sends on →
      ∃ t v p, s.sending t = some (v, p) ∧ p ≠ .sent := by
    rintro on hon ⟨t, ⟨v, p⟩, ht, hp⟩
    refine ⟨t, v, p, ht, ?_⟩
    rintro rfl
    cases (hon v).symm.trans hp
  rcases halert.hailed w hw with hpending | hs | ⟨ws, next, hpc', -⟩
  · rcases halert.pending hpending with hskipped | hevpipe | hs | ⟨q, next, hpc', -⟩
    · exact .inl (hthread (fun _ => rfl) (halert.skipped hasleep hskipped))
    · refine .inr ⟨hevpipe, ?_⟩
      have hactive := hinv.pipe (.inr (.inl hpending))
      have hfd : s.loop.fds.fd none = (s.loop.fds.fd none).toNat :=
        (Int.toNat_of_nonneg (hinv.ok.fds.fd_nonneg none hactive)).symm
      have hstage := hinv.stage
      unfold Stage at hstage
      rw [hpc] at hstage
      have hlisted := (hinv.ok.fds.listed none _).mpr ⟨hactive, hfd⟩
      refine ⟨_, hfd, hlisted, ?_, ?_⟩
      · by_contra hreify
        rw [hstage.2.settled _ hreify] at hlisted
        cases hlisted
      · have hwants : s.loop.fds.Wants none (s.loop.fds.fd none).toNat evRead.toUInt8 := by
          refine ⟨hactive, hfd, ?_⟩
          rw [halert.reads hactive]
          decide
        exact (hstage.2.kernel_iff hinv.ok.fds hwants _).mpr ⟨none, hwants⟩
    · exact .inl (hthread (fun _ => rfl) hs)
    · cases hpc.symm.trans hpc'
  · exact .inl (hthread (fun _ => by simp [Send.announces]) hs)
  · cases hpc.symm.trans hpc'

/-- An async watcher is started, the loop polls, and a thread has set `sent`. -/
def asyncHailed : Sample :=
  ((machine plain true).execUnder Allowed (.init false 0)
    ([.call (.asyncStart false 9), .run ⟨false, false⟩] ++ List.replicate 7 (.next 0) ++
      [.send () false, .thread ()])).get (by decide +kernel)

/-- The thread has come to the end of `ev_async_send`. -/
def asyncSent : Sample :=
  ((machine plain true).execUnder Allowed asyncHailed (List.replicate 6 (.thread ()))).get
    (by decide +kernel)

theorem asyncHailed_reachable : Reachable plain true asyncHailed :=
  .of_execUnder ⟨false, 0, rfl⟩ (Option.some_get _).symm

theorem asyncSent_exec :
    (contract plain true).exec asyncHailed (List.replicate 6 (.thread ())) = some asyncSent :=
  exec_contract (Option.some_get _).symm

theorem asyncSent_reachable : Reachable plain true asyncSent :=
  asyncHailed_reachable.exec_restrict asyncSent_exec

theorem asyncSent_hailed : asyncSent.loop.Hailed false := by
  constructor <;> decide +kernel

theorem awake_run : asyncSent.Asleep ∧
    ((∃ t v p, asyncSent.sending t = some (v, p) ∧ p ≠ .sent) ∨
      0 < asyncSent.loop.evpipe ∧ ∃ fd : Nat, asyncSent.loop.fds.fd none = fd ∧
        none ∈ (asyncSent.loop.fds.anfds fd).head ∧ (asyncSent.loop.fds.anfds fd).reify = 0 ∧
        asyncSent.loop.fds.kernel fd &&& evRead.toUInt8 ≠ 0) := by
  have hasleep : asyncSent.Asleep := ⟨60, by decide +kernel, by decide⟩
  exact ⟨hasleep, awake asyncSent_reachable hasleep asyncSent_hailed⟩

/-! ## Answering -/

/-- The callback of `w` is on its way: the async watcher is pending, or `pipecb` is to find that
it has been sent to. -/
def Coming (s : State Thread ι T) (w : ι) : Prop :=
  s.loop.queue.pending (.async w) ≠ 0 ∨ s.loop.Hailed w ∧
    (s.loop.asyncPending = true ∧
      (s.loop.queue.pending (.io none) ≠ 0 ∨
        ∃ p next, s.pc = .pipecb p next ∧ ∀ ws, p ≠ .scan ws) ∨
      ∃ ws next, s.pc = .pipecb (.scan ws) next ∧ w ∈ ws)

/-- The step calls `w`, or stops it. -/
def Answers (s : State Thread ι T) (a : Action Thread ι T) (s' : State Thread ι T) (w : ι) : Prop :=
  (∃ events, s'.Begins (.async w) events) ∨ s.Stops (.async w) a

omit [DecidableEq Thread] [DecidableEq ι] [Add T] [Sub T] [Zero T] in
/-- Whoever is pending stays pending, or is called, or is stopped. -/
theorem QueueStep.pending {x : Watcher ι} (h : QueueStep s a s') (hinv : s.Inv) (hinv' : s'.Inv)
    (hx : s.loop.queue.pending x ≠ 0) :
    s'.loop.queue.pending x ≠ 0 ∨ (∃ events, s'.Begins x events) ∨ s.Stops x a := by
  obtain ⟨⟨_, events⟩, he, rfl⟩ := List.mem_map.mp (hinv.ok.manned.sound.pending_iff.mp hx)
  rcases h.kept _ _ events he with ⟨events', he', -⟩ | ⟨hbegins | hstops, -⟩
  · exact .inl (hinv'.ok.manned.sound.pending_of_mem (List.mem_map.mpr ⟨_, he', rfl⟩))
  · exact .inr (.inl ⟨events, hbegins⟩)
  · exact .inr (.inr hstops)

omit [DecidableEq Thread] [DecidableEq ι] [LinearOrder T] [Add T] [Sub T] [Zero T] in
/-- Nobody stops `pipe_w`. -/
theorem not_stops_pipe (ha : s.Allowed a) : ¬s.Stops (.io none) a := by
  intro hstops
  cases a with
  | call c => cases c <;> cases hstops
  | kill fd =>
      obtain ⟨u, hu, heq⟩ := hstops
      cases heq
      exact ha hu
  | _ => exact hstops

/-- `pipe_w` stays pending until `pipecb` begins. -/
theorem Inv.pipe_pending (hinv : s.Inv) (ha : s.Allowed a) (hstep : s.step cfg eventfd a = some s')
    (hpending : s.loop.queue.pending (.io none) ≠ 0) :
    s'.loop.queue.pending (.io none) ≠ 0 ∨ ∃ events next, s'.pc = .pipecb (.read events) next := by
  have hinv' := hinv.step ha hstep
  rcases (hinv.queueStep ha hstep).pending hinv hinv' hpending with
    hpending | ⟨events, ⟨next, hpc⟩ | ⟨-, next, hpc⟩⟩ | hstops
  · exact .inl hpending
  · have hstage := hinv'.stage
    unfold Stage at hstage
    rw [hpc] at hstage
    exact absurd rfl hstage
  · exact .inr ⟨events, next, hpc⟩
  · exact absurd hstops (not_stops_pipe ha)

section

omit [DecidableEq Thread] [LinearOrder T] [Add T] [Sub T] [Zero T]

theorem hailed_pipecbStep (hw : s.loop.Hailed w) (hwv : w ≠ v) :
    (s.loop.pipecbStep v).Hailed w := by
  unfold Loop.pipecbStep
  split
  · exact ⟨hw.1, (Function.update_of_ne hwv ..).trans hw.2⟩
  · exact hw

theorem pending_pipecbStep (hw : s.loop.Hailed w) :
    (s.loop.pipecbStep w).queue.pending (.async w) ≠ 0 := by
  unfold Loop.pipecbStep
  rw [if_pos hw.2]
  exact Queue.feedEvent_pending_self s.loop.queue (.async w) evAsync

theorem hailed_stepSend (hw : s.loop.Hailed w) : (stepSend s.loop v p).1.Hailed w := by
  cases p with
  | sent =>
      refine ⟨hw.1, ?_⟩
      change Function.update s.loop.sent v true w = true
      rw [Function.update_apply]
      split
      · rfl
      · exact hw.2
  | _ => exact hw

end

/-- What a step of `pipecb` does for a watcher that has been sent to. -/
theorem Coming.pipecb {q : PipePc ι} {next : Next} (h : s.Coming w)
    (hnone : s.loop.queue.pending (.async w) = 0) (hinv : s.Inv) (hpc : s.pc = .pipecb q next)
    (hstep : s.step cfg eventfd (.next now) = some (s.stepPipecb eventfd next q)) :
    (s.stepPipecb eventfd next q).Coming w := by
  obtain ⟨hw, hway⟩ := h.resolve_left (not_not.mpr hnone)
  have hflag : (∀ ws, q ≠ .scan ws) → s.loop.asyncPending = true := by
    intro hq
    rcases hway with ⟨hp, -⟩ | ⟨ws, next', hpc', -⟩
    · exact hp
    · cases hpc.symm.trans hpc'
      exact absurd rfl (hq ws)
  cases q with
  | read revents =>
      exact .inr ⟨hw, .inl ⟨hflag (fun _ hq => by cases hq), .inr ⟨_, next, rfl, fun _ hq => by
        cases hq⟩⟩⟩
  | skipped =>
      exact .inr ⟨hw, .inl ⟨hflag (fun _ hq => by cases hq), .inr ⟨_, next, rfl, fun _ hq => by
        cases hq⟩⟩⟩
  | pending =>
      have hp := hflag fun _ hq => by cases hq
      refine .inr ⟨hw, .inl ⟨hp, .inr ⟨.clear, next, ?_, fun _ hq => by cases hq⟩⟩⟩
      exact if_pos hp
  | clear =>
      refine .inr ⟨hw, .inr ⟨_, next, rfl, ?_⟩⟩
      exact List.mem_reverse.mpr (hinv.ok.asyncs.mem_watchers.mpr hw.1)
  | scan ws =>
      have hmem : s.loop.asyncPending = true ∧ s.loop.queue.pending (.io none) ≠ 0 ∨ w ∈ ws := by
        rcases hway with ⟨hp, hpipe | ⟨q, next', hpc', hq⟩⟩ | ⟨ws', next', hpc', hmem⟩
        · exact .inl ⟨hp, hpipe⟩
        · cases hpc.symm.trans hpc'
          exact absurd rfl (hq ws)
        · cases hpc.symm.trans hpc'
          exact .inr hmem
      cases ws with
      | nil =>
          obtain ⟨hp, hpipe⟩ := hmem.resolve_right List.not_mem_nil
          exact .inr ⟨hw, .inl ⟨hp, .inl hpipe⟩⟩
      | cons v ws =>
          by_cases hwv : w = v
          · subst hwv
            exact .inl (pending_pipecbStep hw)
          · refine .inr ⟨hailed_pipecbStep hw hwv, ?_⟩
            rcases hmem with ⟨hp, hpipe⟩ | hmem
            · have hp' : (s.loop.pipecbStep v).asyncPending = true := by
                unfold Loop.pipecbStep
                split <;> exact hp
              have hallowed : s.Allowed (.next now) := trivial
              rcases hinv.pipe_pending hallowed hstep hpipe with hpipe' | ⟨events, next', hpc'⟩
              · exact .inl ⟨hp', .inl hpipe'⟩
              · cases hpc'
            · exact .inr ⟨ws, next, rfl, (List.mem_cons.mp hmem).resolve_left hwv⟩

theorem Coming.step (h : s.Coming w) (hinv : s.Inv) (ha : s.Allowed a)
    (hstep : s.step cfg eventfd a = some s') : s'.Coming w ∨ s.Answers a s' w := by
  have hinv' := hinv.step ha hstep
  by_cases hnone : s.loop.queue.pending (.async w) = 0
  · obtain ⟨hw, hway⟩ := h.resolve_left (not_not.mpr hnone)
    cases hinv.shares ha hstep with
    | quiet hq =>
        have hnot : ∀ {p next}, s.pc ≠ .pipecb p next := fun hpc => by
          have hpipes := hq.pipes
          rw [hpc] at hpipes
          cases hpipes
        rcases hq.hailed w hw with hw' | hstops
        · rcases hway with ⟨hp, hpipe | ⟨_, _, hpc, -⟩⟩ | ⟨_, _, hpc, -⟩
          · refine .inl (.inr ⟨hw', .inl ⟨hq.asyncPending.trans hp, ?_⟩⟩)
            refine (hinv.pipe_pending ha hstep hpipe).imp id ?_
            rintro ⟨events, next, hpc⟩
            exact ⟨_, next, hpc, fun ws hq => by cases hq⟩
          · exact absurd hpc hnot
          · exact absurd hpc hnot
        · exact .inr (.inr hstops)
    | send v ht => exact .inl h
    | @thread t v p ht =>
        refine .inl (.inr ⟨hailed_stepSend hw, ?_⟩)
        cases p with
        | setFlag => exact hway.imp (fun hp => ⟨rfl, hp.2⟩) id
        | _ => exact hway
    | pipecb hpc => exact .inl (h.pipecb hnone hinv hpc hstep)
  · exact ((hinv.queueStep ha hstep).pending hinv hinv' hnone).imp .inl id

theorem Coming.answered (h : s₀.Coming w) (h₀ : Reachable cfg eventfd s₀)
    (hrun : (contract cfg eventfd).exec s₀ as = some s)
    (hpc : s.pc = .top ∨ s.pc = .test ∨ s.pc = .outside) :
    ∃ s₁ a s₂ after, (contract cfg eventfd).Moment s₀ as s₁ a s₂ after ∧ s₁.Answers a s₂ w := by
  refine (Machine.exec_or_moment (I := Reachable cfg eventfd) (P := fun u => u.Coming w)
    (fun s a s' hs hstep => ?_) (fun s a s' hs hP hstep => ?_) h₀ h hrun).resolve_left
    fun hlast => ?_
  · obtain ⟨hallowed, hstep⟩ := Machine.restrict_step.mp hstep
    exact hs.step hallowed hstep
  · obtain ⟨hallowed, hstep⟩ := Machine.restrict_step.mp hstep
    exact hP.step (Inv.of_reachable hs) hallowed hstep
  · have hinv := Inv.of_reachable (h₀.exec_restrict hrun : Reachable cfg eventfd s)
    have hempty := hinv.empty_behind hpc
    rcases hlast with hpending | ⟨-, ⟨-, hpipe | ⟨_, _, hpc', -⟩⟩ | ⟨_, _, hpc', -⟩⟩
    · exact absurd (hinv.empty hempty _) hpending
    · exact absurd (hinv.empty hempty _) hpipe
    · rw [hpc'] at hpc
      rcases hpc with hpc | hpc | hpc <;> cases hpc
    · rw [hpc'] at hpc
      rcases hpc with hpc | hpc | hpc <;> cases hpc

/-- The async watcher `w` has been sent to, or is pending. -/
def Unanswered (s : State Thread ι T) (w : ι) : Prop :=
  s.loop.queue.pending (.async w) ≠ 0 ∨ s.loop.Hailed w

/-- A send is not lost before it is answered. -/
theorem Unanswered.step (h : s.Unanswered w) (hinv : s.Inv) (ha : s.Allowed a)
    (hstep : s.step cfg eventfd a = some s') : s'.Unanswered w ∨ s.Answers a s' w := by
  rcases h with hpending | hw
  · have hinv' := hinv.step ha hstep
    exact ((hinv.queueStep ha hstep).pending hinv hinv' hpending).imp .inl id
  · cases hinv.shares ha hstep with
    | quiet hq => exact (hq.hailed w hw).imp .inr .inr
    | send v ht => exact .inl (.inr hw)
    | thread ht => exact .inl (.inr (hailed_stepSend hw))
    | @pipecb q next now hpc =>
        refine .inl ?_
        cases q with
        | scan ws =>
            cases ws with
            | nil => exact .inr hw
            | cons v ws =>
                by_cases hwv : w = v
                · subst hwv
                  exact .inl (pending_pipecbStep hw)
                · exact .inr (hailed_pipecbStep hw hwv)
        | _ => exact .inr hw

/-- When the pipe is reported, whoever has been sent to is on its way, unless a thread is about to
say so. -/
theorem Unanswered.event (h : s.Unanswered w) (hreach : Reachable cfg eventfd s) {fd : Nat}
    {revents : UInt32} (hready : ∀ t p, s.sending t = some (w, p) → p.announces = false)
    (hfd : s.loop.fds.fd none = fd) (hread : evRead &&& revents ≠ 0)
    (hallowed : s.Allowed (.event fd revents))
    (hstep : s.step cfg eventfd (.event fd revents) = some s') : s'.Coming w := by
  have hinv := Inv.of_reachable hreach
  have halert := Alert.of_reachable hreach
  obtain ⟨hpolls, hloop⟩ := step_event hstep
  rcases h with hasync | hw
  · refine .inl fun hgone => ?_
    rcases (hinv.queueStep hallowed hstep).pending hinv (hinv.step hallowed hstep) hasync with
      hkept | ⟨_, ⟨_, hpc⟩ | ⟨_, _, hpc⟩⟩ | hstops
    · exact hkept hgone
    · rw [hloop] at hpc
      rw [State.polls, show s.pc = _ from hpc] at hpolls
      cases hpolls
    · rw [hloop] at hpc
      rw [State.polls, show s.pc = _ from hpc] at hpolls
      cases hpolls
    · exact hstops
  · have hpending : s.loop.asyncPending = true := by
      rcases halert.hailed w hw with hpending | ⟨t, ⟨v, p⟩, ht, hp⟩ | ⟨ws, next, hpc', -⟩
      · exact hpending
      · simp only [Bool.and_eq_true, decide_eq_true_eq] at hp
        obtain ⟨rfl, hp⟩ := hp
        cases (hready t p ht).symm.trans hp
      · rw [State.polls, hpc'] at hpolls
        cases hpolls
    have hactive := hinv.pipe (.inr (.inl hpending))
    have hpipe : s'.loop.queue.pending (.io none) ≠ 0 := by
      refine (event_delivered hreach hstep (.io none)).2.mpr (.inr ?_)
      rw [reported, if_pos ⟨hactive, hfd⟩, halert.reads hactive]
      exact hread
    have hsame := Loop.fdEvent_same s.loop fd revents
    subst hloop
    refine .inr ⟨?_, .inl ⟨?_, .inl hpipe⟩⟩
    · rw [Loop.Hailed, hsame.asyncs, hsame.shared.1]
      exact hw
    · exact hsame.shared.2.1.trans hpending

/-- Whoever has been sent to is called or stopped behind the next report of the pipe, whatever else
happens before it and behind it. -/
theorem async_called (h₀ : Reachable cfg eventfd s₀) (hw : s₀.loop.Hailed w)
    {s₁ : State Thread ι T} (hbefore : (contract cfg eventfd).exec s₀ as = some s₁)
    (hready : ∀ t p, s₁.sending t = some (w, p) → p.announces = false) {fd : Nat}
    {revents : UInt32} (hfd : s₁.loop.fds.fd none = fd) (hread : evRead &&& revents ≠ 0)
    {bs : List (Action Thread ι T)}
    (hrun : (contract cfg eventfd).exec s₁ (.event fd revents :: bs) = some s)
    (hpc : s.pc = .top ∨ s.pc = .test ∨ s.pc = .outside) :
    ∃ s₂ a s₃ after,
      (contract cfg eventfd).Moment s₀ (as ++ .event fd revents :: bs) s₂ a s₃ after ∧
        s₂.Answers a s₃ w := by
  rcases Machine.exec_or_moment (I := Reachable cfg eventfd) (P := fun u => u.Unanswered w)
    (fun s a s' hs hstep => hs.step (Machine.restrict_step.mp hstep).1
      (Machine.restrict_step.mp hstep).2)
    (fun s a s' hs hP hstep => hP.step (Inv.of_reachable hs) (Machine.restrict_step.mp hstep).1
      (Machine.restrict_step.mp hstep).2) h₀ (.inr hw) hbefore with
    hlast | ⟨s₂, a, s₃, after, hmoment, hanswers⟩
  · have h₁ : Reachable cfg eventfd s₁ := h₀.exec_restrict hbefore
    obtain ⟨s₂, hstep, hrest⟩ := Option.bind_eq_some_iff.mp hrun
    obtain ⟨hallowed, hstep'⟩ := Machine.restrict_step.mp hstep
    have hcoming := hlast.event h₁ hready hfd hread hallowed hstep'
    obtain ⟨s₃, b, s₄, after, hmoment, hend⟩ :=
      hcoming.answered (h₁.step hallowed hstep') hrest hpc
    exact ⟨s₃, b, s₄, after, (hmoment.cons hstep).prepend hbefore, hend⟩
  · exact ⟨s₂, a, s₃, _, hmoment.append _, hanswers⟩

/-- The kernel reports the pipe, and the loop comes to the end of its round. -/
def asyncAnswered : Sample :=
  ((machine plain true).execUnder Allowed asyncSent
    (.event 9 evRead :: List.replicate 16 (.next 1))).get (by decide +kernel)

theorem async_called_run :
    ∃ s₁ a s₂ after,
      (contract plain true).Moment asyncHailed
        (List.replicate 6 (.thread ()) ++ .event 9 evRead :: List.replicate 16 (.next 1)) s₁ a s₂
        after ∧ s₁.Answers a s₂ false := by
  have hhailed : asyncHailed.loop.Hailed false := by
    constructor <;> decide +kernel
  have hready : ∀ t p, asyncSent.sending t = some (false, p) → p.announces = false := fun t p => by
    have hnone : asyncSent.sending t = none := by
      cases t
      decide +kernel
    rw [hnone]
    exact fun h => by cases h
  have hrun : (contract plain true).exec asyncSent
      (.event 9 evRead :: List.replicate 16 (.next 1)) = some asyncAnswered :=
    exec_contract (Option.some_get _).symm
  exact async_called asyncHailed_reachable hhailed asyncSent_exec hready (by decide +kernel)
    (by decide) hrun (.inr (.inl (by decide +kernel)))

end State
end Ev
end Cyan

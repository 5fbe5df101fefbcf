import Cyan.Ev.LoopCalls
import Cyan.Ev.TimersReify

/-!
# The invariant of the machine

`Inv` holds in every state of a run that keeps to the contract: the loop passes
`ev_verify`, its descriptors are in sync, and nobody is pending with a higher
priority than `pendingpri`.  `Stage` adds what holds at some places of `ev_run`: a
round ends with nobody pending, and behind `fd_reify` the kernel reports what the
active watchers want.
-/

namespace Cyan
namespace Ev

open Base

variable {Thread ι T : Type*} [DecidableEq Thread] [DecidableEq ι]
variable [LinearOrder T] [Add T] [Sub T] [Zero T]

namespace Loop

variable {l l' l'' : Loop ι T} {refs : Int} {fd : Nat} {w : ι} {revents : UInt32}

/-- `x` is an `ev_io`. -/
def IsIo (x : Watcher ι) : Prop :=
  ∃ u, x = .io u

/-! ## `fd_event` and `fd_kill` -/

/-- `x` waits for an event of the descriptor, which has not changed since `fd_reify`. -/
def Waits (l : Loop ι T) (fd : Nat) (revents : UInt32) (x : Watcher ι) : Prop :=
  (l.fds.anfds fd).reify = 0 ∧
    ∃ u ∈ (l.fds.anfds fd).head, x = .io u ∧ l.fds.events u &&& revents ≠ 0

section

omit [LinearOrder T] [Add T] [Sub T] [Zero T]

theorem fdEvent_fed (hsound : l.queue.Sound) (fd : Nat) (revents : UInt32) :
    Queue.Fuller (l.Waits fd revents) l.queue (l.fdEvent fd revents).queue := by
  unfold fdEvent
  split
  · rename_i hreify
    refine .foldl hsound _ _ fun q u hu => ?_
    by_cases hev : l.fds.events u &&& revents = 0
    · exact .inl (if_neg (not_not.mpr hev))
    · exact .inr ⟨.io u, _, if_pos hev, hreify, u, hu, rfl, hev⟩
  · exact .refl ..

theorem fdEvent_same (l : Loop ι T) (fd : Nat) (revents : UInt32) :
    Same l (l.fdEvent fd revents) := by
  unfold fdEvent
  split
  · rfl
  · exact .refl l

end

/-- What `fd_kill` changes; the watchers of the descriptor are those with `P`. -/
structure Killed (P : Watcher ι → Prop) (l l' : Loop ι T) (fd : Nat) : Prop where
  sync : l.fds.InSync → l'.fds.InSync
  apart : Fds.Apart l.fds l'.fds fd
  swept : l.queue.Swept → l'.queue.Swept
  pending : ∀ x, l'.queue.pending x ≠ 0 → P x ∨ l.queue.pending x ≠ 0
  kept : ∀ pri x events, (x, events) ∈ l.queue.agenda pri →
    (∃ events', (x, events') ∈ l'.queue.agenda pri ∧ events' &&& events = events) ∨ P x
  rest : l' = { l with queue := l'.queue, fds := l'.fds, activecnt := l'.activecnt }

section

omit [DecidableEq ι] [LinearOrder T] [Add T] [Sub T] [Zero T]

theorem Killed.refl (P : Watcher ι → Prop) (l : Loop ι T) (fd : Nat) : Killed P l l fd :=
  ⟨id, .refl _ _, id, fun _ h => .inr h, fun _ _ events h => .inl ⟨events, h, UInt32.and_self⟩, rfl⟩

theorem Killed.trans {P : Watcher ι → Prop} (h : Killed P l l' fd) (h' : Killed P l' l'' fd) :
    Killed P l l'' fd where
  sync hs := h'.sync (h.sync hs)
  apart := h.apart.trans h'.apart
  swept hs := h'.swept (h.swept hs)
  pending x hx := (h'.pending x hx).elim .inl (h.pending x)
  kept pri x events he := by
    rcases h.kept pri x events he with ⟨events', he', hsub⟩ | hx
    · rcases h'.kept pri x events' he' with ⟨events'', he'', hsub'⟩ | hx
      · exact .inl ⟨events'', he'', by rw [← hsub, ← UInt32.and_assoc, hsub']⟩
      · exact .inr hx
    · exact .inr hx
  rest := by
    rw [h'.rest, h.rest]

end

section

omit [Add T] [Sub T] [Zero T]

/-- One watcher of `fd`. -/
theorem Ok.killStep {P : Watcher ι → Prop} (h : l.Ok refs) (hw : l.fds.slot (some w) = fd)
    (hP : P (.io (some w))) (events : UInt32) :
    Killed P l ((l.evIoStop (some w)).feedEvent (.io (some w)) events) fd := by
  have hstopped := Called.evIoStop h w
  have hfed : Queue.Fuller P (l.evIoStop (some w)).queue
      ((l.evIoStop (some w)).feedEvent (.io (some w)) events).queue :=
    .feedEvent (h.evIoStop w).manned.sound hP events
  refine ⟨hstopped.sync, ?_, fun hs => (hs.quieter hstopped.queue).fuller hfed, fun x hx => ?_,
    fun pri x events' he => ?_, ?_⟩
  · change Fds.Apart l.fds (l.evIoStop (some w)).fds fd
    unfold Loop.evIoStop
    dsimp only
    split
    · exact .refl ..
    · exact .stop hw
  · exact (hfed.pending x hx).imp id (hstopped.queue.pending x)
  · rcases hstopped.queue.kept pri _ he with he | ⟨rfl, -⟩
    · exact .inl (hfed.kept pri x events' he)
    · exact .inr hP
  · obtain ⟨_, _, _, hstop⟩ := l.evIoStop_writes (some w)
    rw [hstop]
    rfl

theorem Ok.killLoop {P : Watcher ι → Prop} {ws : List (Option ι)} (h : l.Ok refs)
    (hpipe : none ∉ ws)
    (hws : ∀ u ∈ ws, l.queue.InRange (.io u) ∧ l.fds.slot u = fd ∧ P (.io u)) :
    Killed P l (l.fdKillLoop ws) fd := by
  induction ws generalizing l with
  | nil => exact .refl P l fd
  | cons u ws ih =>
      cases u with
      | none => exact absurd List.mem_cons_self hpipe
      | some w =>
          obtain ⟨hrange, hslot, hP⟩ := hws _ List.mem_cons_self
          have hstep := h.killStep hslot hP (evError ||| evRead ||| evWrite)
          have hpriority : ((l.evIoStop (some w)).feedEvent (.io (some w))
              (evError ||| evRead ||| evWrite)).queue.priority = l.queue.priority :=
            Queue.feedEvent_priority.trans (evIoStop_priority (some w))
          have hok : ((l.evIoStop (some w)).feedEvent (.io (some w))
              (evError ||| evRead ||| evWrite)).Ok refs :=
            (h.evIoStop w).feedEvent (by rwa [Queue.InRange, evIoStop_priority])
              (.inr (mayLapse_of_kill _))
          refine hstep.trans (ih hok (fun hmem => hpipe (List.mem_cons_of_mem _ hmem))
            fun v hv => ?_)
          obtain ⟨hvrange, hvslot, hPv⟩ := hws v (List.mem_cons_of_mem _ hv)
          refine ⟨by rwa [Queue.InRange, hpriority], ?_, hPv⟩
          rw [Fds.slot, hstep.apart.fdOf]
          exact hvslot

/-- A descriptor that has been closed. -/
theorem Ok.kill (h : l.Ok refs) (hpipe : none ∉ (l.fds.anfds fd).head) :
    (l.kill fd).Ok refs ∧
      Killed (fun x => ∃ u ∈ (l.fds.anfds fd).head, x = .io u) l (l.fdKill fd) fd ∧
      ((l.fdKill fd).fds.anfds fd).head = [] ∧
      ∀ u, (l.kill fd).fds.active u =
        if u ∈ (l.fds.anfds fd).head then 0 else l.fds.active u := by
  have hkilled : Killed (fun x => ∃ u ∈ (l.fds.anfds fd).head, x = .io u) l (l.fdKill fd) fd :=
    h.killLoop hpipe fun u hu => by
      refine ⟨h.manned.inRange _ (.inl (h.active_of_head hu)), ?_, u, hu, rfl⟩
      rw [Fds.slot, ((h.fds.listed u fd).mp hu).2, Int.toNat_natCast]
  have hactive : ∀ u, (l.fdKill fd).fds.active u =
      if u ∈ (l.fds.anfds fd).head then 0 else l.fds.active u := fdKillLoop_active _
  have hok := h.fdKill hpipe
  refine ⟨hok.close fd, hkilled, List.eq_nil_iff_forall_not_mem.mpr fun u hu => ?_, hactive⟩
  obtain ⟨ha, hfd⟩ := (hok.fds.listed u fd).mp hu
  rw [hactive, hkilled.apart.fdOf] at *
  split at ha
  · exact ha rfl
  · rename_i hnot
    exact hnot ((h.fds.listed u fd).mpr ⟨ha, hfd⟩)

end

/-! ## Behind `backend_poll` -/

/-- The loop behind `backend_poll`, before `timers_reify`. -/
def woken (l : Loop ι T) (now : T) : Loop ι T :=
  let l := if l.pipeWriteSkipped then l.feedEvent (.io none) evCustom else l
  { l with mnNow := now }

theorem polled_eq (l : Loop ι T) (now : T) :
    l.polled now = (l.woken now).timersReify.idleReify := rfl

omit [Add T] [Sub T] [Zero T] in
theorem Ok.woken (h : l.Ok refs) (now : T)
    (hpipe : l.pipeWriteSkipped = true → l.fds.active none ≠ 0) : (l.woken now).Ok refs := by
  unfold Loop.woken
  dsimp only
  split
  · rename_i hskipped
    have hactive : l.active (.io none) ≠ 0 := hpipe hskipped
    exact (h.feedEvent (h.manned.inRange _ (.inl hactive)) (.inl hactive)).congr
      rfl rfl rfl rfl rfl rfl rfl
  · exact h.congr rfl rfl rfl rfl rfl rfl rfl

section

omit [LinearOrder T] [Add T] [Sub T] [Zero T]

theorem woken_fed (hsound : l.queue.Sound) (now : T) :
    Queue.Fuller (fun x => x = .io none ∧ l.pipeWriteSkipped = true) l.queue
      (l.woken now).queue := by
  unfold Loop.woken
  dsimp only
  split
  · rename_i hskipped
    exact Queue.Fuller.feedEvent (P := fun x => x = .io none ∧ l.pipeWriteSkipped = true) hsound
      ⟨rfl, hskipped⟩ evCustom
  · exact .refl ..

theorem woken_timers (l : Loop ι T) (now : T) :
    (l.woken now).timers = l.timers ∧ (l.woken now).mnNow = now ∧
      (l.woken now).idles = l.idles := by
  unfold Loop.woken
  dsimp only
  split <;> exact ⟨rfl, rfl, rfl⟩

theorem woken_same (l : Loop ι T) (now : T) : Same { l with mnNow := now } (l.woken now) := by
  unfold Loop.woken
  dsimp only
  split <;> rfl

theorem idleReifyLoop_timers (l : Loop ι T) (pri : Nat) :
    (l.idleReifyLoop pri).timers = l.timers := by
  induction pri with
  | zero => rfl
  | succ pri ih =>
      rw [idleReifyLoop]
      split
      · rfl
      · split
        · rfl
        · exact ih

end

omit [LinearOrder T] [Add T] [Sub T] [Zero T] in
theorem idleReify_timers (l : Loop ι T) : l.idleReify.timers = l.timers := by
  unfold idleReify
  split
  · exact idleReifyLoop_timers l numpri
  · rfl

theorem polled_same (l : Loop ι T) (now : T) : Same { l with mnNow := now } (l.polled now) :=
  (woken_same l now).trans ((timersReify_same _).trans (idleReify_same _))

section

omit [LinearOrder T] [Add T] [Sub T] [Zero T]

theorem woken_rfeeds (hrfeeds : l.rfeeds = []) (now : T) : (l.woken now).rfeeds = [] := by
  unfold Loop.woken
  dsimp only
  split <;> exact hrfeeds

theorem queueEvents_fed (hsound : l.queue.Sound) (ws : List (Watcher ι)) (type : UInt32) :
    Queue.Fuller (· ∈ ws) l.queue (l.queueEvents ws type).queue :=
  .foldl hsound _ _ fun _ x hx => .inr ⟨x, type, rfl, hx⟩

end

section

omit [Add T] [Sub T] [Zero T]

theorem Ok.idleReify_fed (h : l.Ok refs) :
    Queue.Fuller (fun x => ∃ w, x = .idle w ∧ l.idleActive w ≠ 0) l.queue l.idleReify.queue := by
  unfold Loop.idleReify
  split
  · cases idleReifyLoop_reified l numpri with
    | @fed p hp hcnt hidle hnone hfed =>
        rw [hfed]
        refine (queueEvents_fed h.manned.sound _ _).mono fun x hx => ?_
        obtain ⟨w, hw, rfl⟩ := List.mem_map.mp hx
        have hactive := (h.idling.ok p).mem_watchers.mp hw
        rw [h.idling.abspri p w hactive] at hactive
        exact ⟨w, rfl, hactive⟩
    | busy hbusy hsame =>
        rw [hsame]
        exact .refl ..
  · exact .refl ..

/-- Idle watchers are fed when nobody else of their priority or a higher one is pending. -/
theorem Ok.idleReify_alone (h : l.Ok refs) (hnone : l.queue.pending (.idle w) = 0)
    (hw : l.idleReify.queue.pending (.idle w) ≠ 0) :
    (∀ x, l.idleReify.queue.pending x ≠ 0 → (∀ v, x ≠ .idle v) →
      l.idleReify.queue.abspri x < l.idleReify.queue.abspri (.idle w)) ∧
    ∀ v, l.idleReify.idleActive v ≠ 0 →
      l.idleReify.queue.abspri (.idle v) ≤ l.idleReify.queue.abspri (.idle w) := by
  have hidles : l.idleReify.idles = l.idles :=
    (congrArg Loop.idles (idleReify_same l)).trans rfl
  have habs : ∀ x, l.idleReify.queue.abspri x = l.queue.abspri x := fun x => by
    rw [Queue.abspri, h.idleReify_fed.priority, Queue.abspri]
  have hactive : ∀ v, l.idleReify.idleActive v = l.idleActive v := fun v => by
    rw [idleActive, hidles, habs, idleActive]
  simp only [habs, hactive]
  unfold Loop.idleReify at hw ⊢
  split at hw
  · rename_i hall
    rw [if_pos hall]
    cases idleReifyLoop_reified l numpri with
    | @fed p hp hcnt hidle hempty hfed =>
        rw [hfed] at hw ⊢
        have hqueue := queueEvents_fed h.manned.sound ((l.idles p).watchers.map .idle) evIdle
        have hpw : p = l.queue.abspri (.idle w) := by
          rcases hqueue.pending _ hw with hmem | hold
          · obtain ⟨v, hv, heq⟩ := List.mem_map.mp hmem
            cases heq
            exact h.idling.abspri p w ((h.idling.ok p).mem_watchers.mp hv)
          · exact absurd hnone hold
        refine ⟨fun x hx hother => ?_, fun v hv => ?_⟩
        · rcases hqueue.pending x hx with hmem | hold
          · obtain ⟨v, -, rfl⟩ := List.mem_map.mp hmem
            exact absurd rfl (hother v)
          · rw [← hpw]
            by_contra hle
            have hlt := Queue.abspri_lt (h.manned.inRange x (.inr hold))
            exact h.manned.sound.pendings_ne_nil hold (hempty _ (not_lt.mp hle) hlt)
        · rw [← hpw]
          by_contra hlt
          have hrange := Queue.abspri_lt (h.manned.inRange (.idle v) (.inl hv))
          have hzero := hidle _ (not_le.mp hlt) hrange
          have hcnt := ((h.idling.ok _).active_mem hv).1
          omega
    | busy hbusy hsame =>
        rw [hsame] at hw
        exact absurd hnone hw
  · exact absurd hnone hw

end

omit [LinearOrder T] [Add T] [Sub T] [Zero T] in
theorem idleReify_rfeeds (l : Loop ι T) : l.idleReify.rfeeds = l.rfeeds := by
  unfold idleReify
  split
  · cases idleReifyLoop_reified l numpri with
    | fed hp hcnt hidle hnone hfed => rw [hfed]; rfl
    | busy hbusy hsame => rw [hsame]
  · rfl

/-! ## `ev_invoke_pending` -/

omit [DecidableEq ι] [Add T] [Sub T] [Zero T] in
theorem Ok.pendingpri (h : l.Ok refs) (pri : Nat) :
    Ok { l with queue := { l.queue with pendingpri := pri } } refs :=
  h.requeue (fun _ => rfl) fun _ =>
    ⟨⟨h.manned.sound.own, h.manned.sound.known⟩, h.manned.inRange, h.manned.live⟩

/-! ## `loop_init` -/

omit [DecidableEq ι] in
/-- An empty array. -/
theorem WatcherArray.ok_init (entry : Nat → ι) :
    WatcherArray.Ok ⟨⟨entry, fun _ => 0⟩, 0⟩ where
  zero hmem := Nat.not_succ_le_zero 0 hmem.1
  index _ hk := absurd (hk.1.trans hk.2) (Nat.not_succ_le_zero 0)
  found _ _ hw := absurd rfl hw

omit [Add T] [Sub T] in
theorem ok_init (garbage : ι) (mnNow : T) : (init garbage mnNow).Ok 0 where
  manned :=
    { sound := ⟨fun _ hw => absurd rfl hw, fun hi => by cases hi⟩
      inRange := fun v hv => by
        cases v <;> exact (hv.elim (fun ha => ha rfl) fun hp => hp rfl).elim
      live := fun _ _ _ hmem => absurd hmem List.not_mem_nil }
  timers :=
    { heaped :=
        { ordered := fun k hlt hstop => by
            have hroot : heap0 < k := hlt
            have hlast : k < 0 + heap0 := hstop
            omega
          filed :=
            { zero := fun hmem => absurd hmem.1 (by decide)
              index := fun k hk => absurd (hk.1.trans_lt hk.2) (by simp [Timers.stopAt, init])
              found := fun _ _ hw => absurd rfl hw } }
      cached := fun _ _ hlookup => by cases hlookup }
  fds :=
    { listed := fun _ _ => ⟨fun hmem => absurd hmem List.not_mem_nil, fun h => absurd rfl h.1⟩
      nodup := fun _ => List.nodup_nil
      one := fun _ => Nat.zero_le 1
      fd_nonneg := fun _ hw => absurd rfl hw
      changed := fun _ => ⟨fun hmem => absurd hmem List.not_mem_nil, fun h => absurd rfl h⟩
      changed_nodup := List.nodup_nil }
  idling :=
    { ok := fun _ => WatcherArray.ok_init _
      abspri := fun _ _ hw => absurd rfl hw
      all := rfl }
  asyncs := WatcherArray.ok_init _
  counted :=
    { finite := by simp [ios, init]
      activecnt := by simp [ios, init] }

omit [LinearOrder T] [Add T] [Sub T] in
theorem sync_init (garbage : ι) (mnNow : T) : (init garbage mnNow).fds.InSync where
  wanted _ _ := rfl
  told _ := .inl (.inr fun _ => rfl)
  known _ _ _ _ _ := .inr fun _ => rfl
  active _ hw := absurd rfl hw

end Loop

namespace State

variable {s s' : State Thread ι T} {cfg : Config T} {eventfd : Bool}

/-- What holds at the places of the loop. -/
def Stage (s : State Thread ι T) : Prop :=
  match s.pc with
  | .outside => s.loop.queue.Empty
  | .top => s.loop.queue.Empty
  | .test => s.loop.queue.Empty
  | .wanted _ => s.loop.queue.Empty ∧ s.loop.fds.InStep
  | .poll _ => (∀ x, s.loop.queue.pending x ≠ 0 → Loop.IsIo x) ∧ s.loop.fds.InStep
  | .polled => (∀ x, s.loop.queue.pending x ≠ 0 → Loop.IsIo x) ∧ s.loop.fds.InStep
  | .callback w _ _ => w ≠ .io none
  | .pipecb (.scan ws) _ => ∀ w ∈ ws, s.loop.asyncs.active w ≠ 0
  | _ => True

/-- The invariant. -/
structure Inv (s : State Thread ι T) : Prop where
  ok : s.loop.Ok s.refs
  refs : -1 ≤ s.refs
  sync : s.loop.fds.InSync
  rfeeds : s.loop.rfeeds = []
  swept : s.loop.queue.Swept
  stage : s.Stage
  /-- only a loop with a pipe is written to -/
  pipe : s.loop.pipeWriteSkipped = true ∨ s.loop.asyncPending = true ∨
    (∃ t, s.sending t ≠ none) → s.loop.fds.active none ≠ 0

section

omit [DecidableEq Thread] [DecidableEq ι] [Add T] [Sub T] [Zero T]

/-- Nobody is pending on an empty queue. -/
theorem Inv.empty (h : s.Inv) (hempty : s.loop.queue.Empty) (x : Watcher ι) :
    s.loop.queue.pending x = 0 :=
  hempty.pending h.ok.manned.sound fun hx => h.ok.manned.inRange x (.inr hx)

/-- Behind `ev_invoke_pending` nobody is pending. -/
theorem Inv.empty_behind (h : s.Inv) (hpc : s.pc = .top ∨ s.pc = .test ∨ s.pc = .outside) :
    s.loop.queue.Empty := by
  have hstage := h.stage
  unfold Stage at hstage
  rcases hpc with hpc | hpc | hpc <;> rwa [hpc] at hstage

end

/-! ## The actions -/

theorem step_call {c : Call ι T} (h : s.step cfg eventfd (.call c) = some s') :
    s.calls = true ∧ s' = { s with loop := s.loop.call c, refs := s.refs + refsOf c } := by
  unfold State.step at h
  dsimp only at h
  split at h
  · rename_i hcalls
    exact ⟨hcalls, (Option.some.inj h).symm⟩
  · cases h

theorem step_run {flags : RunFlags} (h : s.step cfg eventfd (.run flags) = some s') :
    s.pc = .outside ∧
      s' = { s with flags := flags }.enter { s.loop with loopDone := .cancel } .top := by
  unfold State.step at h
  dsimp only at h
  split at h
  · rename_i hpc
    exact ⟨hpc, (Option.some.inj h).symm⟩
  · cases h

theorem step_event {fd : Nat} {revents : UInt32}
    (h : s.step cfg eventfd (.event fd revents) = some s') :
    s.polls = true ∧ s' = { s with loop := s.loop.fdEvent fd revents } := by
  unfold State.step at h
  dsimp only at h
  split at h
  · rename_i hpolls
    exact ⟨hpolls, (Option.some.inj h).symm⟩
  · cases h

theorem step_kill {fd : Nat} (h : s.step cfg eventfd (.kill fd) = some s') :
    s.polls = true ∧ s' = { s with loop := s.loop.kill fd } := by
  unfold State.step at h
  dsimp only at h
  split at h
  · rename_i hpolls
    exact ⟨hpolls, (Option.some.inj h).symm⟩
  · cases h

theorem step_send {t : Thread} {w : ι} (h : s.step cfg eventfd (.send t w) = some s') :
    s.sending t = none ∧
      s' = { s with sending := Function.update s.sending t (some (w, .sent)) } := by
  unfold State.step at h
  dsimp only at h
  split at h
  · rename_i ht
    exact ⟨ht, (Option.some.inj h).symm⟩
  · cases h

theorem step_thread {t : Thread} (h : s.step cfg eventfd (.thread t) = some s') :
    ∃ w p, s.sending t = some (w, p) ∧ s' = { s with
      loop := (stepSend s.loop w p).1
      sending := Function.update s.sending t ((stepSend s.loop w p).2.map (w, ·)) } := by
  obtain ⟨⟨w, p⟩, ht, hs'⟩ := Option.map_eq_some_iff.mp h
  exact ⟨w, p, ht, hs'.symm⟩

/-! ## The program and the threads -/

omit [DecidableEq Thread] in
theorem Inv.call {c : Call ι T} (h : s.Inv) (hcalls : s.calls = true)
    (hc : c.Allowed s.loop s.refs) :
    Inv { s with loop := s.loop.call c, refs := s.refs + refsOf c } := by
  obtain ⟨hok, hcalled⟩ := h.ok.call hc
  refine ⟨hok, ?_, hcalled.sync h.sync, hcalled.rfeeds.trans h.rfeeds,
    h.swept.quieter hcalled.queue, ?_, fun hp => hcalled.pipe (h.pipe ?_)⟩
  · have hrefs := h.refs
    cases c <;> simp only [refsOf] <;> try omega
    have hzero : 0 ≤ s.refs := hc
    omega
  · have hstage := h.stage
    unfold Stage at hstage ⊢
    unfold State.calls at hcalls
    split at hcalls
    · rename_i hpc
      simp only [hpc] at hstage ⊢
      exact hstage.quieter hcalled.queue
    · rename_i hpc
      simp only [hpc] at hstage ⊢
      exact hstage
    · cases hcalls
  · simpa only [hcalled.pipeWriteSkipped, hcalled.asyncPending] using hp

omit [DecidableEq Thread] [DecidableEq ι] [Add T] [Sub T] [Zero T] in
/-- What the threads write is of no account to the loop. -/
theorem Inv.shared (h : s.Inv) {l : Loop ι T} {sending : Thread → Option (ι × Send)}
    (hqueue : l.queue = s.loop.queue) (htimers : l.timers = s.loop.timers)
    (hfds : l.fds = s.loop.fds) (hidles : l.idles = s.loop.idles)
    (hall : l.idleall = s.loop.idleall) (hasyncs : l.asyncs = s.loop.asyncs)
    (hcnt : l.activecnt = s.loop.activecnt) (hrfeeds : l.rfeeds = s.loop.rfeeds)
    (hpipe : s.loop.fds.active none ≠ 0) :
    Inv { s with loop := l, sending := sending } := by
  refine ⟨h.ok.congr hqueue htimers hfds hidles hall hasyncs hcnt, h.refs, hfds ▸ h.sync,
    hrfeeds.trans h.rfeeds, hqueue ▸ h.swept, ?_, fun _ => hfds ▸ hpipe⟩
  have hstage := h.stage
  unfold Stage at hstage ⊢
  simp only [hqueue, hfds, hasyncs]
  exact hstage

omit [DecidableEq Thread] [Add T] [Sub T] [Zero T] in
theorem Inv.thread {t : Thread} {w : ι} {p : Send} (h : s.Inv) (ht : s.sending t = some (w, p))
    (sending : Thread → Option (ι × Send)) :
    Inv { s with loop := (stepSend s.loop w p).1, sending := sending } := by
  have hpipe := h.pipe (.inr (.inr ⟨t, by rw [ht]; exact Option.some_ne_none _⟩))
  cases p <;> exact h.shared rfl rfl rfl rfl rfl rfl rfl rfl hpipe

/-! ## The kernel -/

section

omit [DecidableEq Thread] [Add T] [Sub T] [Zero T]

theorem Inv.event (h : s.Inv) (hpolls : s.polls = true) (fd : Nat) (revents : UInt32) :
    Inv { s with loop := s.loop.fdEvent fd revents } := by
  have hfed := Loop.fdEvent_fed h.ok.manned.sound fd revents
  have hsame := Loop.fdEvent_same s.loop fd revents
  have hfds := hsame.fds
  refine ⟨h.ok.fdEvent fd revents, h.refs, ?_, ?_, h.swept.fuller hfed, ?_, fun hp => ?_⟩
  · rw [hfds]
    exact h.sync
  · have hrfeeds : (s.loop.fdEvent fd revents).rfeeds = s.loop.rfeeds := by
      unfold Loop.fdEvent
      split <;> rfl
    exact hrfeeds.trans h.rfeeds
  · have hstage := h.stage
    unfold State.polls at hpolls
    split at hpolls
    · rename_i hpc
      unfold Stage at hstage ⊢
      simp only [hpc, hfds] at hstage ⊢
      refine ⟨fun x hx => ?_, hstage.2⟩
      rcases hfed.pending x hx with ⟨-, u, -, rfl, -⟩ | hold
      · exact ⟨u, rfl⟩
      · exact hstage.1 x hold
    · cases hpolls
  · rw [hfds]
    refine h.pipe ?_
    obtain ⟨-, hpending, -, hskipped, -⟩ := hsame.shared
    simpa only [hskipped, hpending] using hp

theorem Inv.kill {fd : Nat} (h : s.Inv) (hpolls : s.polls = true)
    (hfd : none ∉ (s.loop.fds.anfds fd).head) : Inv { s with loop := s.loop.kill fd } := by
  obtain ⟨hok, hkilled, hempty, hactive⟩ := h.ok.kill hfd
  have hkilledOk := h.ok.fdKill hfd
  have hnone : ∀ u, (s.loop.fdKill fd).fds.active u ≠ 0 → (s.loop.fdKill fd).fds.fd u ≠ fd := by
    intro u ha heq
    have hmem := (hkilledOk.fds.listed u fd).mpr ⟨ha, heq⟩
    rw [hempty] at hmem
    cases hmem
  refine ⟨hok, h.refs, (hkilled.sync h.sync).close hkilledOk.fds hnone, ?_,
    hkilled.swept h.swept, ?_, fun hp => ?_⟩
  · exact (congrArg Loop.rfeeds hkilled.rest).trans h.rfeeds
  · have hstage := h.stage
    unfold State.polls at hpolls
    split at hpolls
    · rename_i hpc
      unfold Stage at hstage ⊢
      simp only [hpc] at hstage ⊢
      refine ⟨fun x hx => ?_, hstage.2.close hkilled.apart hempty⟩
      rcases hkilled.pending x hx with ⟨u, -, rfl⟩ | hold
      · exact ⟨u, rfl⟩
      · exact hstage.1 x hold
    · cases hpolls
  · have hskipped : (s.loop.kill fd).pipeWriteSkipped = s.loop.pipeWriteSkipped :=
      (congrArg Loop.pipeWriteSkipped hkilled.rest).trans rfl
    have hpending : (s.loop.kill fd).asyncPending = s.loop.asyncPending :=
      (congrArg Loop.asyncPending hkilled.rest).trans rfl
    simp only [hskipped, hpending] at hp
    rw [hactive, if_neg hfd]
    exact h.pipe hp

end

/-! ## The loop -/

section

omit [DecidableEq Thread] [DecidableEq ι] [Add T] [Sub T] [Zero T]

/-- `ev_invoke_pending` begins. -/
theorem Inv.enter (h : s.Inv) (flags : RunFlags) (next : Next) {l : Loop ι T}
    (hok : l.Ok s.refs) (hsync : l.fds.InSync) (hrfeeds : l.rfeeds = [])
    (hpipe : l.pipeWriteSkipped = true ∨ l.asyncPending = true ∨ (∃ t, s.sending t ≠ none) →
      l.fds.active none ≠ 0) : Inv ({ s with flags := flags }.enter l next) := by
  refine ⟨hok.pendingpri _, h.refs, hsync, hrfeeds, fun pri hlt hpri => ?_, trivial, hpipe⟩
  have hlast : numpri - 1 < pri := hlt
  omega

/-- The loop gets to another place. -/
theorem Inv.goto (h : s.Inv) {pc : Pc ι T} (hstage : Stage { s with pc := pc }) :
    Inv { s with pc := pc } :=
  ⟨h.ok, h.refs, h.sync, h.rfeeds, h.swept, hstage, h.pipe⟩

end

omit [DecidableEq Thread] [DecidableEq ι] [LinearOrder T] [Add T] [Sub T] [Zero T] in
theorem stage_of_invoke {next : Next} (hpc : s.pc = .invoke next) : s.Stage := by
  unfold Stage
  rw [hpc]
  trivial

omit [DecidableEq Thread] [Add T] [Sub T] [Zero T] in
theorem Inv.invoke {next : Next} (h : s.Inv) (hpc : s.pc = .invoke next) :
    Inv (s.stepInvoke next) := by
  unfold stepInvoke
  dsimp only
  split
  · rename_i p q htake
    have hok := h.ok.takePending htake
    have hpri := Queue.takePending_pendingpri htake
    have hswept : q.Swept := fun pri hlt hp => by
      rw [hpri] at hlt
      rw [Queue.takePending_pendings htake (ne_of_gt hlt)]
      exact h.swept pri hlt hp
    split
    · exact ⟨hok, h.refs, h.sync, h.rfeeds, hswept, stage_of_invoke hpc, h.pipe⟩
    · exact ⟨hok, h.refs, h.sync, h.rfeeds, hswept, trivial, h.pipe⟩
    · rename_i w hw hp
      exact ⟨hok, h.refs, h.sync, h.rfeeds, hswept, hw, h.pipe⟩
  · rename_i hnone
    have hlast := Queue.takePending_eq_none_iff.mp hnone
    split
    · rename_i hzero
      have hempty : s.loop.queue.Empty := fun pri hpri => by
        rcases Nat.eq_zero_or_pos pri with rfl | hpos
        · rwa [hzero] at hlast
        · exact h.swept pri (by omega) hpri
      cases next with
      | top => exact h.goto hempty
      | test => exact h.goto hempty
    · refine ⟨h.ok.pendingpri _, h.refs, h.sync, h.rfeeds, fun pri hlt hpri => ?_,
        stage_of_invoke hpc, h.pipe⟩
      have hle : s.loop.queue.pendingpri - 1 < pri := hlt
      rcases Nat.eq_or_lt_of_le (show s.loop.queue.pendingpri ≤ pri by omega) with rfl | hlt
      · exact hlast
      · exact h.swept pri hlt hpri

omit [DecidableEq Thread] [DecidableEq ι] [Add T] [Sub T] [Zero T] in
/-- What the loop shares with the threads is of no account to the rest. -/
theorem Inv.unshared (h : s.Inv) {l : Loop ι T} {pc : Pc ι T}
    (hsame : l = { s.loop with
      sent := l.sent, asyncPending := l.asyncPending, pipeWriteWanted := l.pipeWriteWanted
      pipeWriteSkipped := l.pipeWriteSkipped, evpipe := l.evpipe })
    (hskipped : l.pipeWriteSkipped = true → s.loop.pipeWriteSkipped = true)
    (hpending : l.asyncPending = true → s.loop.asyncPending = true)
    (hstage : Stage { s with loop := l, pc := pc }) : Inv { s with loop := l, pc := pc } := by
  have hfds : l.fds = s.loop.fds := (congrArg Loop.fds hsame).trans rfl
  have hqueue : l.queue = s.loop.queue := (congrArg Loop.queue hsame).trans rfl
  refine ⟨h.ok.congr hqueue ?_ hfds ?_ ?_ ?_ ?_, h.refs, hfds ▸ h.sync, ?_, hqueue ▸ h.swept,
    hstage, fun hp => hfds ▸ h.pipe (hp.imp hskipped (Or.imp hpending id))⟩
  · exact (congrArg Loop.timers hsame).trans rfl
  · exact (congrArg Loop.idles hsame).trans rfl
  · exact (congrArg Loop.idleall hsame).trans rfl
  · exact (congrArg Loop.asyncs hsame).trans rfl
  · exact (congrArg Loop.activecnt hsame).trans rfl
  · exact ((congrArg Loop.rfeeds hsame).trans rfl).trans h.rfeeds

section

omit [DecidableEq Thread] [Add T] [Sub T] [Zero T]

/-- One round of the loop of `pipecb`. -/
theorem Inv.scan {w : ι} {ws : List ι} {next : Next} (h : s.Inv)
    (hpc : s.pc = .pipecb (.scan (w :: ws)) next) :
    Inv { s with loop := s.loop.pipecbStep w, pc := .pipecb (.scan ws) next } := by
  have hstage := h.stage
  unfold Stage at hstage
  rw [hpc] at hstage
  have hactive : ∀ v ∈ w :: ws, s.loop.asyncs.active v ≠ 0 := hstage
  have hok := h.ok.pipecbStep (hactive w List.mem_cons_self)
  have hsame : s.loop.pipecbStep w = { s.loop with
      queue := (s.loop.pipecbStep w).queue, sent := (s.loop.pipecbStep w).sent } := by
    unfold Loop.pipecbStep
    split <;> rfl
  have hfds : (s.loop.pipecbStep w).fds = s.loop.fds := (congrArg Loop.fds hsame).trans rfl
  have hasyncs : (s.loop.pipecbStep w).asyncs = s.loop.asyncs :=
    (congrArg Loop.asyncs hsame).trans rfl
  refine ⟨hok, h.refs, hfds ▸ h.sync, ((congrArg Loop.rfeeds hsame).trans rfl).trans h.rfeeds,
    ?_, ?_, fun hp => ?_⟩
  · exact h.swept.fuller (Loop.pipecbStep_fed h.ok.manned.sound w)
  · intro v hv
    change (s.loop.pipecbStep w).asyncs.active v ≠ 0
    rw [hasyncs]
    exact hactive v (List.mem_cons_of_mem _ hv)
  · have hskipped : (s.loop.pipecbStep w).pipeWriteSkipped = s.loop.pipeWriteSkipped :=
      (congrArg Loop.pipeWriteSkipped hsame).trans rfl
    have hpending : (s.loop.pipecbStep w).asyncPending = s.loop.asyncPending :=
      (congrArg Loop.asyncPending hsame).trans rfl
    simp only [hskipped, hpending] at hp
    exact hfds ▸ h.pipe hp

theorem Inv.pipecb {p : PipePc ι} {next : Next} (h : s.Inv) (hpc : s.pc = .pipecb p next) :
    Inv (s.stepPipecb eventfd next p) := by
  cases p with
  | read revents => exact h.unshared rfl id id trivial
  | skipped => exact h.unshared rfl (fun hs => by cases hs) id trivial
  | pending =>
      unfold stepPipecb
      dsimp only
      split
      · exact h.goto trivial
      · exact h.goto trivial
  | clear =>
      refine h.unshared rfl id (fun hs => by cases hs) fun w hw => ?_
      exact h.ok.asyncs.mem_watchers.mp (List.mem_reverse.mp hw)
  | scan ws =>
      cases ws with
      | nil => exact h.goto trivial
      | cons w ws => exact h.scan hpc

end

section

omit [DecidableEq Thread]

/-- What `ev_run` does behind `backend_poll`. -/
theorem Inv.polled (h : s.Inv) (now : T) :
    Inv (s.enter (s.loop.polled now) .test) := by
  have hwoken := h.ok.woken now fun hskipped => h.pipe (.inl hskipped)
  have hrfeeds := Loop.woken_rfeeds h.rfeeds now
  have hsame := Loop.polled_same s.loop now
  have hok : (s.loop.polled now).Ok s.refs := (hwoken.timersReify hrfeeds).idleReify
  have hfds : (s.loop.polled now).fds = s.loop.fds := hsame.fds
  refine h.enter s.flags .test hok (hfds ▸ h.sync) ?_ fun hp => ?_
  · rw [Loop.polled_eq, Loop.idleReify_rfeeds]
    exact Loop.timersReify_rfeeds hrfeeds
  · obtain ⟨-, hpending, -, hskipped, -⟩ := hsame.shared
    rw [hfds]
    rw [hpending, hskipped] at hp
    exact h.pipe hp

theorem Inv.loop {now : T} (h : s.Inv) (hstep : s.stepLoop cfg eventfd now = some s') :
    s'.Inv := by
  have hstage := h.stage
  unfold Stage at hstage
  unfold stepLoop at hstep
  split at hstep
  case h_1 => cases hstep
  case h_2 next hpc =>
    cases hstep
    exact h.invoke hpc
  case h_3 next hpc =>
    cases hstep
    exact h.goto trivial
  case h_4 p next hpc =>
    cases hstep
    exact h.pipecb hpc
  case h_5 hpc =>
    rw [hpc] at hstage
    split at hstep
    · cases hstep
      exact ⟨h.ok.congr rfl rfl rfl rfl rfl rfl rfl, h.refs, h.sync, h.rfeeds, h.swept, hstage,
        h.pipe⟩
    · cases hstep
      have hreified : Loop.Ok
          { s.loop with fds := s.loop.fds.reify, mnNow := now, pipeWriteWanted := true } s.refs :=
        (h.ok.refds h.ok.fds.reify (Fds.reify_active _)).congr rfl rfl rfl rfl rfl rfl rfl
      refine ⟨hreified, h.refs, h.sync.reify, h.rfeeds, h.swept,
        ⟨hstage, h.sync.inStep h.ok.fds⟩, fun hp => ?_⟩
      change s.loop.fds.reify.active none ≠ 0
      rw [Fds.reify_active]
      exact h.pipe hp
  case h_6 prev hpc =>
    rw [hpc] at hstage
    cases hstep
    refine h.goto ⟨fun x hx => absurd (h.empty hstage.1 x) hx, hstage.2⟩
  case h_7 wait hpc =>
    rw [hpc] at hstage
    cases hstep
    exact h.unshared rfl id id hstage
  case h_8 hpc =>
    cases hstep
    exact h.polled now
  case h_9 hpc =>
    rw [hpc] at hstage
    split at hstep
    · cases hstep
      exact h.goto hstage
    · cases hstep
      exact ⟨h.ok.congr rfl rfl rfl rfl rfl rfl rfl, h.refs, h.sync, h.rfeeds, h.swept, hstage,
        h.pipe⟩

end

/-! ## Runs -/

theorem Inv.step {a : Action Thread ι T} (h : s.Inv) (ha : s.Allowed a)
    (hstep : s.step cfg eventfd a = some s') : s'.Inv := by
  cases a with
  | call c =>
      obtain ⟨hcalls, rfl⟩ := step_call hstep
      exact h.call hcalls ha
  | run flags =>
      obtain ⟨-, rfl⟩ := step_run hstep
      have hok : Loop.Ok { s.loop with loopDone := .cancel } s.refs :=
        h.ok.congr rfl rfl rfl rfl rfl rfl rfl
      exact h.enter flags .top hok h.sync h.rfeeds h.pipe
  | next now => exact h.loop hstep
  | event fd revents =>
      obtain ⟨hpolls, rfl⟩ := step_event hstep
      exact h.event hpolls fd revents
  | kill fd =>
      obtain ⟨hpolls, rfl⟩ := step_kill hstep
      exact h.kill hpolls ha
  | send t w =>
      obtain ⟨-, rfl⟩ := step_send hstep
      exact h.shared rfl rfl rfl rfl rfl rfl rfl rfl ha
  | thread t =>
      obtain ⟨w, p, ht, rfl⟩ := step_thread hstep
      exact h.thread ht _

omit [DecidableEq Thread] [Add T] [Sub T] in
theorem Inv.init (garbage : ι) (mnNow : T) :
    Inv (State.init garbage mnNow : State Thread ι T) where
  ok := Loop.ok_init garbage mnNow
  refs := show (-1 : Int) ≤ 0 by decide
  sync := Loop.sync_init garbage mnNow
  rfeeds := rfl
  swept := fun _ _ _ => rfl
  stage := fun _ _ => rfl
  pipe := by
    rintro (hskipped | hpending | ⟨t, ht⟩)
    · cases hskipped
    · cases hpending
    · exact absurd rfl ht

theorem Inv.of_reachable (h : Reachable cfg eventfd s) : s.Inv := by
  refine Machine.ReachableUnder.invariant (fun s hs => ?_) (fun s a s' hinv ha hstep => ?_) h
  · obtain ⟨garbage, mnNow, rfl⟩ := hs
    exact .init garbage mnNow
  · exact hinv.step ha hstep

end State
end Ev
end Cyan

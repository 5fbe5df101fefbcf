import Cyan.Ev.LoopKeeps

/-!
# What the loop does on its own

Between two rounds of callbacks the loop makes watchers pending: those of a
descriptor (`fd_event`, `fd_kill`), the async watchers that were sent (`pipecb`),
the idle watchers (`idle_reify`) and the timers that have expired
(`timers_reify`).  All of it keeps the invariant.
-/

namespace Cyan
namespace Ev

variable {ι T : Type*} [DecidableEq ι] [LinearOrder T] [Add T] [Sub T] [Zero T]

namespace Loop

variable {l l' : Loop ι T} {refs : Int} {w : ι} {x v : Watcher ι} {revents : UInt32}

/-- Nothing is written but the queue, the timers, `activecnt` and `rfeeds`. -/
def Same (l l' : Loop ι T) : Prop :=
  l' = { l with
    queue := l'.queue, timers := l'.timers, activecnt := l'.activecnt, rfeeds := l'.rfeeds }

section

omit [DecidableEq ι] [LinearOrder T] [Add T] [Sub T] [Zero T]

theorem Same.refl (l : Loop ι T) : Same l l := rfl

theorem Same.trans {l'' : Loop ι T} (h : Same l l') (h' : Same l' l'') : Same l l'' := by
  unfold Same at h h' ⊢
  rw [h'] at ⊢
  rw [h]

theorem Same.fds (h : Same l l') : l'.fds = l.fds :=
  (congrArg Loop.fds h).trans rfl

theorem Same.asyncs (h : Same l l') : l'.asyncs = l.asyncs :=
  (congrArg Loop.asyncs h).trans rfl

/-- What the threads write or read is the same. -/
theorem Same.shared (h : Same l l') :
    l'.sent = l.sent ∧ l'.asyncPending = l.asyncPending ∧
      l'.pipeWriteWanted = l.pipeWriteWanted ∧ l'.pipeWriteSkipped = l.pipeWriteSkipped ∧
      l'.evpipe = l.evpipe :=
  ⟨(congrArg Loop.sent h).trans rfl, (congrArg Loop.asyncPending h).trans rfl,
    (congrArg Loop.pipeWriteWanted h).trans rfl, (congrArg Loop.pipeWriteSkipped h).trans rfl,
    (congrArg Loop.evpipe h).trans rfl⟩

end

/-! ## Feeding many watchers -/

omit [DecidableEq ι] [LinearOrder T] [Add T] [Sub T] [Zero T] in
/-- The priorities tell where the idle watchers are. -/
theorem active_requeue {q : Queue (Watcher ι)} (hpriority : q.priority = l.queue.priority)
    (v : Watcher ι) : active { l with queue := q } v = l.active v := by
  cases v with
  | timer w => rfl
  | io w => rfl
  | idle w => simp only [active, idleActive, Queue.abspri, hpriority]
  | async w => rfl

section

omit [Add T] [Sub T] [Zero T]

/-- A loop over some list feeds one watcher in every round, or none. -/
theorem Ok.foldl_feed {β : Type*} (h : l.Ok refs) (bs : List β)
    (feed : Queue (Watcher ι) → β → Queue (Watcher ι))
    (hfeed : ∀ q, ∀ b ∈ bs, feed q b = q ∨ ∃ x revents, feed q b = q.feedEvent x revents ∧
      l.queue.InRange x ∧ (l.active x ≠ 0 ∨ MayLapse x revents)) :
    Ok { l with queue := bs.foldl feed l.queue } refs ∧
      (bs.foldl feed l.queue).priority = l.queue.priority := by
  refine List.foldlRecOn
    (motive := fun q => Ok { l with queue := q } refs ∧ q.priority = l.queue.priority)
    bs feed ⟨h, rfl⟩ fun q ⟨hok, hpriority⟩ b hb => ?_
  rcases hfeed q b hb with hsame | ⟨x, revents, hnew, hrange, hx⟩
  · rw [hsame]
    exact ⟨hok, hpriority⟩
  · rw [hnew]
    refine ⟨hok.feedEvent ?_ ?_, Queue.feedEvent_priority.trans hpriority⟩
    · rwa [Queue.InRange, hpriority]
    · rwa [active_requeue hpriority]

/-- `queue_events` for active watchers. -/
theorem Ok.queueEvents (h : l.Ok refs) {ws : List (Watcher ι)} (hws : ∀ x ∈ ws, l.active x ≠ 0)
    (type : UInt32) : (l.queueEvents ws type).Ok refs :=
  (h.foldl_feed ws _ fun _ x hx =>
    .inr ⟨x, type, rfl, h.manned.inRange x (.inl (hws x hx)), .inl (hws x hx)⟩).1

end

section

omit [LinearOrder T] [Add T] [Sub T] [Zero T]

theorem idleReifyLoop_same (l : Loop ι T) (pri : Nat) : Same l (l.idleReifyLoop pri) := by
  induction pri with
  | zero => exact .refl l
  | succ pri ih =>
      rw [idleReifyLoop]
      split
      · exact .refl l
      · split
        · rfl
        · exact ih

theorem idleReify_same (l : Loop ι T) : Same l l.idleReify := by
  unfold idleReify
  split
  · exact idleReifyLoop_same l numpri
  · exact .refl l

end

/-- What `idle_reify` does from `pri` down. -/
inductive IdleReified (l : Loop ι T) (pri : Nat) (l' : Loop ι T) : Prop
  /-- the idle watchers of `p` are fed -/
  | fed {p : Nat} (hp : p < pri) (hcnt : (l.idles p).cnt ≠ 0)
      (hidle : ∀ p', p < p' → p' < pri → (l.idles p').cnt = 0)
      (hnone : ∀ p', p ≤ p' → p' < pri → l.queue.pendings p' = [])
      (hfed : l' = l.queueEvents ((l.idles p).watchers.map .idle) evIdle)
  /-- somebody else comes first -/
  | busy (hbusy : ∀ p, p < pri → (l.idles p).cnt ≠ 0 →
      ∃ p', p ≤ p' ∧ p' < pri ∧ l.queue.pendings p' ≠ []) (hsame : l' = l)

omit [LinearOrder T] [Add T] [Sub T] [Zero T] in
theorem idleReifyLoop_reified (l : Loop ι T) (pri : Nat) :
    IdleReified l pri (l.idleReifyLoop pri) := by
  induction pri with
  | zero => exact .busy (fun p hp => absurd hp (Nat.not_lt_zero p)) rfl
  | succ pri ih =>
      rw [idleReifyLoop]
      by_cases hpending : l.queue.pendings pri = []
      · rw [if_neg (not_not.mpr hpending)]
        by_cases hcnt : (l.idles pri).cnt = 0
        · rw [if_neg (not_not.mpr hcnt)]
          cases ih with
          | fed hp hcnt' hidle hnone hfed =>
              refine .fed (Nat.lt_succ_of_lt hp) hcnt' (fun p' hlt hp' => ?_)
                (fun p' hle hp' => ?_) hfed
              · rcases Nat.lt_succ_iff_lt_or_eq.mp hp' with hp' | rfl
                · exact hidle p' hlt hp'
                · exact hcnt
              · rcases Nat.lt_succ_iff_lt_or_eq.mp hp' with hp' | rfl
                · exact hnone p' hle hp'
                · exact hpending
          | busy hbusy hsame =>
              refine .busy (fun p hp hp' => ?_) hsame
              rcases Nat.lt_succ_iff_lt_or_eq.mp hp with hp | rfl
              · obtain ⟨p', hle, hlt, hne⟩ := hbusy p hp hp'
                exact ⟨p', hle, Nat.lt_succ_of_lt hlt, hne⟩
              · exact absurd hcnt hp'
        · rw [if_pos hcnt]
          refine .fed (Nat.lt_succ_self pri) hcnt (fun p' hlt hp' => ?_)
            (fun p' hle hp' => ?_) rfl
          · omega
          · rwa [Nat.le_antisymm (Nat.lt_succ_iff.mp hp') hle]
      · rw [if_pos hpending]
        exact .busy
          (fun p hp _ => ⟨pri, Nat.lt_succ_iff.mp hp, Nat.lt_succ_self pri, hpending⟩) rfl

section

omit [Add T] [Sub T] [Zero T]

theorem Ok.idleReifyLoop (h : l.Ok refs) (pri : Nat) : (l.idleReifyLoop pri).Ok refs := by
  induction pri with
  | zero => exact h
  | succ pri ih =>
      rw [Loop.idleReifyLoop]
      split
      · exact h
      · split
        · refine h.queueEvents (fun x hx => ?_) _
          obtain ⟨w, hw, rfl⟩ := List.mem_map.mp hx
          have hactive := (h.idling.ok pri).mem_watchers.mp hw
          rw [active, idleActive, ← h.idling.abspri pri w hactive]
          exact hactive
        · exact ih

theorem Ok.idleReify (h : l.Ok refs) : l.idleReify.Ok refs := by
  unfold Loop.idleReify
  split
  · exact h.idleReifyLoop numpri
  · exact h

end

/-! ## Descriptors -/

omit [DecidableEq ι] [Add T] [Sub T] [Zero T] in
/-- The watchers on the list of a descriptor are active. -/
theorem Ok.active_of_head (h : l.Ok refs) {fd : Nat} {u : Option ι}
    (hu : u ∈ (l.fds.anfds fd).head) : l.active (.io u) ≠ 0 :=
  ((h.fds.listed u fd).mp hu).1

omit [Add T] [Sub T] [Zero T] in
theorem Ok.fdEvent (h : l.Ok refs) (fd : Nat) (revents : UInt32) :
    (l.fdEvent fd revents).Ok refs := by
  unfold Loop.fdEvent
  split
  · refine (h.foldl_feed (l.fds.anfds fd).head _ fun q u hu => ?_).1
    have hactive := h.active_of_head hu
    by_cases hev : l.fds.events u &&& revents = 0
    · exact .inl (if_neg (not_not.mpr hev))
    · exact .inr ⟨.io u, _, if_pos hev, h.manned.inRange _ (.inl hactive), .inl hactive⟩
  · exact h

section

omit [LinearOrder T] [Add T] [Sub T] [Zero T]

/-- Stopping a watcher changes no priority. -/
theorem evIoStop_priority (u : Option ι) : (l.evIoStop u).queue.priority = l.queue.priority := by
  rw [evIoStop_queue]
  exact Queue.clearPending_priority

theorem evIoStop_active (u v : Option ι) :
    (l.evIoStop u).fds.active v = if v = u then 0 else l.fds.active v := by
  unfold evIoStop
  dsimp only
  split
  · rename_i hu
    split
    · rename_i hv
      exact hv ▸ hu
    · rfl
  · change (l.fds.stop u).active v = _
    rw [Fds.stop_active, Function.update_apply]

end

omit [DecidableEq ι] in
/-- The events of `fd_kill` excuse a watcher. -/
theorem mayLapse_of_kill (u : Option ι) :
    MayLapse (.io u : Watcher ι) (evError ||| evRead ||| evWrite) := by
  change (evError ||| evRead ||| evWrite) &&& evError ≠ 0
  decide

section

omit [Add T] [Sub T] [Zero T]

theorem Ok.fdKillLoop {ws : List (Option ι)} (h : l.Ok refs) (hpipe : none ∉ ws)
    (hrange : ∀ u ∈ ws, l.queue.InRange (.io u)) : (l.fdKillLoop ws).Ok refs := by
  induction ws generalizing l with
  | nil => exact h
  | cons u ws ih =>
      cases u with
      | none => exact absurd List.mem_cons_self hpipe
      | some w =>
          have hin : (l.evIoStop (some w)).queue.InRange (.io (some w)) := by
            rw [Queue.InRange, evIoStop_priority]
            exact hrange _ List.mem_cons_self
          have hfed : ((l.evIoStop (some w)).feedEvent (.io (some w))
              (evError ||| evRead ||| evWrite)).Ok refs :=
            (h.evIoStop w).feedEvent hin (.inr (mayLapse_of_kill _))
          refine ih hfed (fun hmem => hpipe (List.mem_cons_of_mem _ hmem)) fun v hv => ?_
          rw [Queue.InRange, Loop.feedEvent, Queue.feedEvent_priority, evIoStop_priority]
          exact hrange v (List.mem_cons_of_mem _ hv)

theorem Ok.fdKill {fd : Nat} (h : l.Ok refs) (hpipe : none ∉ (l.fds.anfds fd).head) :
    (l.fdKill fd).Ok refs :=
  h.fdKillLoop hpipe fun _ hu => h.manned.inRange _ (.inl (h.active_of_head hu))

end

omit [LinearOrder T] [Add T] [Sub T] [Zero T] in
theorem fdKillLoop_active (ws : List (Option ι)) (v : Option ι) :
    (l.fdKillLoop ws).fds.active v = if v ∈ ws then 0 else l.fds.active v := by
  induction ws generalizing l with
  | nil => simp [fdKillLoop]
  | cons u ws ih =>
      rw [fdKillLoop, ih, feedEvent, evIoStop_active]
      by_cases hmem : v ∈ ws
      · simp [hmem]
      · simp [hmem]

/-! ## Async watchers -/

omit [LinearOrder T] [Add T] [Sub T] [Zero T] in
theorem pipecbStep_fed (hsound : l.queue.Sound) (w : ι) :
    Queue.Fuller (fun x => x = .async w ∧ l.sent w = true) l.queue (l.pipecbStep w).queue := by
  unfold pipecbStep
  split
  · rename_i hsent
    exact Queue.Fuller.feedEvent (P := fun x => x = .async w ∧ l.sent w = true) hsound
      ⟨rfl, hsent⟩ evAsync
  · exact .refl ..

omit [Add T] [Sub T] [Zero T] in
theorem Ok.pipecbStep (h : l.Ok refs) (hw : l.asyncs.active w ≠ 0) : (l.pipecbStep w).Ok refs := by
  have hactive : l.active (.async w) ≠ 0 := hw
  unfold Loop.pipecbStep
  split
  · have hsent : Ok { l with sent := Function.update l.sent w false } refs :=
      h.congr rfl rfl rfl rfl rfl rfl rfl
    exact hsent.feedEvent (h.manned.inRange _ (.inl hactive)) (.inl hactive)
  · exact h

/-! ## Timers -/

section

omit [Add T] [Zero T]

theorem evTimerStop_priority (w : ι) : (l.evTimerStop w).queue.priority = l.queue.priority := by
  rw [evTimerStop_queue]
  exact Queue.clearPending_priority

theorem evTimerStop_same (w : ι) : Same l (l.evTimerStop w) := by
  obtain ⟨_, _, _, hstop⟩ := l.evTimerStop_writes w
  rw [hstop]
  rfl

end

theorem timersReifyStep_same (l : Loop ι T) : Same l l.timersReifyStep := by
  unfold timersReifyStep
  dsimp only
  split
  · rfl
  · exact (evTimerStop_same l.timers.root).trans rfl

theorem timersReifyLoop_same (fuel : Nat) (l : Loop ι T) : Same l (l.timersReifyLoop fuel) := by
  induction fuel generalizing l with
  | zero => exact .refl l
  | succ fuel ih =>
      rw [timersReifyLoop]
      split
      · exact (timersReifyStep_same l).trans (ih l.timersReifyStep)
      · exact .refl l

theorem timersReify_same (l : Loop ι T) : Same l l.timersReify := by
  unfold timersReify
  split
  · exact (timersReifyLoop_same _ l).trans rfl
  · exact .refl l

/-- `feed_reverse_done` takes all timers off `rfeeds`. -/
theorem timersReify_rfeeds (hrfeeds : l.rfeeds = []) : l.timersReify.rfeeds = [] := by
  unfold timersReify
  split
  · rfl
  · exact hrfeeds

omit [DecidableEq ι] [Add T] [Sub T] [Zero T] in
/-- `timercnt` tells whether there is a root. -/
theorem timercnt_of_expired {t : Timers ι T} {mnNow : T} (h : t.expired mnNow = true) :
    t.timercnt ≠ 0 := by
  unfold Timers.expired at h
  rw [Bool.and_eq_true, decide_eq_true_iff] at h
  exact h.1

/-- The state in front of `feed_reverse_done`. -/
structure Reifying (l : Loop ι T) (refs : Int) : Prop where
  ok : l.Ok refs
  fed : ∀ x ∈ l.rfeeds, l.queue.InRange x ∧ ∀ revents, MayLapse x revents

theorem Reifying.step (h : l.Reifying refs) (hcnt : l.timers.timercnt ≠ 0) :
    l.timersReifyStep.Reifying refs := by
  have hroot := h.ok.timers.root_active hcnt
  have hrange : l.queue.InRange (.timer l.timers.root) :=
    h.ok.manned.inRange (.timer l.timers.root) (.inl hroot)
  unfold timersReifyStep
  dsimp only
  by_cases hrep : l.timers.evRepeat l.timers.root = 0
  · rw [if_neg (not_not.mpr hrep)]
    have hrfeeds : (l.evTimerStop l.timers.root).rfeeds = l.rfeeds := by
      obtain ⟨_, _, _, hstop⟩ := l.evTimerStop_writes l.timers.root
      rw [hstop]
    refine ⟨(h.ok.evTimerStop l.timers.root).congr rfl rfl rfl rfl rfl rfl rfl, fun x hx => ?_⟩
    have hpriority : ∀ x, l.queue.InRange x → (l.evTimerStop l.timers.root).queue.InRange x :=
      fun x hx => by rwa [Queue.InRange, evTimerStop_priority]
    rcases List.mem_cons.mp hx with rfl | hx
    · exact ⟨hpriority _ hrange, fun _ => trivial⟩
    · rw [hrfeeds] at hx
      exact ⟨hpriority x (h.fed x hx).1, (h.fed x hx).2⟩
  · rw [if_pos hrep]
    have hrearm := h.ok.retimed (h.ok.timers.rearm l.mnNow hcnt).1
      (fun v => h.ok.timers.rearm_active_iff l.mnNow hcnt) rfl
    refine ⟨hrearm.congr rfl rfl rfl rfl rfl rfl rfl, fun x hx => ?_⟩
    rcases List.mem_cons.mp hx with rfl | hx
    · exact ⟨hrange, fun _ => trivial⟩
    · exact h.fed x hx

theorem Reifying.loop (h : l.Reifying refs) (fuel : Nat) :
    (l.timersReifyLoop fuel).Reifying refs := by
  induction fuel generalizing l with
  | zero => exact h
  | succ fuel ih =>
      rw [timersReifyLoop]
      split
      · rename_i hexpired
        exact ih (h.step (timercnt_of_expired hexpired))
      · exact h

theorem Ok.timersReify (h : l.Ok refs) (hrfeeds : l.rfeeds = []) : l.timersReify.Ok refs := by
  unfold Loop.timersReify
  split
  · have hloop : (l.timersReifyLoop l.timers.timercnt).Reifying refs :=
      Reifying.loop ⟨h, fun x hx => by rw [hrfeeds] at hx; cases hx⟩ _
    have hfed := hloop.ok.foldl_feed (l.timersReifyLoop l.timers.timercnt).rfeeds
      (fun q w => q.feedEvent w evTimer) fun q x hx =>
        .inr ⟨x, evTimer, rfl, (hloop.fed x hx).1, .inr ((hloop.fed x hx).2 _)⟩
    exact hfed.1.congr rfl rfl rfl rfl rfl rfl rfl
  · exact h

end Loop
end Ev
end Cyan

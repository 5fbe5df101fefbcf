import Cyan.Base.Simulation
import Cyan.Event.Async
import Cyan.Ev.RunSends

/-!
# What `event::async` relies on

`Event.Async` has an `ev_async` with its `active` and its `sent`: it is started and
stopped, `sent` is set, a delivery is due and clears it, and then the callback runs.
`asyncMachine` has these steps and no others.

* `asyncAct` tells which of them a step of the loop is for a watcher: a function that the
  program calls, a write of `ev_async_send`, a round of the loop of `pipecb`, or the
  beginning of the callback.
* `async_step`: the loop does nothing else to the watcher, whatever the program, the
  kernel and the other threads do.
* `async_refined`: what a run of the loop does to the watcher is a run of `asyncMachine`.
-/

namespace Cyan
namespace Ev

open Base Event

variable {Thread ι T : Type*} [DecidableEq Thread] [DecidableEq ι]
variable [LinearOrder T] [Add T] [Sub T] [Zero T]

/-- What happens to an asynchronous event. -/
inductive AsyncAct
  /-- `ev_async_start` -/
  | start
  /-- `ev_async_stop` -/
  | stop
  /-- `w->sent = 1` -/
  | send
  /-- `pipecb` clears `sent`, and feeds the event -/
  | deliver
  /-- the callback begins -/
  | call
  deriving DecidableEq, Repr

/-- An asynchronous event, and whether its callback is to come. -/
def asyncMachine : Machine (Async × Bool) AsyncAct where
  start := fun s => s = (Async.create.setCallback, false)
  step := fun (a, fed) => fun
    | .start => some (a.start, fed)
    | .stop => some ({ a with active := false }, false)
    | .send => some ((a.stepSend true .send).1, fed)
    | .deliver => if a.due then some (a.deliver, true) else none
    | .call => if fed then some (a, false) else none

/-- What a function of the loop is for the async watcher `w`. -/
def Call.asyncAct (c : Call ι T) (w : ι) : Option AsyncAct :=
  match c with
  | .asyncStart v _ => if v = w then some .start else none
  | .asyncStop v => if v = w then some .stop else none
  | _ => none

/-- What a step of the loop is for the async watcher `w`. -/
def State.asyncAct (w : ι) (s : State Thread ι T) (a : Action Thread ι T)
    (s' : State Thread ι T) : Option AsyncAct :=
  match a with
  | .call c => c.asyncAct w
  | .thread t => if s.sending t = some (w, .sent) then some .send else none
  | .next _ =>
      match s.pc with
      | .pipecb (.scan (v :: _)) _ =>
          if v = w ∧ s.loop.sent w = true then some .deliver else none
      | _ => if callsAsync w s a s' then some .call else none
  | _ => none

namespace Queue

variable {W : Type*} [DecidableEq W] {q q' : Queue W} {w : W}

section

omit [DecidableEq W]

/-- A watcher that keeps its entry stays pending. -/
theorem pending_iff_of_kept (hq : q.Sound) (hq' : q'.Sound)
    (hold : q'.pending w ≠ 0 → q.pending w ≠ 0)
    (hkept : ∀ pri events, (w, events) ∈ q.agenda pri →
      ∃ events', (w, events') ∈ q'.agenda pri) :
    q'.pending w ≠ 0 ↔ q.pending w ≠ 0 := by
  refine ⟨hold, fun hw => ?_⟩
  obtain ⟨⟨_, events⟩, he, rfl⟩ := List.mem_map.mp (hq.pending_iff.mp hw)
  obtain ⟨events', he'⟩ := hkept _ events he
  exact hq'.pending_of_mem (List.mem_map.mpr ⟨_, he', rfl⟩)

theorem Fuller.pending_iff {P : W → Prop} (h : Fuller P q q') (hq : q.Sound) (hq' : q'.Sound)
    (hP : ¬P w) : q'.pending w ≠ 0 ↔ q.pending w ≠ 0 :=
  pending_iff_of_kept hq hq' (fun hw => (h.pending w hw).resolve_left hP) fun pri events he => by
    obtain ⟨events', he', -⟩ := h.kept pri w events he
    exact ⟨events', he'⟩

theorem Quieter.pending_iff {P : W → Prop} (h : Quieter P q q') (hq : q.Sound) (hq' : q'.Sound)
    (hP : ¬P w) : q'.pending w ≠ 0 ↔ q.pending w ≠ 0 :=
  pending_iff_of_kept hq hq' (h.pending w) fun pri events he =>
    ⟨events, (h.kept pri _ he).resolve_right fun hx => hP hx.1⟩

end

theorem takePending_pending_of_ne {p : AnPending W} {pri : Nat}
    (h : q.takePending pri = some (p, q')) (hw : p.w ≠ some w) : q'.pending w = q.pending w := by
  obtain ⟨l, -, rfl⟩ := takePending_eq h
  cases hp : p.w with
  | none => rfl
  | some v => exact Function.update_of_ne (fun heq => hw (hp.trans (congrArg some heq.symm))) ..

end Queue

namespace Loop

variable {l l' : Loop ι T} {refs : Int} {c : Call ι T} {w : ι} {count : UInt32}

/-- The watcher `w` as `event::async` has it, beside its `count_`. -/
def asyncOf (l : Loop ι T) (w : ι) (count : UInt32) : Async where
  active := decide (l.asyncs.active w ≠ 0)
  sent := l.sent w
  callback := true
  count := count

/-- The callback of `w` is to come. -/
def fed (l : Loop ι T) (w : ι) : Bool :=
  decide (l.queue.pending (.async w) ≠ 0)

/-- The state of `asyncMachine` that the loop has for `w`. -/
def asyncView (l : Loop ι T) (w : ι) (count : UInt32) : Async × Bool :=
  (l.asyncOf w count, l.fed w)

section

omit [DecidableEq ι] [LinearOrder T] [Add T] [Sub T] [Zero T]

theorem fed_congr (h : l'.queue.pending (.async w) ≠ 0 ↔ l.queue.pending (.async w) ≠ 0) :
    l'.fed w = l.fed w :=
  decide_eq_decide.mpr h

/-- Nothing that concerns `w` changes. -/
theorem asyncView_congr (hactive : l'.asyncs.active w ≠ 0 ↔ l.asyncs.active w ≠ 0)
    (hsent : l'.sent w = l.sent w)
    (hfed : l'.queue.pending (.async w) ≠ 0 ↔ l.queue.pending (.async w) ≠ 0) :
    l'.asyncView w count = l.asyncView w count := by
  rw [asyncView, asyncView, asyncOf, asyncOf, hsent, decide_eq_decide.mpr hactive, fed_congr hfed]

end


section

omit [Add T] [Sub T] [Zero T]

/-- `ev_async_start` clears an earlier send. -/
theorem asyncView_evAsyncStart {v : ι} {fd : Nat} (h : l.Ok refs)
    (hsound : (l.evAsyncStart v fd).queue.Sound) :
    (l.evAsyncStart v fd).asyncView w count =
      if v = w then ((l.asyncOf w count).start, l.fed w) else l.asyncView w count := by
  have hqueue := (Called.evAsyncStart (P := fun _ => False) h v fd).queue
  have hfed := hqueue.pending_iff (w := .async w) h.manned.sound hsound id
  by_cases hv : l.asyncs.active v = 0
  · obtain ⟨hpipe, hcleared⟩ :=
      evpipeInit_rest { l with sent := Function.update l.sent v false } fd
    have hasyncs : (l.evAsyncStart v fd).asyncs.active =
        Function.update l.asyncs.active v (l.asyncs.cnt + 1) := by
      unfold evAsyncStart
      rw [if_neg (not_not.mpr hv)]
      dsimp only
      rw [hpipe]
      exact WatcherArray.start_active
    have hsent : (l.evAsyncStart v fd).sent = Function.update l.sent v false := by
      unfold evAsyncStart
      rw [if_neg (not_not.mpr hv)]
      exact hcleared
    split
    · rename_i hvw
      subst hvw
      have hstarted : (l.evAsyncStart v fd).asyncOf v count = (l.asyncOf v count).start := by
        simp [asyncOf, Async.start, hasyncs, hsent, hv]
      rw [asyncView, hstarted, fed_congr hfed]
    · rename_i hvw
      refine asyncView_congr ?_ ?_ hfed
      · rw [hasyncs, Function.update_of_ne (Ne.symm hvw)]
      · rw [hsent, Function.update_of_ne (Ne.symm hvw)]
  · -- the watcher is active already, and `ev_async_start` returns at once
    have hsame : l.evAsyncStart v fd = l := if_pos hv
    rw [hsame]
    split
    · rename_i hvw
      subst hvw
      have hactive : (l.asyncOf v count).active = true := decide_eq_true hv
      have hstarted : (l.asyncOf v count).start = l.asyncOf v count := if_pos hactive
      rw [hstarted, asyncView]
    · rfl

/-- `ev_async_stop` takes the callback back. -/
theorem asyncView_evAsyncStop {v : ι} (h : l.Ok refs) (hsound : (l.evAsyncStop v).queue.Sound) :
    (l.evAsyncStop v).asyncView w count =
      if v = w then ({ l.asyncOf w count with active := false }, false)
      else l.asyncView w count := by
  have hqueue := l.evAsyncStop_queue v
  have hsent : (l.evAsyncStop v).sent = l.sent := by
    obtain ⟨_, _, _, hstop⟩ := l.evAsyncStop_writes v
    rw [hstop]
  have hasyncs : ∀ u, (l.evAsyncStop v).asyncs.active u ≠ 0 ↔ u ≠ v ∧ l.asyncs.active u ≠ 0 := by
    intro u
    unfold evAsyncStop
    dsimp only
    split
    · rename_i hv
      have hv : l.asyncs.active v = 0 := hv
      exact ⟨fun hu => ⟨fun huv => hu (huv ▸ hv), hu⟩, And.right⟩
    · rename_i hv
      obtain ⟨hself, hothers⟩ := h.asyncs.stop_active hv
      by_cases huv : u = v
      · subst huv
        exact ⟨fun hu => absurd hself hu, fun hu => absurd rfl hu.1⟩
      · exact (hothers u huv).trans ⟨fun hu => ⟨huv, hu⟩, And.right⟩
  split
  · rename_i hvw
    subst hvw
    have hinactive : ¬(l.evAsyncStop v).asyncs.active v ≠ 0 := fun hv => ((hasyncs v).mp hv).1 rfl
    have hgone : (l.evAsyncStop v).fed v = false := by
      rw [fed, hqueue]
      exact decide_eq_false (not_not.mpr Queue.clearPending_pending_self)
    rw [asyncView, asyncOf, decide_eq_false hinactive, hsent, hgone]
    rfl
  · rename_i hvw
    have hwv : w ≠ v := Ne.symm hvw
    refine asyncView_congr ((hasyncs w).trans ⟨And.right, fun hw => ⟨hwv, hw⟩⟩) (hsent ▸ rfl) ?_
    have hquiet := Queue.Quieter.clearPending h.manned.sound (.async v)
    rw [hqueue] at hsound ⊢
    exact hquiet.pending_iff h.manned.sound hsound fun heq => hwv (Watcher.async.inj heq)

end

/-- What the program calls. -/
theorem asyncView_call (h : l.Ok refs) (hc : c.Allowed l refs) (w : ι) (count : UInt32) :
    asyncMachine.stutter (l.asyncView w count) (c.asyncAct w) =
      some ((l.call c).asyncView w count) := by
  obtain ⟨hok, hcalled⟩ := h.call hc
  have hother : (∀ how, c ≠ .break how) → (∀ v fd, c ≠ .asyncStart v fd) →
      (∀ v, c ≠ .asyncStop v) → (l.call c).asyncView w count = l.asyncView w count := by
    intro hbreak hstart hstop
    have hasyncs : (l.call c).asyncs = l.asyncs :=
      call_part (fun _ _ _ _ _ _ _ _ => rfl) hbreak hstart hstop
    have hsent : (l.call c).sent = l.sent :=
      call_part (fun _ _ _ _ _ _ _ _ => rfl) hbreak hstart hstop
    refine asyncView_congr (by rw [hasyncs]) (by rw [hsent]) ?_
    refine hcalled.queue.pending_iff h.manned.sound hok.manned.sound fun hstops => ?_
    cases c <;> first | exact hstop _ rfl | cases hstops
  cases c with
  | «break» how => rfl
  | asyncStart v fd =>
      have hview : (l.evAsyncStart v fd).asyncView w count = _ :=
        asyncView_evAsyncStart h hok.manned.sound
      rw [call, hview, Call.asyncAct]
      split <;> rfl
  | asyncStop v =>
      have hview : (l.evAsyncStop v).asyncView w count = _ :=
        asyncView_evAsyncStop h hok.manned.sound
      rw [call, hview, Call.asyncAct]
      split <;> rfl
  | _ =>
      have hview := hother (fun _ heq => by cases heq) (fun _ _ heq => by cases heq)
        fun _ heq => by cases heq
      rw [hview]
      rfl

omit [LinearOrder T] [Add T] [Sub T] [Zero T] in
/-- One round of the loop of `pipecb` delivers an event that is due. -/
theorem asyncView_pipecbStep {v : ι} (hv : l.asyncs.active v ≠ 0) (w : ι) (count : UInt32) :
    asyncMachine.stutter (l.asyncView w count)
        (if v = w ∧ l.sent w = true then some .deliver else none) =
      some ((l.pipecbStep v).asyncView w count) := by
  by_cases hsent : l.sent v = true
  · have hstep : l.pipecbStep v =
        { l with sent := Function.update l.sent v false }.feedEvent (.async v) evAsync :=
      if_pos hsent
    rw [hstep]
    by_cases hvw : v = w
    · subst hvw
      have hdue : (l.asyncOf v count).due = true :=
        Bool.and_eq_true_iff.mpr ⟨decide_eq_true hv, hsent⟩
      have hdelivered : ({ l with sent := Function.update l.sent v false }.feedEvent (.async v)
          evAsync).asyncOf v count = (l.asyncOf v count).deliver :=
        congrArg (fun sent => Async.mk (decide (l.asyncs.active v ≠ 0)) sent true count)
          (Function.update_self ..)
      have hfed : ({ l with sent := Function.update l.sent v false }.feedEvent (.async v)
          evAsync).fed v = true :=
        decide_eq_true (Queue.feedEvent_pending_self l.queue _ _)
      rw [if_pos ⟨rfl, hsent⟩, asyncView, asyncView, hdelivered, hfed]
      exact if_pos hdue
    · have hwv : w ≠ v := Ne.symm hvw
      have hne : Watcher.async w ≠ (.async v : Watcher ι) := fun heq =>
        hwv (Watcher.async.inj heq)
      rw [if_neg fun h => hvw h.1]
      have hkept : Function.update l.sent v false w = l.sent w := Function.update_of_ne hwv ..
      have hfed : (l.queue.feedEvent (.async v) evAsync).pending (.async w) ≠ 0 ↔
          l.queue.pending (.async w) ≠ 0 := by
        rw [Queue.feedEvent_pending_of_ne hne]
      have hview : ({ l with sent := Function.update l.sent v false }.feedEvent (.async v)
          evAsync).asyncView w count = l.asyncView w count :=
        asyncView_congr .rfl hkept hfed
      rw [hview]
      rfl
  · have hstep : l.pipecbStep v = l := if_neg hsent
    have hnot : ¬(v = w ∧ l.sent w = true) := fun h => hsent (h.1 ▸ h.2)
    rw [hstep, if_neg hnot]
    rfl

end Loop

namespace State

variable {s s' s₀ : State Thread ι T} {cfg : Config T} {eventfd : Bool} {a : Action Thread ι T}
variable {as : List (Action Thread ι T)} {next : Next} {now : T} {w : ι} {count : UInt32}

section

omit [DecidableEq Thread] [LinearOrder T] [Add T] [Sub T] [Zero T]

theorem callsAsync_of_ne (hpc : ∀ next, s.pc ≠ .invoke next) : callsAsync w s a s' = false := by
  unfold callsAsync
  split
  · split
    · rename_i hinvoke _
      exact absurd hinvoke (hpc _)
    · rfl
  · rfl

theorem callsAsync_of_not_callback
    (hpc : ∀ events next, s'.pc ≠ .callback (.async w) events next) :
    callsAsync w s a s' = false := by
  unfold callsAsync
  split
  · split
    · rename_i v _ _ hinvoke hcallback
      exact decide_eq_false fun hv => hpc _ _ (hv ▸ hcallback)
    · rfl
  · rfl

/-- Behind `pipecb` a step of the loop is the beginning of the callback, or nothing. -/
theorem asyncAct_next (hpc : ∀ v ws next, s.pc ≠ .pipecb (.scan (v :: ws)) next) :
    asyncAct w s (.next now) s' = if callsAsync w s (.next now) s' then some .call else none := by
  unfold asyncAct
  dsimp only
  split
  · rename_i heq
    exact absurd heq (hpc _ _ _)
  · rfl

theorem asyncAct_eq_call :
    asyncAct w s a s' = some .call ↔ callsAsync w s a s' = true := by
  unfold asyncAct
  split
  · rename_i c
    have hnot : callsAsync w s (.call c) s' = false := rfl
    rw [hnot]
    refine iff_of_false (fun h => ?_) Bool.false_ne_true
    unfold Call.asyncAct at h
    split at h
    · split at h <;> cases h
    · split at h <;> cases h
    · cases h
  · rename_i t
    have hnot : callsAsync w s (.thread t) s' = false := rfl
    rw [hnot]
    refine iff_of_false (fun h => ?_) Bool.false_ne_true
    split at h <;> cases h
  · split
    · rename_i hpc
      rw [callsAsync_of_ne fun next heq => by cases hpc.symm.trans heq]
      refine iff_of_false (fun h => ?_) Bool.false_ne_true
      split at h <;> cases h
    · by_cases hcalls : callsAsync w s (.next ‹_›) s' = true
      · simp [hcalls]
      · simp [hcalls]
  · rename_i hnext
    have hnot : callsAsync w s a s' = false := by
      unfold callsAsync
      split
      · exact absurd rfl (hnext _)
      · rfl
    rw [hnot]
    exact iff_of_false (fun h => by cases h) Bool.false_ne_true

end

omit [DecidableEq Thread] [Add T] [Sub T] [Zero T] in
/-- The callback of `w` begins when it is next, and it has been fed. -/
theorem Inv.asyncView_invoke (h : s.Inv) (hpc : s.pc = .invoke next)
    (hs' : s.stepInvoke next = s') :
    asyncMachine.stutter (s.loop.asyncView w count)
        (if callsAsync w s (.next now) s' then some .call else none) =
      some (s'.loop.asyncView w count) := by
  unfold stepInvoke at hs'
  dsimp only at hs'
  split at hs'
  · rename_i p q htake
    have hother : p.w ≠ some (.async w) →
        ({ s.loop with queue := q } : Loop ι T).asyncView w count = s.loop.asyncView w count :=
      fun hw => Loop.asyncView_congr .rfl rfl (by
        rw [Queue.takePending_pending_of_ne htake hw])
    split at hs' <;> subst hs'
    · rename_i hp
      rw [callsAsync_of_not_callback fun _ _ heq => by cases hpc.symm.trans heq]
      rw [hother fun heq => by cases hp.symm.trans heq]
      rfl
    · rename_i hp
      rw [callsAsync_of_not_callback fun _ _ heq => by cases heq]
      rw [hother fun heq => by cases hp.symm.trans heq]
      rfl
    · rename_i y hy hp
      by_cases hyw : y = .async w
      · subst hyw
        have hcalls : callsAsync w s (.next now) { s with
            loop := { s.loop with queue := q }, pc := .callback (.async w) p.events next } =
            true := by
          unfold callsAsync
          simp [hpc]
        have hbefore : s.loop.fed w = true := by
          obtain ⟨v, events⟩ := p
          obtain rfl : v = some (.async w) := hp
          exact decide_eq_true (h.ok.manned.sound.pending_of_mem
            (List.mem_map_of_mem (Queue.mem_agenda_of_takePending htake)))
        have hafter : ({ s.loop with queue := q } : Loop ι T).fed w = false :=
          decide_eq_false (not_not.mpr ((Queue.takePending_pending htake).2.2 _ hp))
        rw [hcalls, Loop.asyncView, Loop.asyncView, hafter, hbefore]
        rfl
      · rw [callsAsync_of_not_callback fun _ _ heq => hyw (by cases heq; rfl),
          hother fun heq => hyw (Option.some.inj (hp.symm.trans heq))]
        rfl
  · split at hs' <;> subst hs'
    · rw [callsAsync_of_not_callback fun _ _ heq => by cases next <;> cases heq]
      rfl
    · rw [callsAsync_of_not_callback fun _ _ heq => by cases hpc.symm.trans heq]
      rfl

omit [DecidableEq Thread] in
/-- The other steps of the loop. -/
theorem Inv.asyncView_loop (h : s.Inv)
    (hstep : s.stepLoop cfg eventfd now = some s') :
    asyncMachine.stutter (s.loop.asyncView w count) (asyncAct w s (.next now) s') =
      some (s'.loop.asyncView w count) := by
  have hstage := h.stage
  unfold Stage at hstage
  by_cases hscan : ∃ v ws next, s.pc = .pipecb (.scan (v :: ws)) next
  · obtain ⟨v, ws, next, hpc⟩ := hscan
    rw [hpc] at hstage
    unfold stepLoop at hstep
    rw [hpc] at hstep
    cases hstep
    have hact : asyncAct w s (.next now) (s.stepPipecb eventfd next (.scan (v :: ws))) =
        if v = w ∧ s.loop.sent w = true then some .deliver else none := by
      unfold asyncAct
      rw [hpc]
    rw [hact]
    exact Loop.asyncView_pipecbStep (hstage v List.mem_cons_self) w count
  · push Not at hscan
    rw [asyncAct_next hscan]
    unfold stepLoop at hstep
    split at hstep
    case h_1 => cases hstep
    case h_2 next hpc =>
      exact h.asyncView_invoke hpc (Option.some.inj hstep)
    all_goals
      rename_i hpc
      rw [callsAsync_of_ne fun next heq => by cases hpc.symm.trans heq]
      refine congrArg some (Eq.symm ?_)
    case h_3 =>
      cases hstep
      rfl
    case h_4 p next =>
      cases hstep
      cases p with
      | scan ws =>
          cases ws with
          | nil => rfl
          | cons v ws => exact absurd hpc (hscan v ws next)
      | _ => rfl
    case h_5 => split at hstep <;> cases hstep <;> rfl
    case h_6 => cases hstep; rfl
    case h_7 => cases hstep; rfl
    case h_8 =>
      cases hstep
      have hsame := Loop.polled_same s.loop now
      have hwoken := h.ok.woken now fun hskipped => h.pipe (.inl hskipped)
      have hpolled : (s.loop.polled now).Ok s.refs :=
        (hwoken.timersReify (Loop.woken_rfeeds h.rfeeds now)).idleReify
      have hfed := (h.polled_fed hpc now).pending_iff (w := .async w) h.ok.manned.sound
        hpolled.manned.sound id
      refine Loop.asyncView_congr ?_ ?_ hfed
      · exact iff_of_eq (congrArg (fun asyncs => asyncs.active w ≠ 0) hsame.asyncs)
      · exact congrFun hsame.shared.1 w
    case h_9 => split at hstep <;> cases hstep <;> rfl

omit [DecidableEq Thread] [LinearOrder T] [Add T] [Sub T] [Zero T] in
/-- A thread that gets on with `ev_async_send`. -/
theorem asyncView_thread {t : Thread} {v : ι} {p : Send} (ht : s.sending t = some (v, p)) :
    asyncMachine.stutter (s.loop.asyncView w count) (asyncAct w s (.thread t) s') =
      some ((stepSend s.loop v p).1.asyncView w count) := by
  have hact : asyncAct w s (.thread t) s' =
      if some (v, p) = some (w, Send.sent) then some .send else none := by
    rw [← ht]
    rfl
  rw [hact]
  cases p with
  | sent =>
      by_cases hvw : v = w
      · subst hvw
        have hset : ({ s.loop with sent := Function.update s.loop.sent v true } :
            Loop ι T).asyncOf v count = ((s.loop.asyncOf v count).stepSend true .send).1 :=
          congrArg (fun sent => Async.mk (decide (s.loop.asyncs.active v ≠ 0)) sent true count)
            (Function.update_self ..)
        rw [if_pos rfl, stepSend, Loop.asyncView, Loop.asyncView, hset]
        rfl
      · have hwv : w ≠ v := Ne.symm hvw
        have hkept : Function.update s.loop.sent v true w = s.loop.sent w :=
          Function.update_of_ne hwv ..
        have hview : (stepSend s.loop v .sent).1.asyncView w count = s.loop.asyncView w count :=
          Loop.asyncView_congr .rfl hkept .rfl
        rw [if_neg fun heq => hvw (by cases heq; rfl), hview]
        rfl
  | _ =>
      rw [if_neg fun heq => by cases heq]
      rfl

/-- Whatever happens to the loop is a step of the asynchronous event, or nothing to it. -/
theorem async_step (h : Reachable cfg eventfd s) (ha : s.Allowed a)
    (hstep : s.step cfg eventfd a = some s') (w : ι) (count : UInt32) :
    asyncMachine.stutter (s.loop.asyncView w count) (asyncAct w s a s') =
      some (s'.loop.asyncView w count) := by
  have hinv := Inv.of_reachable h
  have hinv' := hinv.step ha hstep
  cases a with
  | call c =>
      obtain ⟨-, rfl⟩ := step_call hstep
      exact Loop.asyncView_call hinv.ok ha w count
  | run flags =>
      obtain ⟨-, rfl⟩ := step_run hstep
      rfl
  | next now => exact hinv.asyncView_loop hstep
  | event fd revents =>
      obtain ⟨-, rfl⟩ := step_event hstep
      have hsame := Loop.fdEvent_same s.loop fd revents
      have hfed := (Loop.fdEvent_fed hinv.ok.manned.sound fd revents).pending_iff (w := .async w)
        hinv.ok.manned.sound hinv'.ok.manned.sound fun ⟨_, _, _, hio, _⟩ => by cases hio
      refine congrArg some (Loop.asyncView_congr ?_ ?_ hfed).symm
      · exact iff_of_eq (congrArg (fun asyncs => asyncs.active w ≠ 0) hsame.asyncs)
      · exact congrFun hsame.shared.1 w
  | kill fd =>
      obtain ⟨-, rfl⟩ := step_kill hstep
      have hkilled := (hinv.ok.kill ha).2.1
      refine congrArg some (Loop.asyncView_congr ?_ ?_ ?_).symm
      · exact iff_of_eq (congrArg (fun asyncs => asyncs.active w ≠ 0)
          (congrArg Loop.asyncs hkilled.rest))
      · exact congrFun (congrArg Loop.sent hkilled.rest) w
      · refine Queue.pending_iff_of_kept hinv.ok.manned.sound hinv'.ok.manned.sound
          (fun hw => (hkilled.pending _ hw).resolve_left fun ⟨_, _, hio⟩ => by cases hio)
          fun pri events he => ?_
        rcases hkilled.kept pri _ events he with ⟨events', he', -⟩ | ⟨_, _, hio⟩
        · exact ⟨events', he'⟩
        · cases hio
  | send t v =>
      obtain ⟨-, rfl⟩ := step_send hstep
      rfl
  | thread t =>
      obtain ⟨v, p, ht, rfl⟩ := step_thread hstep
      exact asyncView_thread ht

/-- What `Event.Async` takes for granted: what a run of the loop does to an async watcher is a run
of the asynchronous event, which begins the callback as often as the loop does. -/
theorem async_refined (h₀ : Reachable cfg eventfd s₀)
    (hrun : (contract cfg eventfd).exec s₀ as = some s) (w : ι) (count : UInt32) :
    asyncMachine.exec (s₀.loop.asyncView w count)
        ((contract cfg eventfd).labels (asyncAct w) as s₀) = some (s.loop.asyncView w count) ∧
      ((contract cfg eventfd).labels (asyncAct w) as s₀).count .call =
        (contract cfg eventfd).tally (callsAsync w) as s₀ := by
  refine ⟨?_, Machine.count_labels (fun _ _ _ => asyncAct_eq_call) as s₀⟩
  refine Machine.exec_labels (fun s => s.loop.asyncView w count) (fun s a s' hs hstep => ?_)
    (fun s a s' hs hstep => ?_) h₀ hrun
  · obtain ⟨hallowed, hstep⟩ := Machine.restrict_step.mp hstep
    exact hs.step hallowed hstep
  · obtain ⟨hallowed, hstep⟩ := Machine.restrict_step.mp hstep
    exact async_step hs hallowed hstep w count

theorem async_refined_run :
    asyncMachine.exec (asyncSent.loop.asyncView false 1)
        ((contract plain true).labels (asyncAct false)
          (.event 9 evRead :: List.replicate 16 (.next 1)) asyncSent) =
      some (asyncAnswered.loop.asyncView false 1) ∧
      ((contract plain true).labels (asyncAct false)
        (.event 9 evRead :: List.replicate 16 (.next 1)) asyncSent).count .call =
      (contract plain true).tally (callsAsync false)
        (.event 9 evRead :: List.replicate 16 (.next 1)) asyncSent := by
  have hrun : (contract plain true).exec asyncSent
      (.event 9 evRead :: List.replicate 16 (.next 1)) = some asyncAnswered :=
    exec_contract (Option.some_get _).symm
  exact async_refined asyncSent_reachable hrun false 1

end State
end Ev
end Cyan

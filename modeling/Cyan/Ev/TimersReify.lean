import Cyan.Ev.LoopFeeds

/-!
# Which timers expire

`timers_reify` takes timers off the root of the heap until the root is not due any
more, and feeds them in the reverse order at the end, since the queue gives the
last one first.

* `Fired` is the invariant of the loop, for the timers that have been at the root
  so far, the first one first.
* `timersReify_fired`: the loop ends with every timer that is due, in the order of
  their deadlines, and no deadline lies in the past any more.
* `timersReify_agenda`: that is the order in which they are called.
-/

namespace Cyan
namespace Ev

variable {ι T : Type*} [DecidableEq ι] [LinearOrder T] [Add T] [Sub T] [Zero T]

namespace Timers

variable {t : Timers ι T} {mnNow : T} {w : ι}

omit [DecidableEq ι] [Add T] [Sub T] [Zero T] in
/-- There are no more active timers than `timercnt`. -/
theorem Ok.length_le (h : t.Ok) {ws : List ι} (hnodup : ws.Nodup)
    (hws : ∀ w ∈ ws, t.active w ≠ 0) : ws.length ≤ t.timercnt := by
  have hinj : (ws.map t.active).Nodup := by
    refine List.Nodup.map_on (fun v hv w hw heq => ?_) hnodup
    rw [← (h.active_mem (hws v hv)).2, heq, (h.active_mem (hws w hw)).2]
  have hrange : ws.map t.active ⊆ (List.range t.timercnt).map (· + heap0) := by
    intro k hk
    obtain ⟨w, hw, rfl⟩ := List.mem_map.mp hk
    obtain ⟨hlow, hhigh⟩ := (h.active_mem (hws w hw)).1
    rw [stopAt] at hhigh
    exact List.mem_map.mpr ⟨t.active w - heap0, List.mem_range.mpr (by omega), by omega⟩
  have hle := (List.subperm_of_subset hinj hrange).length_le
  simpa using hle

omit [DecidableEq ι] [LinearOrder T] [Add T] [Sub T] [Zero T] in
/-- A timer that is due is active. -/
theorem active_of_deadline {d : T} (h : t.deadline w = some d) : t.active w ≠ 0 :=
  active_iff.mpr (by rw [h]; exact Option.some_ne_none d)

omit [DecidableEq ι] [Add T] [Sub T] [Zero T] in
/-- Whether the root is due. -/
theorem Ok.expired_iff (h : t.Ok) :
    t.expired mnNow = true ↔ ∃ w d, t.deadline w = some d ∧ d < mnNow := by
  rw [expired, Bool.and_eq_true, decide_eq_true_iff, decide_eq_true_iff]
  constructor
  · rintro ⟨hcnt, hlt⟩
    exact ⟨t.root, _, (h.first hcnt).1, hlt⟩
  · rintro ⟨w, d, hd, hlt⟩
    have hcnt := h.timercnt_ne_zero (active_of_deadline hd)
    exact ⟨hcnt, ((h.first hcnt).2 w d hd).trans_lt hlt⟩

omit [Sub T] [Zero T] in
theorem le_nextAt (mnNow time rep : T) : mnNow ≤ nextAt mnNow time rep := by
  unfold nextAt
  split
  · exact le_rfl
  · exact not_lt.mp ‹_›

/-- The deadline of a timer behind `timers_reify`, which was `d`. -/
def renewed (t : Timers ι T) (mnNow : T) (w : ι) (d : T) : Option T :=
  if t.evRepeat w ≠ 0 then some (nextAt mnNow d (t.evRepeat w)) else none

end Timers

namespace Loop

variable {l l₀ : Loop ι T} {refs : Int} {fired : List ι}

/-- The timers `fired` have been at the root since the state `l₀`. -/
structure Fired (l₀ l : Loop ι T) (fired : List ι) : Prop where
  ok : l.timers.Ok
  nodup : fired.Nodup
  due : ∀ w ∈ fired, ∃ d, l₀.timers.deadline w = some d ∧ d < l₀.mnNow
  /-- nobody has been left behind who is due earlier -/
  earlier : ∀ w ∈ fired, ∀ v ∉ fired, ∀ d e, l₀.timers.deadline w = some d →
    l₀.timers.deadline v = some e → d ≤ e
  sorted : fired.Pairwise fun w v => ∀ d e, l₀.timers.deadline w = some d →
    l₀.timers.deadline v = some e → d ≤ e
  renewed : ∀ w ∈ fired,
    l.timers.deadline w = (l₀.timers.deadline w).bind (l₀.timers.renewed l₀.mnNow w)
  rest : ∀ w ∉ fired, l.timers.deadline w = l₀.timers.deadline w
  evRepeat : l.timers.evRepeat = l₀.timers.evRepeat
  mnNow : l.mnNow = l₀.mnNow
  queue : l.queue = l₀.queue
  rfeeds : l.rfeeds = fired.reverse.map .timer

/-- What one round does to the timers. -/
theorem timersReifyStep_timers (h : l.timers.Ok) (hcnt : l.timers.timercnt ≠ 0)
    (hpending : l.queue.pending (.timer l.timers.root) = 0) :
    l.timersReifyStep.timers.Ok ∧
      l.timersReifyStep.timers.deadline = Function.update l.timers.deadline l.timers.root
        (l.timers.renewed l.mnNow l.timers.root (l.timers.heap.key heap0)) ∧
      l.timersReifyStep.timers.evRepeat = l.timers.evRepeat ∧
      l.timersReifyStep.mnNow = l.mnNow ∧ l.timersReifyStep.queue = l.queue ∧
      l.timersReifyStep.rfeeds = .timer l.timers.root :: l.rfeeds := by
  have hroot := h.root_active hcnt
  have hat : l.timers.heap.key heap0 = l.timers.evAt l.timers.root := by
    have hdeadline := h.deadline_of_active hroot
    rw [(h.first hcnt).1] at hdeadline
    exact Option.some.inj hdeadline
  unfold timersReifyStep Timers.renewed
  dsimp only
  by_cases hrep : l.timers.evRepeat l.timers.root = 0
  · rw [if_neg (not_not.mpr hrep), if_neg (not_not.mpr hrep)]
    have hstop := h.stop l.mnNow hroot
    have hclear : l.clearPending (.timer l.timers.root) = l := by
      rw [Loop.clearPending, Queue.clearPending_of_not_pending hpending]
    unfold evTimerStop
    rw [hclear, if_neg hroot]
    exact ⟨hstop.1, hstop.2, Timers.stop_evRepeat, rfl, rfl, rfl⟩
  · rw [if_pos hrep, if_pos hrep, hat]
    have hrearm := h.rearm l.mnNow hcnt
    exact ⟨hrearm.1, hrearm.2, rfl, rfl, rfl, rfl⟩

/-- The root joins the timers that have been fired. -/
theorem Fired.step (h : Fired l₀ l fired) (hpending : ∀ w, l₀.queue.pending (.timer w) = 0)
    (hexpired : l.timers.expired l.mnNow = true) :
    Fired l₀ l.timersReifyStep (fired ++ [l.timers.root]) := by
  have hcnt := timercnt_of_expired hexpired
  obtain ⟨hfirst, hleast⟩ := h.ok.first hcnt
  have hlt : l.timers.heap.key heap0 < l₀.mnNow := by
    rw [Timers.expired, Bool.and_eq_true, decide_eq_true_iff, decide_eq_true_iff, h.mnNow]
      at hexpired
    exact hexpired.2
  have hnot : l.timers.root ∉ fired := by
    intro hmem
    obtain ⟨d, hd, -⟩ := h.due _ hmem
    rw [h.renewed _ hmem, hd, Option.bind_some, Timers.renewed] at hfirst
    split at hfirst
    · have hle := Timers.le_nextAt l₀.mnNow d (l₀.timers.evRepeat l.timers.root)
      rw [Option.some.inj hfirst] at hle
      exact absurd hlt (not_lt.mpr hle)
    · cases hfirst
  have hbefore : l₀.timers.deadline l.timers.root = some (l.timers.heap.key heap0) :=
    (h.rest _ hnot).symm.trans hfirst
  obtain ⟨hok, hdeadline, hrepeat, hnow, hqueue, hrfeeds⟩ :=
    timersReifyStep_timers h.ok hcnt (h.queue ▸ hpending _)
  refine ⟨hok, ?_, fun w hw => ?_, fun w hw v hv d e hd he => ?_, ?_, fun w hw => ?_,
    fun w hw => ?_, hrepeat.trans h.evRepeat, hnow.trans h.mnNow, hqueue.trans h.queue, ?_⟩
  · exact List.nodup_append.mpr ⟨h.nodup, List.nodup_singleton _, fun a ha b hb heq =>
      hnot (List.mem_singleton.mp hb ▸ heq ▸ ha)⟩
  · rcases List.mem_append.mp hw with hw | hw
    · exact h.due w hw
    · rw [List.mem_singleton.mp hw]
      exact ⟨_, hbefore, hlt⟩
  · rw [List.mem_append, not_or, List.mem_singleton] at hv
    rcases List.mem_append.mp hw with hw | hw
    · exact h.earlier w hw v hv.1 d e hd he
    · -- the root is the least of those that are left
      rw [List.mem_singleton.mp hw, hbefore] at hd
      cases hd
      exact hleast v e ((h.rest v hv.1).trans he)
  · refine List.pairwise_append.mpr ⟨h.sorted, List.pairwise_singleton .., fun w hw v hv => ?_⟩
    rw [List.mem_singleton.mp hv]
    exact h.earlier w hw _ hnot
  · rw [hdeadline]
    by_cases hroot : w = l.timers.root
    · subst hroot
      rw [Function.update_self, hbefore, Option.bind_some, Timers.renewed, Timers.renewed,
        h.evRepeat, h.mnNow]
    · rw [Function.update_of_ne hroot]
      refine h.renewed w ((List.mem_append.mp hw).resolve_right fun hmem => ?_)
      exact hroot (List.mem_singleton.mp hmem)
  · rw [List.mem_append, not_or, List.mem_singleton] at hw
    rw [hdeadline, Function.update_of_ne hw.2]
    exact h.rest w hw.1
  · rw [hrfeeds, h.rfeeds, List.reverse_append, List.reverse_singleton, List.singleton_append,
      List.map_cons]

/-- The fuel suffices: no timer comes to the root twice. -/
theorem Fired.loop (h : Fired l₀ l fired) (hok : l₀.timers.Ok)
    (hpending : ∀ w, l₀.queue.pending (.timer w) = 0) {fuel : Nat}
    (hfuel : l₀.timers.timercnt ≤ fired.length + fuel) :
    ∃ all, Fired l₀ (l.timersReifyLoop fuel) all ∧
      (l.timersReifyLoop fuel).timers.expired l₀.mnNow = false := by
  induction fuel generalizing l fired with
  | zero =>
      refine ⟨fired, h, ?_⟩
      rw [timersReifyLoop, Bool.eq_false_iff]
      intro hexpired
      have hnext := h.step hpending (by rwa [h.mnNow])
      have hlength := hok.length_le hnext.nodup fun w hw => by
        obtain ⟨d, hd, -⟩ := hnext.due w hw
        exact Timers.active_of_deadline hd
      rw [List.length_append, List.length_singleton] at hlength
      omega
  | succ fuel ih =>
      rw [timersReifyLoop]
      split
      · rename_i hexpired
        refine ih (h.step hpending hexpired) ?_
        rw [List.length_append, List.length_singleton]
        omega
      · rename_i hexpired
        rw [h.mnNow, Bool.not_eq_true] at hexpired
        exact ⟨fired, h, hexpired⟩

omit [DecidableEq ι] [Sub T] in
/-- The loop has not begun. -/
theorem Fired.nil (hok : l.timers.Ok) (hrfeeds : l.rfeeds = []) : Fired l l [] where
  ok := hok
  nodup := List.nodup_nil
  due := fun _ hw => absurd hw List.not_mem_nil
  earlier := fun _ hw => absurd hw List.not_mem_nil
  sorted := List.Pairwise.nil
  renewed := fun _ hw => absurd hw List.not_mem_nil
  rest := fun _ _ => rfl
  evRepeat := rfl
  mnNow := rfl
  queue := rfl
  rfeeds := hrfeeds

/-- What `timers_reify` does: `fired` are the timers that were due. -/
structure TimersReified (l l' : Loop ι T) (fired : List ι) : Prop where
  nodup : fired.Nodup
  mem : ∀ w, w ∈ fired ↔ ∃ d, l.timers.deadline w = some d ∧ d < l.mnNow
  sorted : fired.Pairwise fun w v => ∀ d e, l.timers.deadline w = some d →
    l.timers.deadline v = some e → d ≤ e
  renewed : ∀ w ∈ fired,
    l'.timers.deadline w = (l.timers.deadline w).bind (l.timers.renewed l.mnNow w)
  rest : ∀ w ∉ fired, l'.timers.deadline w = l.timers.deadline w
  fed : Queue.Fuller (fun x => ∃ w ∈ fired, x = .timer w) l.queue l'.queue
  /-- the one that was due first comes next -/
  agenda : ∀ pri, l'.queue.agenda pri = l.queue.agenda pri ++
    ((fired.reverse.map .timer).filter fun x => pri = l.queue.abspri x).map fun x => (x, evTimer)

omit [Sub T] in
/-- No deadline lies in the past any more. -/
theorem TimersReified.not_due {l' : Loop ι T} (h : TimersReified l l' fired) {w : ι} {d : T}
    (hd : l'.timers.deadline w = some d) : l.mnNow ≤ d := by
  by_cases hw : w ∈ fired
  · obtain ⟨e, he, -⟩ := (h.mem w).mp hw
    rw [h.renewed w hw, he, Option.bind_some, Timers.renewed] at hd
    split at hd
    · cases hd
      exact Timers.le_nextAt ..
    · cases hd
  · rw [h.rest w hw] at hd
    exact not_lt.mp fun hlt => hw ((h.mem w).mpr ⟨d, hd, hlt⟩)

theorem timersReify_fired (hok : l.timers.Ok) (hsound : l.queue.Sound)
    (hpending : ∀ w, l.queue.pending (.timer w) = 0) (hrfeeds : l.rfeeds = []) :
    ∃ fired, TimersReified l l.timersReify fired := by
  unfold timersReify
  by_cases hexpired : l.timers.expired l.mnNow = true
  · rw [if_pos hexpired]
    obtain ⟨fired, h, hdone⟩ := (Fired.nil hok hrfeeds).loop hok hpending
      (Nat.le_add_left l.timers.timercnt _)
    refine ⟨fired, h.nodup, fun w => ⟨h.due w, fun ⟨d, hd, hlt⟩ => ?_⟩, h.sorted, h.renewed, h.rest,
      ?_, fun pri => ?_⟩
    · by_contra hw
      rw [← h.rest w hw] at hd
      have htrue := h.ok.expired_iff.mpr ⟨w, d, hd, hlt⟩
      rw [hdone] at htrue
      cases htrue
    · unfold feedReverseDone
      dsimp only
      rw [h.queue, h.rfeeds]
      refine .foldl hsound _ _ fun q x hx => .inr ⟨x, evTimer, rfl, ?_⟩
      obtain ⟨w, hw, rfl⟩ := List.mem_map.mp hx
      exact ⟨w, List.mem_reverse.mp hw, rfl⟩
    · unfold feedReverseDone
      dsimp only
      rw [← h.rfeeds, h.queue]
      refine hsound.agenda_foldl_feedEvent ?_ (fun x hx => ?_) pri
      · rw [h.rfeeds]
        exact (List.nodup_reverse.mpr h.nodup).map fun v w heq => Watcher.timer.inj heq
      · rw [h.rfeeds] at hx
        obtain ⟨w, -, rfl⟩ := List.mem_map.mp hx
        exact hpending w
  · rw [if_neg hexpired]
    refine ⟨[], List.nodup_nil, fun w => ⟨fun hw => absurd hw List.not_mem_nil, fun hw => ?_⟩,
      List.Pairwise.nil, fun w hw => absurd hw List.not_mem_nil, fun _ _ => rfl, .refl _ _,
      fun pri => ?_⟩
    · obtain ⟨d, hd, hlt⟩ := hw
      exact absurd (hok.expired_iff.mpr ⟨w, d, hd, hlt⟩) hexpired
    · simp

end Loop
end Ev
end Cyan

import Mathlib.Algebra.Order.Field.Rat
import Mathlib.Tactic.Linarith
import Cyan.Event.TimerWheelMoves

/-!
# When the timer runs

The timer of a wheel is started by `post` and stopped by `bookkeeper` when the multimap
is empty.

* `Running` is the invariant: a request in `requests` is also in the multimap, so the
  timer is not stopped under it.
* The timer never starts when its `repeat` is zero.  That is so when the resolution is
  below a millisecond.
-/

namespace Cyan
namespace Event
namespace TimerWheel

open Base

variable {w w' : TimerWheel}

/-! ## What the user has stopped -/

/-- Whether the user has called `stop` since the last `post` or `start`. -/
def halts (halted : Bool) : Action → Bool
  | .stop => true
  | .post _ => false
  | .start => false
  | _ => halted

/-- The user has called `stop` and neither `post` nor `start` after it. -/
def userStopped (as : List Action) : Bool :=
  as.foldl halts false

/-- `is_pending()` -/
def isPending (w : TimerWheel) : Bool :=
  !w.requests.isEmpty

theorem isPending_iff : w.isPending = true ↔ w.requests ≠ [] := by
  simp [isPending]

/-! ## The timer runs while a request is pending -/

/-- A request of the map is in the multimap too, and the timer has a `repeat` and runs as
long as there is one. -/
structure Running (halted : Bool) (w : TimerWheel) : Prop where
  nonzero : w.timerRepeat ≠ 0
  inTime : ∀ r ∈ w.pendingRequests, r ∈ Multimap.values w.timeHiearchy
  retired : ∀ r, w.pc.retiring = some r → r ∉ w.pendingRequests
  active : halted = false → w.isPending = true → w.timerActive = true

namespace Running

variable {halted : Bool}

/-- The operation leaves the containers and the timer alone. -/
theorem frame (h : Running halted w) (hrequests : w'.requests = w.requests)
    (htime : w'.timeHiearchy = w.timeHiearchy)
    (hretiring : ∀ r, w'.pc.retiring = some r → w.pc.retiring = some r)
    (hactive : w'.timerActive = w.timerActive) (hrepeat : w'.timerRepeat = w.timerRepeat) :
    Running halted w' where
  nonzero := by
    rw [hrepeat]
    exact h.nonzero
  inTime r hr := by
    rw [pendingRequests, hrequests] at hr
    rw [htime]
    exact h.inTime r hr
  retired r hr := by
    rw [pendingRequests, hrequests]
    exact h.retired r (hretiring r hr)
  active hhalted hpending := by
    rw [isPending, hrequests] at hpending
    rw [hactive]
    exact h.active hhalted hpending

theorem retiring_of_callable (hcall : w.callable = true) : w.pc.retiring = none := by
  unfold callable at hcall
  cases hpc : w.pc with
  | eraseEntry now i =>
      rw [hpc] at hcall
      cases hcall
  | _ => rfl

/-- `start` starts the timer unless it runs. -/
theorem start (h : Running halted w) : Running false w.start := by
  rw [start_eq]
  refine ⟨h.nonzero, h.inTime, h.retired, fun _ hpending => ?_⟩
  have hnonempty : (!w.requests.isEmpty) = true := hpending
  show (w.timerActive || (!w.requests.isEmpty && decide (w.timerRepeat ≠ 0))) = true
  rw [hnonempty, decide_eq_true h.nonzero, Bool.and_self, Bool.or_true]

theorem post (h : Running halted w) (hcall : w.callable = true) (timeout : Int) :
    Running false (w.post timeout) := by
  unfold TimerWheel.post
  suffices hrunning : Running true _ from hrunning.start
  refine {
    nonzero := h.nonzero
    inTime := fun r hr => ?_
    retired := fun r hr => ?_
    active := fun hhalted => nomatch hhalted }
  · refine (Multimap.values_emplace ..).symm.subset ?_
    obtain ⟨x, hx, rfl⟩ := List.mem_map.mp hr
    rcases Stored.mem_emplaceRequest hx with rfl | hx
    · exact List.mem_cons_self ..
    · exact List.mem_cons_of_mem _ (h.inTime x.2 (List.mem_map_of_mem hx))
  · rw [retiring_of_callable hcall] at hr
    cases hr

/-- `requests.erase(id)` leaves nothing under the id. -/
theorem notMem_eraseRequest (hstored : Stored w) (r : Nat) :
    r ∉ (w.requests.eraseP (·.1 = (w.request r).id)).map Prod.snd := by
  intro hmem
  obtain ⟨x, hx, rfl⟩ := List.mem_map.mp hmem
  obtain ⟨hx, hne⟩ := (mem_eraseP hstored.ids).mp hx
  exact hne (hstored.keyed x hx)

theorem bookkeeper (h : Running halted w) (hstored : Stored w) (hmove : BookMove w w') :
    Running halted w' := by
  cases hmove with
  | @stale now i entry hpc hentry hkey =>
      have hperm := Stored.values_reinsert (w.request i).expiry (Stored.find_mem hentry)
      exact { h with inTime := fun r hr => hperm.symm.subset (h.inTime r hr) }
  | @eraseRequest now i hpc =>
      have hsub : (w.requests.eraseP (·.1 = (w.request i).id)).Sublist w.requests :=
        List.eraseP_sublist
      refine { h with
        inTime := fun r hr => h.inTime r ((hsub.map _).subset hr)
        retired := fun r hr => ?_
        active := fun hhalted hpending => h.active hhalted ?_ }
      · cases hr
        exact notMem_eraseRequest hstored i
      · have hsome := isPending_iff.mp hpending
        exact isPending_iff.mpr fun hnil => hsome (by
          show w.requests.eraseP _ = []
          rw [hnil]
          rfl)
  | @eraseEntry now i hpc =>
      refine { h with inTime := fun r hr => ?_, retired := fun r hr => nomatch hr }
      have hne : r ≠ i := by
        rintro rfl
        exact h.retired r (by rw [hpc, Pc.retiring]) hr
      exact Multimap.mem_values_erase hne (h.inTime r hr)
  | finish active hpc hactive =>
      refine ⟨h.nonzero, h.inTime, fun r hr => (nomatch hr), fun hhalted hpending => ?_⟩
      rcases hactive with rfl | hempty
      · exact h.active hhalted hpending
      · -- no request is left in the map either
        obtain ⟨x, hx⟩ := List.exists_mem_of_ne_nil _ (isPending_iff.mp hpending)
        have hmem := h.inTime x.2 (List.mem_map_of_mem hx)
        rw [hempty] at hmem
        cases hmem
  | _ => exact h.frame rfl rfl (fun r hr => nomatch hr) rfl rfl

theorem move {a : Action} (h : Running halted w) (hstored : Stored w)
    (hmove : Move w a w') : Running (halts halted a) w' := by
  cases hmove with
  | post timeout hcall => exact h.post hcall timeout
  | cancel id =>
      cases hfind : w.find id with
      | none =>
          rw [cancel_of_none hfind]
          exact h.frame rfl rfl (fun _ hr => hr) rfl rfl
      | some r =>
          rw [cancel_of_find hfind]
          exact h.frame rfl rfl (fun _ hr => hr) rfl rfl
  | reset id =>
      cases hfind : w.find id with
      | none =>
          rw [reset_of_none hfind]
          exact h.frame rfl rfl (fun _ hr => hr) rfl rfl
      | some r =>
          rw [reset_of_find hfind]
          exact h.frame rfl rfl (fun _ hr => hr) rfl rfl
  | start => exact h.start
  | stop => exact { h with active := fun hhalted => nomatch hhalted }
  | wait d => exact h.frame rfl rfl (fun _ hr => hr) rfl rfl
  | tick hpc => exact h.frame rfl rfl (fun _ hr => nomatch hr) rfl rfl
  | run hmove => exact h.bookkeeper hstored hmove

theorem exec (h : Running halted w) (hreach : machine.Reachable w) {as : List Action}
    (hexec : machine.exec w as = some w') : Running (as.foldl halts halted) w' := by
  induction as generalizing w halted with
  | nil =>
      cases hexec
      exact h
  | cons a as ih =>
      obtain ⟨w₁, hstep, hrest⟩ := Option.bind_eq_some_iff.mp hexec
      exact ih (h.move (stored hreach) (step_move hstep)) (hreach.exec
        ((machine.exec_of_step hstep []).trans rfl)) hrest

theorem create (clock : Int) {res : ℚ} (hres : res.num.tdiv res.den ≠ 0) :
    Running false (create clock res) where
  nonzero := hres
  inTime _ hr := nomatch hr
  retired _ hr := nomatch hr
  active _ hpending := nomatch hpending

end Running

/-! ## The resolution -/

/-- The `repeat` of a positive resolution. -/
theorem repeat_ne_zero {res : ℚ} (hpos : 0 < res) :
    res.num.tdiv res.den ≠ 0 ↔ 1 ≤ res := by
  have hnum : 0 < res.num := Rat.num_pos.mpr hpos
  have hden : (0 : ℤ) < res.den := Int.natCast_pos.mpr res.den_pos
  have hle : 1 ≤ res ↔ (res.den : ℤ) ≤ res.num := by
    rw [Rat.le_iff]
    simp
  rw [Int.tdiv_eq_ediv_of_nonneg (Int.le_of_lt hnum), hle]
  constructor
  · intro hne
    by_contra hlt
    exact hne (Int.ediv_eq_zero_of_lt (Int.le_of_lt hnum) (not_le.mp hlt))
  · intro hden'
    have hone : 1 ≤ res.num / res.den := (Int.le_ediv_iff_mul_le hden).mpr (by omega)
    omega

/-- In every run of a wheel of this resolution the timer is active whenever a call may
come while a request is pending, unless the user has stopped it. -/
def RunsWhilePending (res : ℚ) : Prop :=
  ∀ clock as w, machine.exec (create clock res) as = some w → w.callable = true →
    w.isPending = true → userStopped as = false → w.timerActive = true

theorem runsWhilePending_of_le {res : ℚ} (hres : 1 ≤ res) : RunsWhilePending res := by
  intro clock as w hexec _ hpending hstopped
  have hreach : machine.Reachable (create clock res) := .start ⟨clock, res, rfl⟩
  have hrunning := (Running.create clock ((repeat_ne_zero (by linarith)).mpr hres)).exec
    hreach hexec
  exact hrunning.active hstopped hpending

theorem le_of_runsWhilePending {res : ℚ} (hpos : 0 < res) (h : RunsWhilePending res) :
    1 ≤ res := by
  refine (repeat_ne_zero hpos).mp fun hzero => ?_
  -- the first `post` finds a `repeat` of zero
  have hpc : ((create 0 res).post 0).pc = .idle := by rw [post_pc, create, setTimeout]
  have hcall : ((create 0 res).post 0).callable = true := by rw [callable, hpc]
  have hpending : ((create 0 res).post 0).isPending = true := by
    rw [isPending_iff, post_requests]
    exact List.cons_ne_nil _ _
  have hactive := h 0 [.post 0] _ rfl hcall hpending rfl
  rw [post, start_eq] at hactive
  simp [create, setTimeout, hzero] at hactive

/-- The timer of a wheel runs while a request is pending exactly when the resolution is a
millisecond or more. -/
theorem runs_while_pending {res : ℚ} (hpos : 0 < res) : RunsWhilePending res ↔ 1 ≤ res :=
  ⟨le_of_runsWhilePending hpos, runsWhilePending_of_le⟩

/-- The default resolution. -/
theorem runs_while_pending_default :
    0 < defaultResolution ∧ RunsWhilePending defaultResolution := by
  have hpos : 0 < defaultResolution := by norm_num [defaultResolution]
  exact ⟨hpos, (runs_while_pending hpos).mpr (by norm_num [defaultResolution])⟩

/-- A resolution of half a millisecond. -/
theorem never_runs : ∃ res : ℚ, 0 < res ∧ ¬RunsWhilePending res := by
  have hpos : (0 : ℚ) < 1 / 2 := by norm_num
  refine ⟨1 / 2, hpos, fun h => ?_⟩
  have hle := le_of_runsWhilePending hpos h
  norm_num at hle

end TimerWheel
end Event
end Cyan

import Cyan.Event.TimerWheelBooks
import Cyan.Event.TimerWheelTick

/-!
# When the callback of a request starts

A callback starts only when the expiry of its request has come, wherever the multimap
keeps the entry.

* `Past` says that the `now` of a tick is behind the clock.
* `Armed` says that a request expires at a given time or later, and that a reset does
  not take it back.
* `full_timeout` is about a request that is reset: `post` keeps the timeout in
  milliseconds for this, so the request gets its full timeout when that is a whole
  number of them.
-/

namespace Cyan
namespace Event
namespace TimerWheel

open Base

variable {w w' : TimerWheel}

/-! ## The time of a tick -/

/-- The `now` of a run of `bookkeeper`. -/
def Pc.now? : Pc → Option Int
  | .loop now _ => some now
  | .process now _ => some now
  | .eraseRequest now _ => some now
  | .eraseEntry now _ => some now
  | _ => none

/-- The tick began in the past. -/
def Past (w : TimerWheel) : Prop :=
  ∀ now, w.pc.now? = some now → now ≤ w.clock

/-- A step of `bookkeeper` keeps its `now`. -/
theorem BookMove.now? (hmove : BookMove w w') {now : Int} (hnow : w'.pc.now? = some now) :
    w.pc.now? = some now := by
  cases hmove with
  | stale hpc hentry hkey => simpa using hnow
  | due hpc hentry hkey hdue hcancelled =>
      rw [hpc]
      simpa [Pc.now?] using hnow
  | dueCancelled hpc hentry hkey hdue hcancelled =>
      rw [hpc]
      simpa [Pc.now?] using hnow
  | processed hpc =>
      rw [hpc]
      simpa [Pc.now?] using hnow
  | eraseRequest hpc =>
      rw [hpc]
      simpa [Pc.now?] using hnow
  | eraseEntry hpc =>
      rw [hpc]
      simpa [Pc.now?] using hnow
  | _ => cases hnow

@[simp] theorem start_pc (w : TimerWheel) : w.start.pc = w.pc := by
  rw [start_eq]

@[simp] theorem start_clock (w : TimerWheel) : w.start.clock = w.clock := by
  rw [start_eq]

@[simp] theorem start_request (w : TimerWheel) : w.start.request = w.request := by
  rw [start_eq]

@[simp] theorem start_trace (w : TimerWheel) : w.start.trace = w.trace := by
  rw [start_eq]

theorem BookMove.clock (hmove : BookMove w w') : w'.clock = w.clock := by
  cases hmove <;> rfl

/-- The clock does not run backwards. -/
theorem Move.clock_le {a : Action} (hmove : Move w a w') : w.clock ≤ w'.clock := by
  cases hmove with
  | post timeout => rw [post_clock]
  | cancel id => rw [record, cancel_eq]
  | reset id => rw [record, reset_eq]
  | start => rw [start_clock]
  | wait d => exact Int.le_add_of_nonneg_right (Int.natCast_nonneg d)
  | run hmove => rw [hmove.clock]
  | _ => exact Int.le_refl _

theorem Past.move {a : Action} (h : Past w) (hmove : Move w a w') : Past w' := by
  intro now hnow
  have hclock := hmove.clock_le
  cases hmove with
  | post timeout =>
      rw [post_pc] at hnow
      exact (h now hnow).trans hclock
  | cancel id =>
      rw [record, cancel_eq] at hnow
      exact (h now hnow).trans hclock
  | reset id =>
      rw [record, reset_eq] at hnow
      exact (h now hnow).trans hclock
  | start =>
      rw [start_pc] at hnow
      exact (h now hnow).trans hclock
  | tick hpc =>
      cases hnow
      exact Int.le_refl _
  | run hmove => exact (h now (hmove.now? hnow)).trans hclock
  | _ => exact (h now hnow).trans hclock

theorem past (hreach : machine.Reachable w) : Past w := by
  refine hreach.invariant ?_ fun w a w' h _ hstep => h.move (step_move hstep)
  rintro w ⟨clock, res, rfl⟩
  intro now hnow
  cases hnow

/-! ## A callback starts when its request is due -/

/-- The step starts the callback of the request. -/
def Starts (w w' : TimerWheel) (r : Nat) : Prop :=
  ∃ id, w'.trace = .started r id :: w.trace

/-- `bookkeeper` comes to `process()` by starting a callback. -/
theorem BookMove.starts (hmove : BookMove w w') {now : Int} {r : Nat}
    (hpc : w'.pc = .process now r) : Starts w w' r := by
  cases hmove with
  | due =>
      cases hpc
      exact ⟨_, rfl⟩
  | stale hloop _ _ =>
      have hpc : w.pc = .process now r := hpc
      rw [hloop] at hpc
      cases hpc
  | _ => cases hpc

theorem BookMove.due_of_starts (hmove : BookMove w w') {r : Nat} (hstarts : Starts w w' r) :
    ∃ now, w.pc.now? = some now ∧ (w.request r).expiry ≤ now := by
  obtain ⟨id, htrace⟩ := hstarts
  cases hmove with
  | @due now i entry hpc hentry hkey hdue hcancelled =>
      cases htrace
      refine ⟨now, by rw [hpc, Pc.now?], ?_⟩
      rw [hkey]
      exact hdue
  | eraseRequest hpc => cases htrace
  | _ => exact absurd htrace.symm (List.cons_ne_self _ _)

/-- Only the loop starts a callback, and only one that is due. -/
theorem Move.due_of_starts {a : Action} (hmove : Move w a w') (hpast : Past w) {r : Nat}
    (hstarts : Starts w w' r) : (w.request r).expiry ≤ w.clock := by
  cases hmove with
  | run hmove =>
      obtain ⟨now, hnow, hdue⟩ := hmove.due_of_starts hstarts
      exact hdue.trans (hpast now hnow)
  | post timeout =>
      obtain ⟨id, htrace⟩ := hstarts
      rw [post_trace] at htrace
      cases htrace
  | cancel id =>
      obtain ⟨id', htrace⟩ := hstarts
      cases hfind : w.find id with
      | none =>
          rw [cancel_of_none hfind] at htrace
          cases htrace
      | some q =>
          rw [cancel_of_find hfind] at htrace
          cases htrace
  | reset id =>
      obtain ⟨id', htrace⟩ := hstarts
      cases hfind : w.find id with
      | none =>
          rw [reset_of_none hfind] at htrace
          cases htrace
      | some q =>
          rw [reset_of_find hfind] at htrace
          cases htrace
  | start =>
      obtain ⟨id, htrace⟩ := hstarts
      rw [start_trace] at htrace
      exact absurd htrace.symm (List.cons_ne_self _ _)
  | _ =>
      obtain ⟨id, htrace⟩ := hstarts
      exact absurd htrace.symm (List.cons_ne_self _ _)

/-! ## A request that is armed -/

/-- The request expires at `due` or later, and would so after a reset too. -/
structure Armed (r : Nat) (kept due : Int) (w : TimerWheel) : Prop where
  old : r < w.posts
  timeout : (w.request r).timeout = kept
  expiry : due ≤ (w.request r).expiry
  later : due ≤ w.clock + ofMilliseconds kept

namespace Armed

variable {r : Nat} {kept due : Int}

/-- The operation leaves the request alone. -/
theorem frame (h : Armed r kept due w) (hrequest : w'.request r = w.request r)
    (hposts : w.posts ≤ w'.posts) (hclock : w.clock ≤ w'.clock) :
    Armed r kept due w' where
  old := h.old.trans_le hposts
  timeout := by rw [hrequest, h.timeout]
  expiry := by
    rw [hrequest]
    exact h.expiry
  later := h.later.trans (Int.add_le_add_right hclock _)

theorem modify (h : Armed r kept due w) {q : Nat} {req : Request}
    (htimeout : req.timeout = (w.request q).timeout)
    (hexpiry : due ≤ (w.request q).expiry →
      due ≤ w.clock + ofMilliseconds (w.request q).timeout → due ≤ req.expiry) :
    Armed r kept due (w.modify q req) := by
  by_cases hq : r = q
  · subst hq
    have hlater := h.later
    exact {
      old := h.old
      timeout := by rw [modify_self, htimeout, h.timeout]
      expiry := by
        rw [modify_self]
        exact hexpiry h.expiry (by rw [h.timeout]; exact hlater)
      later := hlater }
  · exact h.frame (modify_of_ne hq ..) (Nat.le_refl _) (Int.le_refl _)

theorem bookkeeper (h : Armed r kept due w) (hmove : BookMove w w') :
    Armed r kept due w' := by
  cases hmove <;> exact h.frame rfl (Nat.le_refl _) (Int.le_refl _)

theorem move {a : Action} (h : Armed r kept due w) (hmove : Move w a w') :
    Armed r kept due w' := by
  have hclock := hmove.clock_le
  cases hmove with
  | post d =>
      refine h.frame ?_ ?_ hclock
      · rw [post_request, Function.update_of_ne (Nat.ne_of_lt h.old)]
      · rw [post_posts]
        exact Nat.le_succ _
  | cancel id =>
      cases hfind : w.find id with
      | none =>
          rw [cancel_of_none hfind]
          exact h.frame rfl (Nat.le_refl _) (Int.le_refl _)
      | some q =>
          rw [cancel_of_find hfind]
          have hmodified : Armed r kept due
              (w.modify q { w.request q with isCancelled := true }) :=
            h.modify rfl fun hexpiry _ => hexpiry
          exact hmodified.frame rfl (Nat.le_refl _) (Int.le_refl _)
  | reset id =>
      cases hfind : w.find id with
      | none =>
          rw [reset_of_none hfind]
          exact h.frame rfl (Nat.le_refl _) (Int.le_refl _)
      | some q =>
          rw [reset_of_find hfind]
          have hmodified : Armed r kept due (w.modify q { w.request q with
              expiry := w.getAbsoluteExpiry (ofMilliseconds (w.request q).timeout) }) :=
            h.modify rfl fun _ hlater => hlater
          exact hmodified.frame rfl (Nat.le_refl _) (Int.le_refl _)
  | run hmove => exact h.bookkeeper hmove
  | start =>
      rw [start_eq]
      exact h.frame rfl (Nat.le_refl _) (Int.le_refl _)
  | _ => exact h.frame rfl (Nat.le_refl _) hclock

theorem exec (h : Armed r kept due w) {as : List Action}
    (hexec : machine.exec w as = some w') : Armed r kept due w' :=
  Machine.exec_invariant (fun _ _ _ _ h hstep => h.move (step_move hstep)) h hexec

/-- The callback of an armed request does not start earlier. -/
theorem le_clock (h : Armed r kept due w) (hreach : machine.Reachable w) {a : Action}
    (hstep : machine.step w a = some w') (hstarts : Starts w w' r) : due ≤ w.clock :=
  h.expiry.trans ((step_move hstep).due_of_starts (past hreach) hstarts)

/-- `post` arms the request that it makes for the timeout that it keeps. -/
theorem post {d due : Int} (hdue : due ≤ w.clock + d)
    (hkept : due ≤ w.clock + ofMilliseconds (toMilliseconds d)) :
    Armed w.posts (toMilliseconds d) due (w.post d) where
  old := by
    rw [post_posts]
    exact Nat.lt_succ_self _
  timeout := by rw [post_request, Function.update_self]
  expiry := by
    rw [post_request, Function.update_self]
    exact hdue
  later := by
    rw [post_clock]
    exact hkept

/-- `reset` arms the request again for the timeout that `post` has kept. -/
theorem reset (h : Armed r kept due w) {id : UInt64} (hfind : w.find id = some r) :
    Armed r kept (w.clock + ofMilliseconds kept) (record (w.reset id) (.reset id)) := by
  rw [reset_of_find hfind, h.timeout]
  exact {
    old := h.old
    timeout := by
      show ((w.modify r _).request r).timeout = kept
      rw [modify_self]
      exact h.timeout
    expiry := by
      show _ ≤ ((w.modify r _).request r).expiry
      rw [modify_self]
      exact Int.le_refl _
    later := Int.le_refl _ }

end Armed

/-! ## A reset gives the full timeout -/

/-- After a reset of a request that has been posted for `d` and is in `requests` by its
id, its callback does not start before the clock has gone on by `d`. -/
def FullTimeout (d : Int) : Prop :=
  ∀ w₀, machine.Reachable w₀ → ∀ w₁, machine.step w₀ (.post d) = some w₁ →
    ∀ as w, machine.exec w₁ as = some w → ∀ id, w.find id = some w₀.posts →
      ∀ w', machine.step w (.reset id) = some w' →
        ∀ bs v, machine.exec w' bs = some v →
          ∀ a v', machine.step v a = some v' → Starts v v' w₀.posts → w.clock + d ≤ v.clock

theorem full_timeout_of_dvd {d : Int} (h : 1000000 ∣ d) : FullTimeout d := by
  intro w₀ hreach w₁ hpost as w hexec id hfind w' hreset bs v hrest a v' hstep hstarts
  have hexact := toMilliseconds_of_dvd h
  have hreach₁ : machine.Reachable w₁ := .step hreach trivial hpost
  have hreach' : machine.Reachable w' := .step (hreach₁.exec hexec) trivial hreset
  have hmove : Move w₀ (.post d) w₁ := step_move hpost
  cases hmove
  have harmed : Armed w₀.posts (toMilliseconds d) (w₀.clock + d) (w₀.post d) :=
    .post (Int.le_refl _) (by rw [hexact])
  have hmove : Move w (.reset id) w' := step_move hreset
  cases hmove
  have hagain := (harmed.exec hexec).reset hfind
  rw [hexact] at hagain
  exact (hagain.exec hrest).le_clock (hreach'.exec hrest) hstep hstarts

/-- What `post` keeps of a timeout that is no whole number of milliseconds. -/
theorem kept_lt {d : Int} (hd : 0 < d) (h : ¬1000000 ∣ d) :
    0 ≤ ofMilliseconds (toMilliseconds d) ∧ ofMilliseconds (toMilliseconds d) < d := by
  unfold ofMilliseconds toMilliseconds
  rw [Int.tdiv_eq_ediv_of_nonneg (Int.le_of_lt hd)]
  omega

/-- The request is reset at once, and its callback starts after the timeout that `post`
has kept. -/
theorem dvd_of_full_timeout {d : Int} (hd : 0 < d) (hfull : FullTimeout d) :
    1000000 ∣ d := by
  by_contra hdvd
  obtain ⟨hnonneg, hlt⟩ := kept_lt hd hdvd
  obtain ⟨n, hn⟩ := Int.eq_ofNat_of_zero_le hnonneg
  let kept := 0 + ofMilliseconds (toMilliseconds d)
  have hkey : kept ≠ 0 + d := by omega
  let w : TimerWheel := record (((create 0).post d).reset 0) (.reset 0)
  -- the tick begins, and the loop puts the entry in its new place
  let w₁ : TimerWheel := { w with clock := 0 + n, pc := .loop (0 + n) (some 0) }
  have htick : machine.exec w [.wait n, .tick] = some w₁ := rfl
  have htime : w₁.timeHiearchy = [] ++ (0 + d, 0) :: [] := rfl
  let w₂ := moved w₁ [] 0
  have hstale := exec_stale (w := w₁) rfl htime (List.pairwise_singleton ..)
    List.not_mem_nil hkey
  have hrun : machine.exec w [.wait n, .tick, .run] = some w₂ :=
    machine.exec_trans htick hstale
  have hentry : Multimap.find 0 w₂.timeHiearchy = some (kept, 0) := rfl
  have hstep := step_due (w := w₂) rfl hentry rfl (by omega) rfl
  have hreach : machine.Reachable (create 0) := .start ⟨0, _, rfl⟩
  have hlate := hfull (create 0) hreach _ rfl [] _ rfl 0 rfl w rfl _ _ hrun _ _ hstep ⟨0, rfl⟩
  have hzero : (0 : Int) + d ≤ 0 + n := hlate
  omega

/-- A reset arms a request for its full timeout exactly when this is a whole number of
milliseconds. -/
theorem full_timeout {d : Int} (hd : 0 < d) : FullTimeout d ↔ 1000000 ∣ d :=
  ⟨dvd_of_full_timeout hd, full_timeout_of_dvd⟩

/-- A timeout of two milliseconds. -/
theorem full_timeout_two : (0 : Int) < 2000000 ∧ FullTimeout 2000000 :=
  ⟨by decide, (full_timeout (by decide)).mpr (by decide)⟩

/-- A timeout of one and a half milliseconds. -/
theorem resets_early : ∃ d : Int, 0 < d ∧ ¬FullTimeout d :=
  ⟨1500000, by decide, fun h => absurd (dvd_of_full_timeout (by decide) h) (by decide)⟩

end TimerWheel
end Event
end Cyan

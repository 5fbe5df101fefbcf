import Mathlib.Data.List.Pairwise
import Cyan.Event.TimerWheelBooks
import Cyan.Event.TimerWheelWalk

/-!
# A tick of the timer wheel

What one run of `bookkeeper` takes out and what it leaves when its callbacks do not
touch the wheel.

* `exec_walk` runs the loop along a `Walk` over the multimap.
* `Cleared` says what a tick should do, and `InOrder` and `Matched` when it does so.

The loop leaves due requests behind for two reasons.  It goes on from the new place of
a request that has been reset, and it ends at a request that is not due when that one
stands in front of a due one because its key is from before a reset.
-/

namespace Cyan
namespace Event
namespace TimerWheel

open Base Multimap

variable {w w' : TimerWheel}

/-! ## The loop runs along a walk -/

/-- The marks of the turn of a due request. -/
def turnMarks (w : TimerWheel) (i : Nat) : List Mark :=
  .retired i (w.request i).id ::
    if (w.request i).isCancelled then [] else [.started i (w.request i).id]

/-- The turn of a due request. -/
def turn (w : TimerWheel) (now : Int) (i : Nat) : TimerWheel :=
  { w with
    requests := w.requests.eraseP (·.1 = (w.request i).id)
    timeHiearchy := Multimap.erase i w.timeHiearchy
    pc := .loop now (Multimap.next i w.timeHiearchy)
    trace := turnMarks w i ++ w.trace }

/-- The loop starts the callback of an entry that is due. -/
theorem step_due {now : Int} {i : Nat} {entry : Int × Nat}
    (hpc : w.pc = .loop now (some i))
    (hentry : Multimap.find i w.timeHiearchy = some entry)
    (hkey : (w.request i).expiry = entry.1) (hdue : entry.1 ≤ now)
    (hlive : (w.request i).isCancelled = false) :
    machine.step w .run = some { w with
      pc := .process now i
      trace := .started i (w.request i).id :: w.trace } := by
  simp [machine, step, stepBookkeeper, hpc, hentry, hkey, hdue, hlive]

theorem exec_turn {now : Int} {i : Nat} {entry : Int × Nat}
    (hpc : w.pc = .loop now (some i))
    (hentry : Multimap.find i w.timeHiearchy = some entry)
    (hkey : (w.request i).expiry = entry.1) (hdue : entry.1 ≤ now) :
    ∃ n, machine.exec w (List.replicate n .run) = some (turn w now i) := by
  cases hcancelled : (w.request i).isCancelled with
  | true =>
      have hstep : machine.step w .run = some { w with pc := .eraseRequest now i } := by
        simp [machine, step, stepBookkeeper, hpc, hentry, hkey, hdue, hcancelled]
      refine ⟨3, (machine.exec_of_step hstep _).trans ?_⟩
      rw [turn, turnMarks, hcancelled]
      rfl
  | false =>
      have hstep := step_due hpc hentry hkey hdue hcancelled
      refine ⟨4, (machine.exec_of_step hstep _).trans ?_⟩
      rw [turn, turnMarks, hcancelled]
      rfl

/-- An entry that is not due ends the loop. -/
theorem exec_notDue {now : Int} {i : Nat} {entry : Int × Nat}
    (hpc : w.pc = .loop now (some i))
    (hentry : Multimap.find i w.timeHiearchy = some entry)
    (hkey : (w.request i).expiry = entry.1) (hdue : now < entry.1) :
    machine.exec w [.run] = some { w with pc := .finish } := by
  simp [machine, step, stepBookkeeper, hpc, hentry, hkey, not_le.mpr hdue]

/-- The requests of the map after those of `taken` have been erased. -/
def takeOut (w : TimerWheel) (taken : List (Int × Nat)) : List (UInt64 × Nat) :=
  taken.foldl (fun m e => m.eraseP (·.1 = (w.request e.2).id)) w.requests

/-- The callbacks of those that are not cancelled. -/
def begun (w : TimerWheel) (taken : List (Int × Nat)) : List Nat :=
  values (taken.filter fun e => !(w.request e.2).isCancelled)

/-- What a run of `bookkeeper` makes of the wheel when it takes out `taken`. -/
structure Outcome (w w' : TimerWheel) (taken left : List (Int × Nat)) : Prop where
  request : w'.request = w.request
  timeHiearchy : w'.timeHiearchy = left
  requests : w'.requests = takeOut w taken
  trace : ∃ marks, w'.trace = marks ++ w.trace ∧
    marks.filterMap Mark.started? = (begun w taken).reverse

/-- The rest of a run after the turn of a request. -/
theorem Outcome.turn {now : Int} {e : Int × Nat} {taken left : List (Int × Nat)}
    (h : Outcome (turn w now e.2) w' taken left) : Outcome w w' (e :: taken) left := by
  obtain ⟨marks, htrace, hbegun⟩ := h.trace
  refine {
    request := h.request
    timeHiearchy := h.timeHiearchy
    requests := h.requests
    trace := ⟨marks ++ turnMarks w e.2, ?_, ?_⟩ }
  · rw [htrace, List.append_assoc]
    rfl
  · have hrest : begun (TimerWheel.turn w now e.2) taken = begun w taken := rfl
    rw [List.filterMap_append, hbegun, hrest]
    unfold turnMarks begun
    cases hcancelled : (w.request e.2).isCancelled with
    | true => simp [hcancelled, Mark.started?]
    | false =>
        have hmarks : [Mark.retired e.2 (w.request e.2).id,
            Mark.started e.2 (w.request e.2).id].filterMap Mark.started? = [e.2] := rfl
        simp [hcancelled, hmarks]

/-- The end of the run. -/
theorem exec_finish (hpc : w.pc = .finish) : ∃ w', machine.exec w [.run] = some w' ∧
    w'.pc = .idle ∧ Outcome w w' [] w.timeHiearchy := by
  have hstep : machine.step w .run =
      some { (if w.timeHiearchy.isEmpty then w.stop else w) with pc := .idle } := by
    simp [machine, step, stepBookkeeper, hpc]
  refine ⟨_, (machine.exec_of_step hstep []).trans rfl, rfl, ?_⟩
  split
  · exact ⟨rfl, rfl, rfl, [], rfl, rfl⟩
  · exact ⟨rfl, rfl, rfl, [], rfl, rfl⟩

theorem exec_replicate_trans {n m : Nat} {w₁ w₂ : TimerWheel} {a : Action}
    (hfirst : machine.exec w (List.replicate n a) = some w₁)
    (hsecond : machine.exec w₁ (List.replicate m a) = some w₂) :
    machine.exec w (List.replicate (n + m) a) = some w₂ := by
  rw [List.replicate_add]
  exact machine.exec_trans hfirst hsecond

/-- A walk that ends here. -/
theorem exec_end {n : Nat} {v : TimerWheel}
    (hexec : machine.exec w (List.replicate n .run) = some v) (hpc : v.pc = .finish)
    (hrequest : v.request = w.request) (hrequests : v.requests = w.requests)
    (htrace : v.trace = w.trace) :
    ∃ n w', machine.exec w (List.replicate n .run) = some w' ∧ w'.pc = .idle ∧
      Outcome w w' [] v.timeHiearchy := by
  obtain ⟨w', hlast, hidle, hout⟩ := exec_finish hpc
  refine ⟨n + 1, w', exec_replicate_trans hexec hlast, hidle, ?_⟩
  obtain ⟨marks, htrace', hbegun⟩ := hout.trace
  exact {
    request := hout.request.trans hrequest
    timeHiearchy := hout.timeHiearchy
    requests := hout.requests.trans hrequests
    trace := ⟨marks, by rw [htrace', htrace], hbegun⟩ }

/-- The entry in hand is the only one with its value. -/
theorem nodup_without {passed ahead : List (Int × Nat)} {e : Int × Nat}
    (honce : (values (passed ++ e :: ahead)).Nodup) :
    e.2 ∉ values passed ∧ e.2 ∉ values (passed ++ ahead) ∧
      (values (passed ++ ahead)).Nodup := by
  rw [values_append, values_cons, List.perm_middle.nodup_iff, ← values_append] at honce
  obtain ⟨hnew, hrest⟩ := List.nodup_cons.mp honce
  refine ⟨fun hmem => hnew ?_, hnew, hrest⟩
  rw [values_append]
  exact List.mem_append_left _ hmem

/-- The wheel with a request in its new place. -/
def moved (w : TimerWheel) (rest : List (Int × Nat)) (r : Nat) : TimerWheel :=
  { w with
    timeHiearchy := upTo (w.request r).expiry rest ++
      ((w.request r).expiry, r) :: beyond (w.request r).expiry rest }

/-- A stale entry is put in its new place, and the iterator goes with it. -/
theorem exec_stale {now : Int} {passed ahead : List (Int × Nat)} {e : Int × Nat}
    (hpc : w.pc = .loop now (some e.2)) (htime : w.timeHiearchy = passed ++ e :: ahead)
    (hsorted : Sorted (passed ++ e :: ahead)) (hnew : e.2 ∉ values passed)
    (hkey : (w.request e.2).expiry ≠ e.1) :
    machine.exec w [.run] = some (moved w (passed ++ ahead) e.2) := by
  have hentry : Multimap.find e.2 w.timeHiearchy = some e := by
    rw [htime]
    exact find_split hnew
  have hplace : Multimap.emplace (w.request e.2).expiry e.2 (Multimap.erase e.2 w.timeHiearchy) =
      upTo (w.request e.2).expiry (passed ++ ahead) ++
        ((w.request e.2).expiry, e.2) :: beyond (w.request e.2).expiry (passed ++ ahead) := by
    rw [htime, erase_split hnew, emplace_eq (sorted_without hsorted)]
  rw [moved, ← hplace]
  simp [machine, step, stepBookkeeper, hpc, hentry, hkey]

/-- The loop takes out and leaves what the walk takes out and leaves. -/
theorem exec_walk {expiry : Nat → Int} {now : Int} {passed ahead taken left : List (Int × Nat)}
    (hwalk : Walk expiry now passed ahead taken left)
    (hpc : w.pc = .loop now (first ahead)) (htime : w.timeHiearchy = passed ++ ahead)
    (hsorted : Sorted (passed ++ ahead)) (honce : (values (passed ++ ahead)).Nodup)
    (hexpiry : ∀ r, (w.request r).expiry = expiry r) :
    ∃ n w', machine.exec w (List.replicate n .run) = some w' ∧ w'.pc = .idle ∧
      Outcome w w' taken left := by
  induction hwalk generalizing w with
  | atEnd passed =>
      rw [List.append_nil] at htime
      rw [← htime]
      refine exec_end (n := 1) (v := { w with pc := .finish }) ?_ rfl rfl rfl rfl
      simp [machine, step, stepBookkeeper, hpc]
  | @notDue passed ahead e hkey hdue =>
      obtain ⟨hnew, -, -⟩ := nodup_without honce
      have hentry : Multimap.find e.2 w.timeHiearchy = some e := by
        rw [htime]
        exact find_split hnew
      rw [← htime]
      exact exec_end (n := 1) (v := { w with pc := .finish })
        (exec_notDue hpc hentry ((hexpiry e.2).trans hkey) hdue) rfl rfl rfl rfl
  | @staleNotDue passed ahead e hkey hdue =>
      obtain ⟨hnew, hnowhere, -⟩ := nodup_without honce
      have hstale := exec_stale hpc htime hsorted hnew (by rw [hexpiry]; exact hkey)
      rw [emplace_eq (sorted_without hsorted), ← hexpiry]
      -- in its new place the entry is not due
      have hplaced : e.2 ∉ values (upTo (w.request e.2).expiry (passed ++ ahead)) :=
        fun hmem => hnowhere ((List.filter_sublist.map _).subset hmem)
      have hentry : Multimap.find e.2 (moved w (passed ++ ahead) e.2).timeHiearchy = _ :=
        find_split hplaced
      have hend := exec_notDue (w := moved w (passed ++ ahead) e.2) hpc hentry rfl
        (by rw [hexpiry]; exact hdue)
      exact exec_end (n := 2) (machine.exec_trans hstale hend) rfl rfl rfl rfl
  | @due passed ahead taken left e hkey hdue hrest ih =>
      obtain ⟨hnew, -, hrestOnce⟩ := nodup_without honce
      have hentry : Multimap.find e.2 w.timeHiearchy = some e := by
        rw [htime]
        exact find_split hnew
      obtain ⟨n, hturn⟩ := exec_turn hpc hentry ((hexpiry e.2).trans hkey) hdue
      obtain ⟨m, w', hexec, hidle, hout⟩ := ih (w := turn w now e.2)
        (by rw [turn, htime, next_split hnew]) (by rw [turn, htime, erase_split hnew])
        (sorted_without hsorted) hrestOnce hexpiry
      exact ⟨n + m, w', exec_replicate_trans hturn hexec, hidle, hout.turn⟩
  | @staleDue passed ahead taken left e hkey hdue hrest ih =>
      obtain ⟨hnew, hnowhere, hrestOnce⟩ := nodup_without honce
      have hstale := exec_stale hpc htime hsorted hnew (by rw [hexpiry]; exact hkey)
      rw [← hexpiry] at ih hdue
      have hplaced : e.2 ∉ values (upTo (w.request e.2).expiry (passed ++ ahead)) :=
        fun hmem => hnowhere ((List.filter_sublist.map _).subset hmem)
      have hentry : Multimap.find e.2 (moved w (passed ++ ahead) e.2).timeHiearchy = _ :=
        find_split hplaced
      have hcut := upTo_append_beyond (sorted_without hsorted) (w.request e.2).expiry
      obtain ⟨n, hturn⟩ := exec_turn (w := moved w (passed ++ ahead) e.2) hpc hentry rfl hdue
      obtain ⟨m, w', hexec, hidle, hout⟩ :=
        ih (w := turn (moved w (passed ++ ahead) e.2) now e.2)
        (by rw [turn, moved, next_split hplaced]) (by rw [turn, moved, erase_split hplaced])
        (by rw [hcut]; exact sorted_without hsorted) (by rw [hcut]; exact hrestOnce) hexpiry
      refine ⟨1 + (n + m), w',
        exec_replicate_trans hstale (exec_replicate_trans hturn hexec), hidle, ?_⟩
      have hout := hout.turn
      exact ⟨hout.request, hout.timeHiearchy, hout.requests, hout.trace⟩

/-! ## What a tick should do -/

/-- One run of `bookkeeper` at the time of the clock, whose callbacks do not touch the
wheel. -/
def Ticks (w w' : TimerWheel) : Prop :=
  ∃ n, machine.exec w.beginBookkeeper (List.replicate n .run) = some w' ∧ w'.pc = .idle

/-- The request is to expire at or before the time of the clock. -/
def Due (w : TimerWheel) (r : Nat) : Prop :=
  (w.request r).expiry ≤ w.clock

/-- The tick has begun the callbacks of the due requests that are not cancelled, each
once and in the order of expiry, and has taken the due requests out of both containers
and no others. -/
structure Cleared (w w' : TimerWheel) : Prop where
  callbacks : ∃ (marks : List Mark) (started : List Nat), w'.trace = marks ++ w.trace ∧
    marks.filterMap Mark.started? = started.reverse ∧ started.Nodup ∧
    (∀ r, r ∈ started ↔ r ∈ values w.timeHiearchy ∧ Due w r ∧
      (w.request r).isCancelled = false) ∧
    started.Pairwise fun r q => (w.request r).expiry ≤ (w.request q).expiry
  timeHiearchy : ∀ r, r ∈ values w'.timeHiearchy ↔ r ∈ values w.timeHiearchy ∧ ¬Due w r
  requests : ∀ r, r ∈ w'.pendingRequests ↔ r ∈ w.pendingRequests ∧ ¬Due w r

/-- The tick leaves nothing due behind. -/
def LeavesNothingDue (w : TimerWheel) : Prop :=
  ∃ w', Ticks w w' ∧ Cleared w w'

/-- The expiries of the requests. -/
def expiries (w : TimerWheel) (r : Nat) : Int :=
  (w.request r).expiry

/-- Each due request is followed by the next one where the loop looks for it, and those
that are not cancelled stand in the order of their expiry. -/
structure InOrder (w : TimerWheel) : Prop where
  linked : Linked (expiries w) w.clock [] w.timeHiearchy
  sorted : (begun w (dueEntries (expiries w) w.clock w.timeHiearchy)).Pairwise
    fun r q => (w.request r).expiry ≤ (w.request q).expiry

/-- An id of the map is the id of a due request of the multimap when its own request is
due. -/
def Matched (w : TimerWheel) : Prop :=
  ∀ x ∈ w.requests,
    (∃ r ∈ values w.timeHiearchy, Due w r ∧ (w.request r).id = x.1) ↔ Due w x.2

/-- Of two due requests of which one is cancelled, none goes back in front of the new
place of the other. -/
def NoWayBack (w : TimerWheel) : Prop :=
  ∀ g ∈ w.timeHiearchy, ∀ s ∈ w.timeHiearchy, Due w g.2 → Due w s.2 →
    (w.request g.2).isCancelled = true ∨ (w.request s.2).isCancelled = true →
      s.1 ≤ (w.request s.2).expiry ∨ (w.request g.2).expiry ≤ (w.request s.2).expiry

/-- A tick runs to its end. -/
theorem exists_ticks (hreach : machine.Reachable w) : ∃ w' taken left, Ticks w w' ∧
    Walk (expiries w) w.clock [] w.timeHiearchy taken left ∧ Outcome w w' taken left := by
  have hstored := stored hreach
  obtain ⟨taken, left, hwalk⟩ :=
    exists_walk (expiries w) w.clock [] w.timeHiearchy hstored.sorted
  obtain ⟨n, w', hexec, hidle, hout⟩ := exec_walk (w := w.beginBookkeeper) hwalk rfl rfl
    hstored.sorted hstored.once fun _ => rfl
  exact ⟨w', taken, left, ⟨n, hexec, hidle⟩, hwalk,
    hout.request, hout.timeHiearchy, hout.requests, hout.trace⟩

theorem Ticks.unique {v : TimerWheel} (hfirst : Ticks w w') (hsecond : Ticks w v) :
    w' = v := by
  obtain ⟨n, hfirst, hidle⟩ := hfirst
  obtain ⟨m, hsecond, hidle'⟩ := hsecond
  have hend : ∀ u : TimerWheel, u.pc = .idle → machine.step u .run = none := by
    intro u hu
    show u.stepBookkeeper = none
    rw [stepBookkeeper, hu]
  exact machine.exec_replicate_unique hfirst (hend _ hidle) hsecond (hend _ hidle')

theorem mem_takeOut (hids : (w.requests.map Prod.fst).Nodup) (taken : List (Int × Nat))
    {x : UInt64 × Nat} : x ∈ takeOut w taken ↔
      x ∈ w.requests ∧ ∀ r ∈ values taken, (w.request r).id ≠ x.1 := by
  unfold takeOut
  generalize w.requests = requests at hids ⊢
  induction taken generalizing requests with
  | nil => simp
  | cons e taken ih =>
      have hsub : (requests.eraseP (·.1 = (w.request e.2).id)).Sublist requests :=
        List.eraseP_sublist
      rw [List.foldl_cons, ih _ (hids.sublist (hsub.map _)), mem_eraseP hids, values_cons,
        List.forall_mem_cons, and_assoc, ne_comm]

theorem mem_begun {taken : List (Int × Nat)} {r : Nat} :
    r ∈ begun w taken ↔ r ∈ values taken ∧ (w.request r).isCancelled = false := by
  constructor
  · intro hr
    obtain ⟨e, he, rfl⟩ := List.mem_map.mp hr
    obtain ⟨he, hlive⟩ := List.mem_filter.mp he
    exact ⟨List.mem_map_of_mem he, by simpa using hlive⟩
  · rintro ⟨hr, hlive⟩
    obtain ⟨e, he, rfl⟩ := List.mem_map.mp hr
    exact List.mem_map_of_mem (List.mem_filter.mpr ⟨he, by simpa using hlive⟩)

/-- What the walk takes out, when it leaves nothing due. -/
theorem mem_taken {taken left : List (Int × Nat)} (hstored : Stored w)
    (hwalk : Walk (expiries w) w.clock [] w.timeHiearchy taken left)
    (hleft : ∀ r ∈ values left, ¬Due w r) (r : Nat) :
    (r ∈ values taken ↔ r ∈ values w.timeHiearchy ∧ Due w r) ∧
      (r ∈ values left ↔ r ∈ values w.timeHiearchy ∧ ¬Due w r) := by
  have hperm := hwalk.values_perm hstored.sorted
  have hdue : r ∈ values taken → Due w r := by
    intro hr
    obtain ⟨e, he, rfl⟩ := List.mem_map.mp hr
    exact (hwalk.taken_due e he).2
  have hmem : r ∈ values w.timeHiearchy ↔ r ∈ values taken ∨ r ∈ values left := by
    rw [← List.mem_append, hperm.mem_iff]
    rfl
  constructor
  · rw [hmem]
    constructor
    · intro hr
      exact ⟨.inl hr, hdue hr⟩
    · rintro ⟨hr | hr, hd⟩
      · exact hr
      · exact absurd hd (hleft r hr)
  · rw [hmem]
    constructor
    · intro hr
      exact ⟨.inr hr, hleft r hr⟩
    · rintro ⟨hr | hr, hd⟩
      · exact absurd (hdue hr) hd
      · exact hr

/-- A tick does what it should when it leaves nothing due, keeps the order and finds the
ids it erases. -/
theorem cleared_iff {taken left : List (Int × Nat)} (hstored : Stored w)
    (hwalk : Walk (expiries w) w.clock [] w.timeHiearchy taken left)
    (hout : Outcome w w' taken left) : Cleared w w' ↔
      ((begun w taken).Pairwise fun r q => (w.request r).expiry ≤ (w.request q).expiry) ∧
        (∀ r ∈ values left, ¬Due w r) ∧ Matched w := by
  obtain ⟨marks, htrace, hbegun⟩ := hout.trace
  have hmap : ∀ {x}, x ∈ w'.requests ↔
      x ∈ w.requests ∧ ∀ r ∈ values taken, (w.request r).id ≠ x.1 := by
    intro x
    rw [hout.requests]
    exact mem_takeOut hstored.ids taken
  constructor
  · intro h
    have hleft : ∀ r ∈ values left, ¬Due w r := by
      intro r hr
      rw [← hout.timeHiearchy] at hr
      exact ((h.timeHiearchy r).mp hr).2
    have htaken := fun r => (mem_taken hstored hwalk hleft r).1
    refine ⟨?_, hleft, fun x hx => ⟨?_, fun hdue => ?_⟩⟩
    · obtain ⟨marks', started, htrace', hstarted, -, -, hsorted⟩ := h.callbacks
      rw [htrace, List.append_left_inj] at htrace'
      rw [← htrace', hbegun, List.reverse_inj] at hstarted
      exact hstarted ▸ hsorted
    · rintro ⟨r, hr, hdue, hid⟩
      by_contra hlate
      -- the request of `x` is kept, so its id has not been erased
      obtain ⟨y, hy, heq⟩ := List.mem_map.mp
        ((h.requests x.2).mpr ⟨List.mem_map_of_mem hx, hlate⟩)
      obtain ⟨hy, hkept⟩ := hmap.mp hy
      refine hkept r ((htaken r).mpr ⟨hr, hdue⟩) ?_
      rw [hid, hstored.keyed y hy, heq, hstored.keyed x hx]
    · by_contra hnone
      refine ((h.requests x.2).mp (List.mem_map_of_mem (hmap.mpr ⟨hx, ?_⟩))).2 hdue
      intro r hr hid
      obtain ⟨hr, hd⟩ := (htaken r).mp hr
      exact hnone ⟨r, hr, hd, hid⟩
  · rintro ⟨hsorted, hleft, hmatched⟩
    have htaken := fun r => (mem_taken hstored hwalk hleft r).1
    refine {
      callbacks := ⟨marks, begun w taken, htrace, hbegun, ?_, fun r => ?_, hsorted⟩
      timeHiearchy := fun r => ?_
      requests := fun r => ⟨fun hr => ?_, fun hr => ?_⟩ }
    · have hperm := hwalk.values_perm hstored.sorted
      have honce := (List.nodup_append.mp (hperm.nodup_iff.mpr hstored.once)).1
      exact honce.sublist (List.filter_sublist.map _)
    · rw [mem_begun, htaken, and_assoc]
    · rw [hout.timeHiearchy]
      exact (mem_taken hstored hwalk hleft r).2
    · obtain ⟨x, hx, rfl⟩ := List.mem_map.mp hr
      obtain ⟨hx, hkept⟩ := hmap.mp hx
      refine ⟨List.mem_map_of_mem hx, fun hdue => ?_⟩
      obtain ⟨q, hq, hd, hid⟩ := (hmatched x hx).mpr hdue
      exact hkept q ((htaken q).mpr ⟨hq, hd⟩) hid
    · obtain ⟨hr, hlate⟩ := hr
      obtain ⟨x, hx, rfl⟩ := List.mem_map.mp hr
      refine List.mem_map_of_mem (hmap.mpr ⟨hx, fun q hq hid => hlate ?_⟩)
      obtain ⟨hq, hd⟩ := (htaken q).mp hq
      exact (hmatched x hx).mp ⟨q, hq, hd, hid⟩

/-! ## When a tick leaves nothing due -/

theorem leavesNothingDue_of_inOrder (hreach : machine.Reachable w) (horder : InOrder w)
    (hmatched : Matched w) : LeavesNothingDue w := by
  have hstored := stored hreach
  obtain ⟨w', taken, left, hticks, hwalk, hout⟩ := exists_ticks hreach
  have htaken := hwalk.eq_of_linked hstored.sorted horder.linked fun _ hn => nomatch hn
  refine ⟨w', hticks, (cleared_iff hstored hwalk hout).mpr
    ⟨htaken ▸ horder.sorted, fun r hr hdue => ?_, hmatched⟩⟩
  -- a due request is taken out, so it is not left
  have hperm := hwalk.values_perm hstored.sorted
  have hmem : r ∈ values taken := by
    obtain ⟨e, he, rfl⟩ := List.mem_map.mp (hperm.subset (List.mem_append_right _ hr))
    rw [htaken]
    exact List.mem_map_of_mem (List.mem_filter.mpr ⟨he, decide_eq_true hdue⟩)
  have honce := List.nodup_append.mp (hperm.nodup_iff.mpr hstored.once)
  exact honce.2.2 r hmem r hr rfl

theorem inOrder_of_leavesNothingDue (hreach : machine.Reachable w) (hback : NoWayBack w)
    (h : LeavesNothingDue w) : InOrder w ∧ Matched w := by
  have hstored := stored hreach
  obtain ⟨w', taken, left, hticks, hwalk, hout⟩ := exists_ticks hreach
  obtain ⟨v, hticks', hcleared⟩ := h
  obtain rfl := hticks.unique hticks'
  obtain ⟨hsorted, hleft, hmatched⟩ := (cleared_iff hstored hwalk hout).mp hcleared
  have hforward : taken.Pairwise fun g s =>
      s.1 ≤ expiries w s.2 ∨ expiries w g.2 ≤ expiries w s.2 := by
    rw [begun, values, List.pairwise_map, List.pairwise_filter] at hsorted
    refine hsorted.imp_of_mem fun {g s} hg hs hlive => ?_
    obtain ⟨hgmem, hgdue⟩ := hwalk.taken_due g hg
    obtain ⟨hsmem, hsdue⟩ := hwalk.taken_due s hs
    by_cases hcancelled :
        (w.request g.2).isCancelled = true ∨ (w.request s.2).isCancelled = true
    · exact hback g hgmem s hsmem hgdue hsdue hcancelled
    · rw [not_or] at hcancelled
      exact .inr (hlive (by simpa using hcancelled.1) (by simpa using hcancelled.2))
  have hlinked := hwalk.linked hstored.sorted (fun _ hn => nomatch hn)
    (fun r hr => not_le.mp (hleft r hr)) hforward
  have htaken := hwalk.eq_of_linked hstored.sorted hlinked fun _ hn => nomatch hn
  exact ⟨⟨hlinked, htaken ▸ hsorted⟩, hmatched⟩

/-- Below `2 ^ 64` posts the ids are those of different requests, and between two ticks
the map has the requests of the multimap. -/
theorem matched (hreach : machine.Reachable w) (hposts : w.posts < 2 ^ 64) : Matched w := by
  obtain ⟨hc, -⟩ := containers_history hreach hposts
  intro x hx
  have hpending : x.2 ∈ w.pendingRequests := List.mem_map_of_mem hx
  constructor
  · rintro ⟨r, hr, hdue, hid⟩
    have hold := hc.old r hr
    have hold' := hc.oldPending x.2 hpending
    have hsame : r = x.2 := by
      refine ofNat_inj (by omega) (by omega) ?_
      rw [← hc.numbered r hold, ← hc.numbered x.2 hold', hid, hc.keyed x hx]
    exact hsame ▸ hdue
  · intro hdue
    exact ⟨x.2, hc.mem_values hpending, hdue, (hc.keyed x hx).symm⟩

/-- While no request has been reset, the multimap is in order. -/
theorem inOrder_of_fresh (hreach : machine.Reachable w)
    (hfresh : ∀ e ∈ w.timeHiearchy, (w.request e.2).expiry = e.1) : InOrder w := by
  have hsorted := (stored hreach).sorted
  -- what is not due does not stand in front of what is due
  have hfront : ∀ {front d behind}, w.timeHiearchy = front ++ d :: behind → Due w d.2 →
      ∀ n ∈ front, ¬w.clock < expiries w n.2 := by
    intro front d behind hsplit hdue n hn
    rw [hsplit] at hsorted hfresh
    have hle := (List.pairwise_append.mp hsorted).2.2 n hn d (List.mem_cons_self ..)
    have hd := hfresh d (List.mem_append_right _ (List.mem_cons_self ..))
    have hn := hfresh n (List.mem_append_left _ hn)
    rw [Due] at hdue
    rw [expiries]
    omega
  have hnone : ∀ {front between d behind}, w.timeHiearchy = front ++ (between ++ d :: behind) →
      Due w d.2 → (∀ n ∈ between, w.clock < expiries w n.2) → between = [] := by
    intro front between d behind hsplit hdue hbetween
    rw [← List.append_assoc] at hsplit
    refine List.eq_nil_iff_forall_not_mem.mpr fun n hn => ?_
    exact hfront hsplit hdue n (List.mem_append_right _ hn) (hbetween n hn)
  refine {
    linked := {
      first := fun hsplit hd hbetween =>
        hnone (hsplit.trans (List.nil_append _).symm) hd hbetween
      fresh := fun {before s between d behind} hsplit _ hd hbetween _ => ?_
      stale := fun hsplit _ _ _ hstale => ?_ }
    sorted := ?_ }
  · exact hnone (hsplit.trans (List.append_cons ..)) hd hbetween
  · refine absurd (hfresh _ ?_) hstale
    rw [hsplit]
    exact List.mem_append_right _ (List.mem_cons_self ..)
  · rw [begun, values, List.pairwise_map]
    have hkeys := (hsorted.sublist (List.filter_sublist (p := fun e =>
      expiries w e.2 ≤ w.clock))).sublist (List.filter_sublist (p := fun e =>
        !(w.request e.2).isCancelled))
    refine hkeys.imp_of_mem fun {e f} he hf hle => ?_
    rw [hfresh e (List.mem_filter.mp (List.mem_filter.mp he).1).1,
      hfresh f (List.mem_filter.mp (List.mem_filter.mp hf).1).1]
    exact hle

/-- A tick leaves nothing due when the multimap is in order, and only then unless a
request goes back. -/
theorem leaves_nothing_due (hreach : machine.Reachable w) :
    (InOrder w ∧ Matched w → LeavesNothingDue w) ∧
      (NoWayBack w → LeavesNothingDue w → InOrder w ∧ Matched w) :=
  ⟨fun h => leavesNothingDue_of_inOrder hreach h.1 h.2,
    inOrder_of_leavesNothingDue hreach⟩

/-- Two due requests and one that is not. -/
theorem leaves_nothing_due_run : ∃ w, machine.Reachable w ∧
    Due w 0 ∧ Due w 1 ∧ ¬Due w 2 ∧ LeavesNothingDue w ∧ InOrder w := by
  obtain ⟨w, hrun, hposts, hfresh, hzero, hone, htwo, hback⟩ : ∃ w,
      machine.exec (create 0) [.post 2000000, .post 1000000, .post 9000000, .wait 2000000] =
        some w ∧ w.posts < 2 ^ 64 ∧
        (∀ e ∈ w.timeHiearchy, (w.request e.2).expiry = e.1) ∧
        (w.request 0).expiry ≤ w.clock ∧ (w.request 1).expiry ≤ w.clock ∧
        ¬(w.request 2).expiry ≤ w.clock ∧
        ∀ g ∈ w.timeHiearchy, ∀ s ∈ w.timeHiearchy, (w.request g.2).isCancelled = true ∨
          (w.request s.2).isCancelled = true → s.1 ≤ (w.request s.2).expiry :=
    ⟨_, rfl, by decide, by decide, by decide, by decide, by decide, by decide⟩
  have hreach : machine.Reachable w := .of_exec ⟨0, _, rfl⟩ hrun
  obtain ⟨hclears, honly⟩ := leaves_nothing_due hreach
  have hnothing := hclears ⟨inOrder_of_fresh hreach hfresh, matched hreach hposts⟩
  have horder := honly (fun g hg s hs _ _ hc => .inl (hback g hg s hs hc)) hnothing
  exact ⟨w, hreach, hzero, hone, htwo, hnothing, horder.1⟩

/-- The first request is reset and the second is due.  The loop puts the first in its new
place behind the second, comes to it there and ends. -/
theorem leaves_due_behind : ∃ w, machine.Reachable w ∧ w.pc = .idle ∧
    ¬LeavesNothingDue w := by
  obtain ⟨w, hrun, hidle, v, hticks, hleft, hdue⟩ : ∃ w,
      machine.exec (create 0) [.post 1000000, .post 2000000, .wait 4000000, .reset 0] =
        some w ∧ w.pc = .idle ∧ ∃ v, Ticks w v ∧ 1 ∈ values v.timeHiearchy ∧ Due w 1 :=
    ⟨_, rfl, rfl, _, ⟨3, rfl, rfl⟩, by decide, by unfold Due; decide⟩
  refine ⟨w, .of_exec ⟨0, _, rfl⟩ hrun, hidle, ?_⟩
  rintro ⟨w', hticks', hcleared⟩
  obtain rfl := hticks.unique hticks'
  exact ((hcleared.timeHiearchy 1).mp hleft).2 hdue

/-! ## Timeouts of whole milliseconds -/

/-- A request does not expire before its key, and a reset does not make it expire
earlier. -/
structure Forward (w : TimerWheel) : Prop where
  key : ∀ e ∈ w.timeHiearchy, e.1 ≤ (w.request e.2).expiry
  later : ∀ r, r < w.posts →
    (w.request r).expiry ≤ w.clock + ofMilliseconds (w.request r).timeout

theorem toMilliseconds_of_dvd {timeout : Int} (h : 1000000 ∣ timeout) :
    ofMilliseconds (toMilliseconds timeout) = timeout :=
  Int.tdiv_mul_cancel h

theorem Forward.bookkeeper (h : Forward w) (hmove : BookMove w w') : Forward w' := by
  cases hmove with
  | stale hpc hentry hkey =>
      refine ⟨fun e he => ?_, h.later⟩
      rcases List.mem_cons.mp ((perm_emplace ..).subset he) with rfl | he
      · exact Int.le_refl _
      · exact h.key e (List.eraseP_subset he)
  | eraseEntry hpc => exact ⟨fun e he => h.key e (List.eraseP_subset he), h.later⟩
  | _ => exact ⟨h.key, h.later⟩

/-- A request is changed in place and does not expire earlier. -/
theorem Forward.modify (h : Forward w) (r : Nat) (req : Request)
    (hle : (w.request r).expiry ≤ req.expiry)
    (hlater : req.expiry ≤ w.clock + ofMilliseconds req.timeout) :
    Forward (w.modify r req) where
  key e he := by
    by_cases hr : e.2 = r
    · subst hr
      rw [modify_self]
      exact (h.key e he).trans hle
    · rw [modify_of_ne hr]
      exact h.key e he
  later q hq := by
    by_cases hr : q = r
    · subst hr
      rw [modify_self]
      exact hlater
    · rw [modify_of_ne hr]
      exact h.later q hq

theorem Forward.move {a : Action} (h : Forward w) (hstored : Stored w)
    (hwhole : ∀ timeout, a = .post timeout → 1000000 ∣ timeout) (hmove : Move w a w') :
    Forward w' := by
  have hold : ∀ {id r}, w.find id = some r → r < w.posts := by
    intro id r hfind
    obtain ⟨x, hx, rfl⟩ := Option.map_eq_some_iff.mp hfind
    exact hstored.oldPending x.2 (List.mem_map_of_mem (List.mem_of_find?_eq_some hx))
  cases hmove with
  | post timeout =>
      have hexact := toMilliseconds_of_dvd (hwhole timeout rfl)
      refine ⟨fun e he => ?_, fun r hr => ?_⟩
      · rw [post_timeHiearchy] at he
        rw [post_request]
        rcases List.mem_cons.mp ((perm_emplace ..).subset he) with rfl | he
        · rw [Function.update_self]
        · have hne : e.2 ≠ w.posts := Nat.ne_of_lt (hstored.old _ (List.mem_map_of_mem he))
          rw [Function.update_of_ne hne]
          exact h.key e he
      · rw [post_request, post_clock]
        by_cases hne : r = w.posts
        · rw [hne, Function.update_self]
          show w.clock + timeout ≤ w.clock + ofMilliseconds (toMilliseconds timeout)
          rw [hexact]
        · rw [Function.update_of_ne hne]
          rw [post_posts] at hr
          exact h.later r (by omega)
  | cancel id =>
      cases hfind : w.find id with
      | none =>
          rw [cancel_of_none hfind]
          exact ⟨h.key, h.later⟩
      | some r =>
          rw [cancel_of_find hfind]
          have hmodified := h.modify r { w.request r with isCancelled := true }
            (Int.le_refl _) (h.later r (hold hfind))
          exact ⟨hmodified.key, hmodified.later⟩
  | reset id =>
      cases hfind : w.find id with
      | none =>
          rw [reset_of_none hfind]
          exact ⟨h.key, h.later⟩
      | some r =>
          rw [reset_of_find hfind]
          have hmodified := h.modify r { w.request r with
            expiry := w.getAbsoluteExpiry (ofMilliseconds (w.request r).timeout) }
            (h.later r (hold hfind)) (Int.le_refl _)
          exact ⟨hmodified.key, hmodified.later⟩
  | start =>
      rw [start_eq]
      exact ⟨h.key, h.later⟩
  | wait d =>
      refine ⟨h.key, fun r hr => (h.later r hr).trans (Int.add_le_add_right ?_ _)⟩
      exact Int.le_add_of_nonneg_right (Int.natCast_nonneg d)
  | run hmove => exact h.bookkeeper hmove
  | _ => exact ⟨h.key, h.later⟩

/-- With timeouts of whole milliseconds a tick leaves nothing due exactly when the
multimap is in order. -/
theorem leavesNothingDue_iff (hposts : w.posts < 2 ^ 64)
    (hreach : machine.ReachableUnder (fun _ a => ∀ timeout, a = .post timeout →
      1000000 ∣ timeout) w) : LeavesNothingDue w ↔ InOrder w := by
  have hforward : Forward w := by
    refine hreach.invariant_reachable ?_ fun w a w' hbefore h hwhole hstep =>
      h.move (stored hbefore.reachable) hwhole (step_move hstep)
    rintro w ⟨clock, res, rfl⟩
    exact ⟨fun _ he => (nomatch he), fun r hr => absurd hr (Nat.not_lt_zero r)⟩
  have hreach := hreach.reachable
  constructor
  · intro h
    exact (inOrder_of_leavesNothingDue hreach
      (fun _ _ s hs _ _ _ => .inl (hforward.key s hs)) h).1
  · intro h
    exact leavesNothingDue_of_inOrder hreach h (matched hreach hposts)

end TimerWheel
end Event
end Cyan

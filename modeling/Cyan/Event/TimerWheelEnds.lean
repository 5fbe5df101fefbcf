import Cyan.Base.Budget
import Cyan.Event.TimerWheelDue

/-!
# The end of a tick

The loop of `bookkeeper` puts entries in front of its own iterator, and the callbacks add
entries and make others stale while it runs.

* The iterator always points to an entry, so `bookkeeper` can go on.
* `work` bounds the steps that are left.  It counts the due entries and not the remaining
  length: a stale entry costs one step more than a fresh one, and the calls of a callback
  leave the number of due entries alone when what they post or reset expires after `now`.
* `visits` counts the entries, the stale ones twice.
* `OnceSince` says that a request whose callback has started does not come back.
-/

namespace Cyan
namespace Event
namespace TimerWheel

open Base

variable {w w' : TimerWheel}

/-! ## The iterator -/

theorem pointed (hreach : machine.Reachable w) : Pointed w := by
  refine hreach.invariant ?_ fun w a w' h _ hstep => h.move (step_move hstep)
  rintro w ⟨clock, res, rfl⟩
  exact fun i hi => nomatch hi

/-- `bookkeeper` does not get stuck. -/
theorem exists_step (h : Pointed w) (hbusy : w.pc ≠ .idle) :
    ∃ w', machine.step w .run = some w' := by
  show ∃ w', w.stepBookkeeper = some w'
  unfold stepBookkeeper
  split
  · exact absurd ‹_› hbusy
  · exact ⟨_, rfl⟩
  · rename_i now i hpc
    obtain ⟨passed, k, ahead, hsplit, hpassed⟩ :=
      Multimap.exists_split (h i (by rw [hpc]; rfl))
    rw [hsplit, Multimap.find_split hpassed]
    exact ⟨_, rfl⟩
  all_goals exact ⟨_, rfl⟩

/-! ## Calls while `bookkeeper` runs -/

/-- What a callback may call: it posts only what expires after the `now` of the run, and
resets only requests whose timeout is positive. -/
def Permitted (w : TimerWheel) (a : Action) : Prop :=
  ∀ now, w.pc.now? = some now →
    match a with
    | .post timeout => now < w.getAbsoluteExpiry timeout
    | .reset id => ∀ r, w.find id = some r → 0 < (w.request r).timeout
    | _ => True

/-- The timer fires between two runs. -/
theorem tick_idle (hstep : step w .tick = some w') : w.pc = .idle := by
  cases step_move hstep with
  | tick hpc => exact hpc

/-- Outside a callback only time passes. -/
theorem step_busy {a : Action} (hbusy : w.pc ≠ .idle) (hstep : machine.step w a = some w') :
    a = .run ∨ (∃ d, a = .wait d) ∨ ∃ now i, w.pc = .process now i := by
  -- the user may call between two runs and from a callback
  have hcallable : w.callable = true → ∃ now i, w.pc = .process now i := by
    intro hcall
    unfold callable at hcall
    split at hcall
    · exact absurd ‹_› hbusy
    · exact ⟨_, _, ‹_›⟩
    · cases hcall
  replace hstep : step w a = some w' := hstep
  cases a with
  | run => exact .inl rfl
  | wait d => exact .inr (.inl ⟨d, rfl⟩)
  | tick => exact absurd (tick_idle hstep) hbusy
  | _ =>
      simp only [step] at hstep
      split at hstep
      · exact .inr (.inr (hcallable ‹_›))
      · cases hstep

/-! ## How long `bookkeeper` runs -/

/-- How many entries are due. -/
def dueIn (w : TimerWheel) (now : Int) (m : List (Int × Nat)) : Nat :=
  (Multimap.values m).countP fun r => (w.request r).expiry ≤ now

/-- A bound on the steps that `bookkeeper` has still to make.  A due entry takes up to five of
them: its new place, the test, the callback and the two erasures. -/
def work (w : TimerWheel) : Nat :=
  match w.pc with
  | .idle => 0
  | .finish => 1
  | .loop _ none => 2
  | .loop now (some i) =>
      5 * dueIn w now w.timeHiearchy +
        if Multimap.find i w.timeHiearchy = some ((w.request i).expiry, i) then 2 else 3
  | .process now i => 5 * dueIn w now (Multimap.erase i w.timeHiearchy) + 6
  | .eraseRequest now i => 5 * dueIn w now (Multimap.erase i w.timeHiearchy) + 5
  | .eraseEntry now i => 5 * dueIn w now (Multimap.erase i w.timeHiearchy) + 4

theorem dueIn_le (w : TimerWheel) (now : Int) (m : List (Int × Nat)) :
    dueIn w now m ≤ m.length :=
  List.countP_le_length.trans (List.length_map _).le

/-- A due entry counts for one. -/
theorem dueIn_erase {now : Int} {i : Nat} {m : List (Int × Nat)}
    (hi : i ∈ Multimap.values m) (hdue : (w.request i).expiry ≤ now) :
    dueIn w now m = dueIn w now (Multimap.erase i m) + 1 := by
  unfold dueIn
  rw [(Multimap.perm_erase hi).countP_eq, List.countP_cons_of_pos (by simpa using hdue)]

/-- An entry that is found under the expiry of its request. -/
theorem find_fresh {i : Nat} {entry : Int × Nat} {m : List (Int × Nat)}
    (hentry : Multimap.find i m = some entry) (hkey : (w.request i).expiry = entry.1) :
    Multimap.find i m = some ((w.request i).expiry, i) := by
  rw [hentry, hkey, ← (Multimap.perm_of_find hentry).1]

/-- The entry in its new place. -/
theorem find_reinserted {i : Nat} {entry : Int × Nat} {m : List (Int × Nat)} (expiry : Int)
    (honce : (Multimap.values m).Nodup) (hentry : Multimap.find i m = some entry) :
    Multimap.find i (Multimap.emplace expiry i (Multimap.erase i m)) = some (expiry, i) := by
  have hperm := Stored.values_reinsert expiry (Stored.find_mem hentry)
  exact Multimap.find_of_mem (hperm.nodup_iff.mpr honce)
    ((Multimap.perm_emplace ..).symm.subset (List.mem_cons_self ..))

theorem work_fresh {now : Int} {i : Nat} {entry : Int × Nat} (hpc : w.pc = .loop now (some i))
    (hentry : Multimap.find i w.timeHiearchy = some entry)
    (hkey : (w.request i).expiry = entry.1) :
    work w = 5 * dueIn w now w.timeHiearchy + 2 := by
  rw [work, hpc]
  exact congrArg _ (if_pos (find_fresh hentry hkey))

theorem work_stale {now : Int} {i : Nat} {entry : Int × Nat} (hpc : w.pc = .loop now (some i))
    (hentry : Multimap.find i w.timeHiearchy = some entry)
    (hkey : (w.request i).expiry ≠ entry.1) :
    work w = 5 * dueIn w now w.timeHiearchy + 3 := by
  rw [work, hpc]
  refine congrArg _ (if_neg fun hfresh => hkey ?_)
  rw [hentry] at hfresh
  cases hfresh
  rfl

theorem work_process {now : Int} {i : Nat} (hpc : w.pc = .process now i) :
    work w = 5 * dueIn w now (Multimap.erase i w.timeHiearchy) + 6 := by
  rw [work, hpc]

theorem work_loop_le {now : Int} {i : Option Nat} (hpc : w.pc = .loop now i) :
    work w ≤ 5 * dueIn w now w.timeHiearchy + 3 := by
  rw [work, hpc]
  cases i with
  | none =>
      show 2 ≤ _
      omega
  | some i =>
      refine Nat.add_le_add_left ?_ _
      split
      · exact Nat.le_succ 2
      · exact Nat.le_refl 3

/-- Every step of `bookkeeper` lowers the bound. -/
theorem BookMove.work_lt (hmove : BookMove w w') (hstored : Stored w) : work w' < work w := by
  cases hmove with
  | atEnd hpc =>
      have hbefore : work w = 2 := by rw [work, hpc]
      rw [hbefore]
      exact Nat.lt_succ_self 1
  | @stale now i entry hpc hentry hkey =>
      let m := Multimap.emplace (w.request i).expiry i (Multimap.erase i w.timeHiearchy)
      -- the same requests are due, and the entry in hand is fresh now
      have hsame : dueIn w now m = dueIn w now w.timeHiearchy :=
        (Stored.values_reinsert _ (Stored.find_mem hentry)).countP_eq _
      have hafter : work { w with timeHiearchy := m } = 5 * dueIn w now m + 2 :=
        work_fresh (w := { w with timeHiearchy := m }) hpc
          (find_reinserted _ hstored.once hentry) rfl
      show work { w with timeHiearchy := m } < work w
      rw [hafter, hsame, work_stale hpc hentry hkey]
      exact Nat.lt_succ_self _
  | @due now i entry hpc hentry hkey hdue hcancelled =>
      have hcount := dueIn_erase (w := w) (Stored.find_mem hentry) (hkey ▸ hdue)
      rw [work_fresh hpc hentry hkey, hcount]
      show 5 * dueIn w now (Multimap.erase i w.timeHiearchy) + 6 < _
      omega
  | @dueCancelled now i entry hpc hentry hkey hdue hcancelled =>
      have hcount := dueIn_erase (w := w) (Stored.find_mem hentry) (hkey ▸ hdue)
      rw [work_fresh hpc hentry hkey, hcount]
      show 5 * dueIn w now (Multimap.erase i w.timeHiearchy) + 5 < _
      omega
  | notDue hpc hentry hkey hdue =>
      rw [work_fresh hpc hentry hkey]
      show 1 < _
      omega
  | processed hpc =>
      rw [work_process hpc]
      exact Nat.lt_succ_self _
  | @eraseRequest now i hpc =>
      have hbefore : work w = 5 * dueIn w now (Multimap.erase i w.timeHiearchy) + 5 := by
        rw [work, hpc]
      rw [hbefore]
      exact Nat.lt_succ_self _
  | @eraseEntry now i hpc =>
      have hbefore : work w = 5 * dueIn w now (Multimap.erase i w.timeHiearchy) + 4 := by
        rw [work, hpc]
      -- whatever comes next, this entry has gone
      rw [hbefore]
      exact Nat.lt_succ_of_le (work_loop_le rfl)
  | finish active hpc hactive =>
      have hbefore : work w = 1 := by rw [work, hpc]
      rw [hbefore]
      exact Nat.zero_lt_one

/-! ## What a callback does to the bound -/

theorem dueIn_mono {now : Int} {m : List (Int × Nat)}
    (h : ∀ r ∈ Multimap.values m, (w'.request r).expiry ≤ now → (w.request r).expiry ≤ now) :
    dueIn w' now m ≤ dueIn w now m :=
  List.countP_mono_left fun r hr => by simpa using h r hr

/-- A call that adds no entry and makes no request due. -/
theorem work_le_of_due {now : Int} {i : Nat} (hpc : w.pc = .process now i)
    (hpc' : w'.pc = w.pc) (htime : w'.timeHiearchy = w.timeHiearchy)
    (hdue : ∀ r, (w'.request r).expiry ≤ now → (w.request r).expiry ≤ now) :
    work w' ≤ work w := by
  rw [work_process hpc, work_process (hpc'.trans hpc), htime]
  have hcount := dueIn_mono (m := Multimap.erase i w.timeHiearchy) fun r _ => hdue r
  omega

theorem cancel_expiry (w : TimerWheel) (id : UInt64) (r : Nat) :
    ((w.cancel id).1.request r).expiry = (w.request r).expiry := by
  cases hfind : w.find id with
  | none => rw [cancel_of_none hfind]
  | some q =>
      rw [cancel_of_find hfind]
      by_cases hr : r = q
      · subst hr
        rw [modify_self]
      · rw [modify_of_ne hr]

/-- A reset puts the expiry behind the `now` of the run. -/
theorem reset_due {now : Int} {id : UInt64} {r : Nat} (hpast : now ≤ w.clock)
    (hpositive : ∀ r, w.find id = some r → 0 < (w.request r).timeout)
    (hdue : ((w.reset id).1.request r).expiry ≤ now) : (w.request r).expiry ≤ now := by
  cases hfind : w.find id with
  | none =>
      rw [reset_of_none hfind] at hdue
      exact hdue
  | some q =>
      rw [reset_of_find hfind] at hdue
      by_cases hr : r = q
      · subst hr
        rw [modify_self] at hdue
        have hlater : now < w.clock + (w.request r).timeout * 1000000 := by
          have hpos := hpositive r hfind
          omega
        exact absurd hdue (not_le.mpr hlater)
      · rwa [modify_of_ne hr] at hdue

/-- A post adds an entry that is not due. -/
theorem dueIn_post {now timeout : Int} {i : Nat} (hstored : Stored w)
    (hi : i ∈ Multimap.values w.timeHiearchy) (hlater : now < w.getAbsoluteExpiry timeout) :
    dueIn (w.post timeout) now (Multimap.erase i (w.post timeout).timeHiearchy) ≤
      dueIn w now (Multimap.erase i w.timeHiearchy) := by
  have hperm := Multimap.values_erase_emplace (k := w.getAbsoluteExpiry timeout)
    (u := w.posts) hi
  -- the new entry does not count, and the others keep their expiry
  rw [post_timeHiearchy, dueIn, hperm.countP_eq, List.countP_cons_of_neg]
  · refine dueIn_mono fun r hr hdue => ?_
    have hold := hstored.old r ((List.eraseP_sublist.map _).subset hr)
    rwa [post_request, Function.update_of_ne (Nat.ne_of_lt hold)] at hdue
  · rw [post_request, Function.update_self]
    simpa using hlater

/-- The calls that are permitted do not raise the bound. -/
theorem work_le {a : Action} (hstep : machine.step w a = some w') (hbusy : w.pc ≠ .idle)
    (hpermitted : Permitted w a) (hrun : a ≠ .run) (hstored : Stored w) (hpast : Past w)
    (hpointed : Pointed w) : work w' ≤ work w := by
  rcases step_busy hbusy hstep with rfl | ⟨d, rfl⟩ | ⟨now, i, hpc⟩
  · exact absurd rfl hrun
  · cases hstep
    exact Nat.le_refl (work w)
  · have hnow : w.pc.now? = some now := by rw [hpc, Pc.now?]
    have hallowed := hpermitted now hnow
    cases step_move hstep with
    | post timeout =>
        have hi := hpointed i (by rw [hpc]; rfl)
        have hcount := dueIn_post hstored hi hallowed
        rw [work_process hpc, work_process ((post_pc w timeout).trans hpc)]
        omega
    | cancel id =>
        rw [record, cancel_eq]
        exact work_le_of_due hpc rfl rfl fun r hdue => cancel_expiry w id r ▸ hdue
    | reset id =>
        rw [record, reset_eq]
        exact work_le_of_due hpc rfl rfl fun r hdue => reset_due (hpast now hnow) hallowed hdue
    | start =>
        rw [start_eq]
        exact work_le_of_due hpc rfl rfl fun r hdue => hdue
    | stop => exact work_le_of_due hpc rfl rfl fun r hdue => hdue
    | wait d => exact work_le_of_due hpc rfl rfl fun r hdue => hdue
    | tick hidle => exact absurd hidle hbusy
    | run hmove => exact absurd rfl hrun

/-- `bookkeeper` runs, and what its callbacks call is permitted. -/
def InRun (w : TimerWheel) (a : Action) : Prop :=
  w.pc ≠ .idle ∧ Permitted w a

/-- One for a step of `bookkeeper`. -/
def stepCost (_ : TimerWheel) (a : Action) : Nat :=
  if a = .run then 1 else 0

/-- What a run relies on. -/
structure Sound (w : TimerWheel) : Prop where
  stored : Stored w
  past : Past w
  pointed : Pointed w

theorem Sound.move {a : Action} (h : Sound w) (hmove : Move w a w') : Sound w' :=
  ⟨h.stored.move hmove, h.past.move hmove, h.pointed.move hmove⟩

theorem Sound.exec {as : List Action} (h : Sound w) (hexec : machine.exec w as = some w') :
    Sound w' :=
  Machine.exec_invariant (fun _ _ _ _ h hstep => h.move (step_move hstep)) h hexec

theorem sound (hreach : machine.Reachable w) : Sound w :=
  ⟨stored hreach, past hreach, pointed hreach⟩

/-- The bound pays for the steps of `bookkeeper`. -/
theorem pays_work : machine.Pays Sound InRun stepCost work where
  keeps _ _ _ hsound _ hstep := hsound.move (step_move hstep)
  pays w a w' hsound hok hstep := by
    by_cases hrun : a = .run
    · subst hrun
      have hlt := (stepBookkeeper_move hstep).work_lt hsound.stored
      show 1 + work w' ≤ work w
      omega
    · rw [stepCost, if_neg hrun, Nat.zero_add]
      exact work_le hstep hok.1 hok.2 hrun hsound.stored hsound.past hsound.pointed

/-! ## How often the loop iterates -/

/-- The loop takes an entry once, and once more when it is stale. -/
def visits (w : TimerWheel) (m : List (Int × Nat)) : Nat :=
  m.length + m.countP fun e => (w.request e.2).expiry ≠ e.1

/-- A bound on the iterations that are left when the callbacks do not touch the wheel. -/
def rounds (w : TimerWheel) : Nat :=
  match w.pc with
  | .loop _ (some _) => visits w w.timeHiearchy
  | .process _ i => visits w (Multimap.erase i w.timeHiearchy)
  | .eraseRequest _ i => visits w (Multimap.erase i w.timeHiearchy)
  | .eraseEntry _ i => visits w (Multimap.erase i w.timeHiearchy)
  | _ => 0

/-- One for the first step of an iteration, which looks at an entry. -/
def iteration (w : TimerWheel) (a : Action) : Nat :=
  match w.pc with
  | .loop _ (some _) => stepCost w a
  | _ => 0

/-- `bookkeeper` runs, or time passes. -/
def Undisturbed (_ : TimerWheel) (a : Action) : Prop :=
  a = .run ∨ ∃ d, a = .wait d

theorem visits_le (w : TimerWheel) (m : List (Int × Nat)) : visits w m ≤ 2 * m.length := by
  have hle : m.countP (fun e => (w.request e.2).expiry ≠ e.1) ≤ m.length := List.countP_le_length
  unfold visits
  omega

theorem visits_cons (e : Int × Nat) (m : List (Int × Nat)) :
    visits w (e :: m) = visits w m + if (w.request e.2).expiry ≠ e.1 then 2 else 1 := by
  unfold visits
  rw [List.length_cons]
  by_cases hstale : (w.request e.2).expiry ≠ e.1
  · rw [List.countP_cons_of_pos (by simpa using hstale), if_pos hstale]
    omega
  · rw [List.countP_cons_of_neg (by simpa using hstale), if_neg hstale]
    omega

theorem visits_perm {m m' : List (Int × Nat)} (h : m.Perm m') : visits w m = visits w m' := by
  unfold visits
  rw [h.length_eq, h.countP_eq]

/-- What the entry in hand counts for. -/
theorem visits_erase {i : Nat} {entry : Int × Nat} {m : List (Int × Nat)}
    (hentry : Multimap.find i m = some entry) :
    visits w m = visits w (Multimap.erase i m) +
      if (w.request i).expiry ≠ entry.1 then 2 else 1 := by
  obtain ⟨hvalue, hperm⟩ := Multimap.perm_of_find hentry
  rw [visits_perm hperm, visits_cons, hvalue]

theorem visits_fresh {i : Nat} {entry : Int × Nat} {m : List (Int × Nat)}
    (hentry : Multimap.find i m = some entry) (hkey : (w.request i).expiry = entry.1) :
    visits w m = visits w (Multimap.erase i m) + 1 := by
  rw [visits_erase hentry, if_neg (not_not.mpr hkey)]

theorem rounds_loop {now : Int} {i : Nat} (hpc : w.pc = .loop now (some i)) :
    rounds w = visits w w.timeHiearchy := by
  rw [rounds, hpc]

theorem rounds_loop_le {now : Int} {i : Option Nat} (hpc : w.pc = .loop now i) :
    rounds w ≤ visits w w.timeHiearchy := by
  cases i with
  | none =>
      rw [rounds, hpc]
      exact Nat.zero_le _
  | some i => exact (rounds_loop hpc).le

theorem iteration_loop {now : Int} {i : Nat} (hpc : w.pc = .loop now (some i)) :
    iteration w .run = 1 := by
  rw [iteration, hpc]
  rfl

theorem iteration_wait (w : TimerWheel) (d : Nat) : iteration w (.wait d) = 0 := by
  unfold iteration
  split <;> rfl

/-- An iteration lowers the bound. -/
theorem BookMove.rounds_le (hmove : BookMove w w') :
    iteration w .run + rounds w' ≤ rounds w := by
  cases hmove with
  | atEnd hpc =>
      rw [iteration, hpc]
      exact Nat.zero_le _
  | @stale now i entry hpc hentry hkey =>
      let m := Multimap.emplace (w.request i).expiry i (Multimap.erase i w.timeHiearchy)
      have hafter : visits w m = visits w (Multimap.erase i w.timeHiearchy) + 1 := by
        rw [visits_perm (Multimap.perm_emplace ..), visits_cons, if_neg (not_not.mpr rfl)]
      have hrounds : rounds { w with timeHiearchy := m } = visits w m := by
        rw [rounds, hpc]
        rfl
      rw [iteration_loop hpc, rounds_loop hpc, visits_erase hentry, if_pos hkey]
      show 1 + rounds { w with timeHiearchy := m } ≤ _
      omega
  | @due now i entry hpc hentry hkey hdue hcancelled =>
      rw [iteration_loop hpc, rounds_loop hpc, visits_fresh hentry hkey, Nat.add_comm]
      exact Nat.le_refl _
  | @dueCancelled now i entry hpc hentry hkey hdue hcancelled =>
      rw [iteration_loop hpc, rounds_loop hpc, visits_fresh hentry hkey, Nat.add_comm]
      exact Nat.le_refl _
  | @notDue now i entry hpc hentry hkey hdue =>
      rw [iteration_loop hpc, rounds_loop hpc, visits_fresh hentry hkey, Nat.add_comm]
      exact Nat.succ_le_succ (Nat.zero_le _)
  | processed hpc =>
      rw [iteration, rounds, rounds, hpc]
      exact Nat.le_of_eq (Nat.zero_add _)
  | eraseRequest hpc =>
      rw [iteration, rounds, rounds, hpc]
      exact Nat.le_of_eq (Nat.zero_add _)
  | @eraseEntry now i hpc =>
      have hbefore : rounds w = visits w (Multimap.erase i w.timeHiearchy) := by
        rw [rounds, hpc]
      rw [iteration, hpc, Nat.zero_add, hbefore]
      exact rounds_loop_le rfl
  | finish active hpc hactive =>
      rw [iteration, hpc]
      exact Nat.zero_le _

theorem pays_rounds : machine.Pays (fun _ => True) Undisturbed iteration rounds where
  keeps _ _ _ _ _ _ := trivial
  pays w a w' _ hok hstep := by
    rcases hok with rfl | ⟨d, rfl⟩
    · exact (stepBookkeeper_move hstep).rounds_le
    · cases hstep
      rw [iteration_wait, Nat.zero_add]
      exact Nat.le_refl (rounds w)

/-! ## A callback starts once -/

/-- The request whose turn it is. -/
def Pc.inHand : Pc → Option Nat
  | .process _ i => some i
  | .eraseRequest _ i => some i
  | .eraseEntry _ i => some i
  | _ => none

/-- Since `before` each callback has started at most once, and a request whose callback has
started is out of the multimap when its turn is over. -/
def OnceSince (before : List Mark) (w : TimerWheel) : Prop :=
  ∃ marks, w.trace = marks ++ before ∧ (marks.filterMap Mark.started?).Nodup ∧
    ∀ r ∈ marks.filterMap Mark.started?,
      r < w.posts ∧ (r ∈ Multimap.values w.timeHiearchy → w.pc.inHand = some r)

/-- No call of the user is the start of a callback. -/
theorem started?_elim {thrown : Option String} {returned : Mark}
    (hreturned : returned.started? = none) :
    (thrown.elim returned Mark.threw).started? = none := by
  cases thrown with
  | none => exact hreturned
  | some what => rfl

namespace OnceSince

variable {before : List Mark}

/-- No callback starts, and the turn of a request ends when its entry is erased. -/
theorem frame (h : OnceSince before w) (new : List Mark)
    (hnew : new.filterMap Mark.started? = []) (htrace : w'.trace = new ++ w.trace)
    (hposts : w.posts ≤ w'.posts)
    (hturn : ∀ r < w.posts, r ∈ Multimap.values w'.timeHiearchy →
      r ∈ Multimap.values w.timeHiearchy ∧ (w.pc.inHand = some r → w'.pc.inHand = some r)) :
    OnceSince before w' := by
  obtain ⟨marks, hmarks, honce, hout⟩ := h
  have hsame : (new ++ marks).filterMap Mark.started? = marks.filterMap Mark.started? := by
    rw [List.filterMap_append, hnew, List.nil_append]
  refine ⟨new ++ marks, by rw [htrace, hmarks, List.append_assoc], ?_⟩
  rw [hsame]
  refine ⟨honce, fun r hr => ?_⟩
  obtain ⟨hold, hhand⟩ := hout r hr
  refine ⟨hold.trans_le hposts, fun hmem => ?_⟩
  obtain ⟨hbefore, hkeeps⟩ := hturn r hold hmem
  exact hkeeps (hhand hbefore)

/-- No turn begins or ends, and nothing is recorded. -/
theorem skip (h : OnceSince before w) (htrace : w'.trace = w.trace)
    (hposts : w'.posts = w.posts) (htime : w'.timeHiearchy = w.timeHiearchy)
    (hturn : ∀ r, w.pc.inHand = some r → w'.pc.inHand = some r) : OnceSince before w' :=
  h.frame [] rfl htrace hposts.ge fun r _ hmem => ⟨htime ▸ hmem, hturn r⟩

theorem bookkeeper (h : OnceSince before w) (hstored : Stored w) (hmove : BookMove w w') :
    OnceSince before w' := by
  cases hmove with
  | atEnd hpc => exact h.skip rfl rfl rfl fun r hr => by rw [hpc] at hr; cases hr
  | @stale now i entry hpc hentry hkey =>
      have hperm := Stored.values_reinsert (w.request i).expiry (Stored.find_mem hentry)
      exact h.frame [] rfl rfl (Nat.le_refl _) fun r _ hmem =>
        ⟨hperm.subset hmem, fun hhand => hhand⟩
  | @due now i entry hpc hentry hkey hdue hcancelled =>
      obtain ⟨marks, hmarks, honce, hout⟩ := h
      have hi := Stored.find_mem hentry
      -- the entry is still there, so its callback has not started before
      have hnew : ∀ r ∈ marks.filterMap Mark.started?,
          r ∉ Multimap.values w.timeHiearchy := by
        intro r hr hmem
        have hhand := (hout r hr).2 hmem
        rw [hpc] at hhand
        cases hhand
      refine ⟨.started i (w.request i).id :: marks, congrArg _ hmarks, ?_, fun r hr => ?_⟩
      · exact List.nodup_cons.mpr ⟨fun hmem => hnew i hmem hi, honce⟩
      · rcases List.mem_cons.mp hr with rfl | hr
        · exact ⟨hstored.old r hi, fun _ => rfl⟩
        · exact ⟨(hout r hr).1, fun hmem => absurd hmem (hnew r hr)⟩
  | dueCancelled hpc hentry hkey hdue hcancelled =>
      exact h.skip rfl rfl rfl fun r hr => by rw [hpc] at hr; cases hr
  | notDue hpc hentry hkey hdue =>
      exact h.skip rfl rfl rfl fun r hr => by rw [hpc] at hr; cases hr
  | processed hpc => exact h.skip rfl rfl rfl fun r hr => by rw [hpc] at hr; exact hr
  | eraseRequest hpc =>
      exact h.frame [_] rfl rfl (Nat.le_refl _) fun r _ hmem =>
        ⟨hmem, fun hhand => by rw [hpc] at hhand; exact hhand⟩
  | @eraseEntry now i hpc =>
      have hsub : (Multimap.erase i w.timeHiearchy).Sublist w.timeHiearchy :=
        List.eraseP_sublist
      refine h.frame [] rfl rfl (Nat.le_refl _) fun r _ hmem => ?_
      have hmem : r ∈ Multimap.values (Multimap.erase i w.timeHiearchy) := hmem
      have hbefore := (hsub.map _).subset hmem
      refine ⟨hbefore, fun hhand => ?_⟩
      rw [hpc] at hhand
      cases hhand
      have honce := (Multimap.perm_erase hbefore).nodup_iff.mp hstored.once
      exact absurd hmem (List.nodup_cons.mp honce).1
  | finish active hpc hactive =>
      exact h.skip rfl rfl rfl fun r hr => by rw [hpc] at hr; cases hr

/-- A call that only records how it ended. -/
theorem called (h : OnceSince before w) {m : Mark} (hm : m.started? = none)
    (htrace : w'.trace = m :: w.trace) (hposts : w'.posts = w.posts)
    (htime : w'.timeHiearchy = w.timeHiearchy) (hpc : w'.pc = w.pc) : OnceSince before w' :=
  h.frame [m] (List.filterMap_cons_none hm) htrace hposts.ge fun _ _ hmem =>
    ⟨htime ▸ hmem, fun hhand => hpc ▸ hhand⟩

theorem move {a : Action} (h : OnceSince before w) (hstored : Stored w)
    (hmove : Move w a w') : OnceSince before w' := by
  cases hmove with
  | post timeout =>
      refine h.frame [.post w.posts w.requestId] rfl (post_trace w timeout) ?_ fun r hr hmem => ?_
      · rw [post_posts]
        exact Nat.le_succ _
      · rw [post_timeHiearchy] at hmem
        rw [post_pc]
        rcases List.mem_cons.mp ((Multimap.values_emplace ..).subset hmem) with rfl | hmem
        · exact absurd hr (Nat.lt_irrefl _)
        · exact ⟨hmem, fun hhand => hhand⟩
  | cancel id =>
      rw [record, cancel_eq]
      exact h.called (started?_elim rfl) rfl rfl rfl rfl
  | reset id =>
      rw [record, reset_eq]
      exact h.called (started?_elim rfl) rfl rfl rfl rfl
  | start =>
      rw [start_eq]
      exact h.skip rfl rfl rfl fun r hr => hr
  | tick hpc => exact h.skip rfl rfl rfl fun r hr => by rw [hpc] at hr; cases hr
  | run hmove => exact h.bookkeeper hstored hmove
  | _ => exact h.skip rfl rfl rfl fun r hr => hr

end OnceSince

/-! ## A stale entry is visited again -/

/-- The loop is about to look at the entry of a request. -/
structure LooksAt (w : TimerWheel) (now : Int) (i : Nat) (key : Int) : Prop where
  pc : w.pc = .loop now (some i)
  entry : Multimap.find i w.timeHiearchy = some (key, i)

/-- The loop still looks at a request that it has put in its new place, and finds its entry
under the expiry. -/
theorem LooksAt.reinserted {now key : Int} {i : Nat} (h : LooksAt w now i key)
    (hstored : Stored w) (hkey : key ≠ (w.request i).expiry)
    (hstep : machine.step w .run = some w') : LooksAt w' now i (w'.request i).expiry := by
  let m := Multimap.emplace (w.request i).expiry i (Multimap.erase i w.timeHiearchy)
  have hstale : machine.step w .run = some { w with timeHiearchy := m } := by
    simp [machine, step, stepBookkeeper, h.pc, h.entry, hkey.symm, m]
  obtain rfl := Option.some.inj (hstale.symm.trans hstep)
  exact ⟨h.pc, find_reinserted _ hstored.once h.entry⟩

/-- Only time passes until the loop goes on. -/
theorem LooksAt.wait {now : Int} {i : Nat} {a : Action}
    (h : LooksAt w now i (w.request i).expiry) (hrun : a ≠ .run)
    (hstep : machine.step w a = some w') : LooksAt w' now i (w'.request i).expiry := by
  have hbusy : w.pc ≠ .idle := by
    rw [h.pc]
    exact Pc.noConfusion
  rcases step_busy hbusy hstep with rfl | ⟨d, rfl⟩ | ⟨now', j, hpc⟩
  · exact absurd rfl hrun
  · cases hstep
    exact ⟨h.pc, h.entry⟩
  · cases h.pc.symm.trans hpc

/-! ## A tick comes to its end -/

/-- What holds of every run of `bookkeeper` that begins now, whatever its callbacks call. -/
structure TickEnds (w : TimerWheel) : Prop where
  /-- A run comes to its end when its callbacks return and what they call is permitted. -/
  ends : ∀ (run : Nat → TimerWheel) (act : Nat → Action), run 0 = w.beginBookkeeper →
    (∀ n, machine.step (run n) (act n) = some (run (n + 1))) →
    (∀ n, (run n).pc ≠ .idle → Permitted (run n) (act n)) →
    (∀ n, (run n).pc ≠ .idle → ∃ m, n ≤ m ∧ act m = .run) →
    ∃ n, (run n).pc = .idle
  /-- It makes at most so many steps. -/
  bounded : ∀ as w', machine.exec w.beginBookkeeper as = some w' →
    machine.Meets InRun w.beginBookkeeper as →
    machine.spent stepCost w.beginBookkeeper as ≤ 5 * w.timeHiearchy.length + 3
  /-- It can always go on. -/
  goesOn : ∀ as w', machine.exec w.beginBookkeeper as = some w' → w'.pc ≠ .idle →
    ∃ w'', machine.step w' .run = some w''
  /-- No callback is started twice. -/
  once : ∀ as w', machine.exec w.beginBookkeeper as = some w' →
    ∃ marks, w'.trace = marks ++ w.trace ∧ (marks.filterMap Mark.started?).Nodup
  /-- A stale entry is put in its new place, and is the next entry that the loop looks at. -/
  revisited : ∀ as w₁, machine.exec w.beginBookkeeper as = some w₁ →
    ∀ now i key, LooksAt w₁ now i key → key ≠ (w₁.request i).expiry →
      ∀ w₂, machine.step w₁ .run = some w₂ →
        ∀ bs w₃, machine.exec w₂ bs = some w₃ → .run ∉ bs →
          LooksAt w₃ now i (w₃.request i).expiry
  /-- Callbacks that do not touch the wheel leave it at two iterations for each entry. -/
  iterations : ∀ as w', machine.exec w.beginBookkeeper as = some w' →
    machine.Meets Undisturbed w.beginBookkeeper as →
    machine.spent iteration w.beginBookkeeper as ≤ 2 * w.timeHiearchy.length

theorem ends_of_sound (hsound : Sound w) {run : Nat → TimerWheel} {act : Nat → Action}
    (hstart : run 0 = w) (hstep : ∀ n, machine.step (run n) (act n) = some (run (n + 1)))
    (hpermitted : ∀ n, (run n).pc ≠ .idle → Permitted (run n) (act n))
    (hreturn : ∀ n, (run n).pc ≠ .idle → ∃ m, n ≤ m ∧ act m = .run) :
    ∃ n, (run n).pc = .idle := by
  by_contra hnever
  have hbusy : ∀ n, (run n).pc ≠ .idle := fun n hidle => hnever ⟨n, hidle⟩
  obtain ⟨n, hfree⟩ := pays_work.exists_free (hstart ▸ hsound)
    (fun n => ⟨hbusy n, hpermitted n (hbusy n)⟩) hstep
  -- but `bookkeeper` goes on, and its steps have a cost
  obtain ⟨m, hm, hrun⟩ := hreturn n (hbusy n)
  have hcost := hfree m hm
  rw [stepCost, if_pos hrun] at hcost
  cases hcost

theorem tick_ends (hreach : machine.Reachable w) (hidle : w.pc = .idle) : TickEnds w := by
  have hsound := (sound hreach).move (.tick hidle)
  refine {
    ends := fun run act hstart hstep => ends_of_sound hsound hstart hstep
    bounded := fun as w' hexec hmeets => ?_
    goesOn := fun as w' hexec hbusy => exists_step (hsound.exec hexec).pointed hbusy
    once := fun as w' hexec => ?_
    revisited := fun as w₁ hexec now i key hlooks hkey w₂ hstep bs w₃ hrest hrun => ?_
    iterations := fun as w' hexec hmeets => ?_ }
  · have hpaid := pays_work.spent_add_le hsound hmeets hexec
    have hwork := work_loop_le (w := w.beginBookkeeper) rfl
    have hdue := dueIn_le w.beginBookkeeper w.clock w.timeHiearchy
    show _ ≤ 5 * w.timeHiearchy.length + 3
    have hsame : w.beginBookkeeper.timeHiearchy = w.timeHiearchy := rfl
    rw [hsame] at hwork
    omega
  · have honce : OnceSince w.trace w.beginBookkeeper :=
      ⟨[], rfl, List.nodup_nil, fun r hr => nomatch hr⟩
    obtain ⟨-, marks, htrace, hnodup, -⟩ := Machine.exec_invariant
      (I := fun w' => Sound w' ∧ OnceSince w.trace w')
      (fun v a _ v' h hstep => ⟨h.1.move (step_move hstep),
        h.2.move h.1.stored (step_move hstep)⟩) ⟨hsound, honce⟩ hexec
    exact ⟨marks, htrace, hnodup⟩
  · have hagain := hlooks.reinserted (hsound.exec hexec).stored hkey hstep
    refine Machine.exec_invariant (I := fun w' => LooksAt w' now i (w'.request i).expiry)
      (fun v a ha v' h hstep => h.wait ?_ hstep) hagain hrest
    rintro rfl
    exact hrun ha
  · have hpaid := pays_rounds.spent_add_le trivial hmeets hexec
    have hrounds : rounds w.beginBookkeeper ≤ visits w w.timeHiearchy := rounds_loop_le rfl
    have hvisits := visits_le w w.timeHiearchy
    omega

/-- Two requests are due, and the entry of the first one is stale. -/
theorem tick_ends_stale : ∃ w, machine.Reachable w ∧ w.pc = .idle ∧ Due w 0 ∧ Due w 1 ∧
    (∃ e ∈ w.timeHiearchy, (w.request e.2).expiry ≠ e.1) ∧ TickEnds w := by
  obtain ⟨w, hrun, hidle, hzero, hone, hstale⟩ : ∃ w,
      machine.exec (create 0)
        [.post 2000000, .post 1000000, .wait 1500000, .reset 0, .wait 2000000] = some w ∧
        w.pc = .idle ∧ (w.request 0).expiry ≤ w.clock ∧ (w.request 1).expiry ≤ w.clock ∧
        ∃ e ∈ w.timeHiearchy, (w.request e.2).expiry ≠ e.1 :=
    ⟨_, rfl, rfl, by decide, by decide, by decide⟩
  have hreach : machine.Reachable w := .of_exec ⟨0, _, rfl⟩ hrun
  exact ⟨w, hreach, hidle, hzero, hone, hstale, tick_ends hreach hidle⟩

end TimerWheel
end Event
end Cyan

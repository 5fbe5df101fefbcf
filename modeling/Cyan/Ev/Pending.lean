import Mathlib.Data.UInt
import Mathlib.Data.List.Basic
import Mathlib.Logic.Function.Basic

/-!
# The pending queues of libev

Every priority has an array of pending events, and a pending watcher knows its
position in it (`pending`, one more than the index).  This module embeds
`ev_feed_event`, `ev_clear_pending` and the inner loop of `ev_invoke_pending`.

* `Sound` is what `verify_watcher` asserts of pending watchers, together with its
  converse.
* `agenda` is what a queue is for: the pending watchers of a priority with their
  events, the next one last.  `post`, `cancel` and the end of the list are what
  the three functions do to it (`agenda_feedEvent`, `agenda_clearPending`,
  `agenda_takePending`).
-/

namespace Cyan
namespace Ev

/-- `EV_MINPRI` -/
def evMinpri : Int := -2

/-- `EV_MAXPRI` -/
def evMaxpri : Int := 2

/-- `NUMPRI` -/
def numpri : Nat := (evMaxpri - evMinpri + 1).toNat

/-- `ANPENDING` -/
structure AnPending (W : Type*) where
  /-- the watcher, and `none` for `pending_w` -/
  w : Option W
  events : UInt32
  deriving DecidableEq, Repr

/-- `pendings`, `pendingpri`, and the members `pending` and `priority` of all
watchers. -/
structure Queue (W : Type*) where
  pending : W → Nat
  priority : W → Int
  pendings : Nat → List (AnPending W)
  pendingpri : Nat

variable {W : Type*} [DecidableEq W]

namespace Queue

/-- `ABSPRI` -/
def abspri (q : Queue W) (w : W) : Nat :=
  (q.priority w - evMinpri).toNat

/-- Let `pendings [pri]` be `l`. -/
def setPendings (q : Queue W) (pri : Nat) (l : List (AnPending W)) : Queue W :=
  { q with pendings := Function.update q.pendings pri l }

/-- `ev_feed_event` -/
def feedEvent (q : Queue W) (w : W) (revents : UInt32) : Queue W :=
  let pri := q.abspri w
  let q :=
    if q.pending w ≠ 0 then
      q.setPendings pri <| (q.pendings pri).modify (q.pending w - 1)
        fun p => { p with events := p.events ||| revents }
    else
      { q.setPendings pri (q.pendings pri ++ [⟨some w, revents⟩]) with
        pending := Function.update q.pending w ((q.pendings pri).length + 1) }
  { q with pendingpri := numpri - 1 }

/-- `clear_pending` -/
def clearPending (q : Queue W) (w : W) : Queue W :=
  let pri := q.abspri w
  if q.pending w ≠ 0 then
    { q.setPendings pri <| (q.pendings pri).modify (q.pending w - 1)
        fun p => { p with w := none } with
      pending := Function.update q.pending w 0 }
  else q

/-- The inner loop of `ev_invoke_pending` takes the last entry of `pendings [pri]`. -/
def takePending (q : Queue W) (pri : Nat) : Option (AnPending W × Queue W) :=
  (q.pendings pri).getLast?.map fun p =>
    let q := q.setPendings pri (q.pendings pri).dropLast
    (p, p.w.elim q fun w => { q with pending := Function.update q.pending w 0 })

/-- `ev_set_priority` -/
def setPriority (q : Queue W) (w : W) (pri : Int) : Queue W :=
  { q with priority := Function.update q.priority w pri }

/-- `pri_adjust` -/
def priAdjust (q : Queue W) (w : W) : Queue W :=
  let pri := q.priority w
  let pri := if pri < evMinpri then evMinpri else pri
  let pri := if pri > evMaxpri then evMaxpri else pri
  q.setPriority w pri

/-- "watcher has invalid priority" -/
def InRange (q : Queue W) (w : W) : Prop :=
  evMinpri ≤ q.priority w ∧ q.priority w ≤ evMaxpri

/-- `pendings [pri][i].w` -/
def holder (q : Queue W) (pri i : Nat) : Option W :=
  (q.pendings pri)[i]?.bind AnPending.w

/-- The events of a pending watcher, which `ev_clear_pending` returns. -/
def pendingEvents (q : Queue W) (w : W) : UInt32 :=
  if q.pending w ≠ 0 then (q.pendings (q.abspri w))[q.pending w - 1]?.elim 0 AnPending.events
  else 0

/-- Pending watchers and queues know each other. -/
structure Sound (q : Queue W) : Prop where
  /-- "pending watcher not on pending queue" -/
  own : ∀ w, q.pending w ≠ 0 → q.holder (q.abspri w) (q.pending w - 1) = some w
  known : ∀ {pri i w}, q.holder pri i = some w → pri = q.abspri w ∧ q.pending w = i + 1

end Queue

/-! ## Agendas -/

/-- The watchers of a queue with their events. -/
def view (l : List (AnPending W)) : List (W × UInt32) :=
  l.filterMap fun p => p.w.map fun w => (w, p.events)

/-- One more event for `w`, who comes next when it has not been on the agenda. -/
def post (a : List (W × UInt32)) (w : W) (revents : UInt32) : List (W × UInt32) :=
  if w ∈ a.map Prod.fst then
    a.map fun e => if e.1 = w then (e.1, e.2 ||| revents) else e
  else a ++ [(w, revents)]

/-- `w` is taken off the agenda. -/
def cancel (a : List (W × UInt32)) (w : W) : List (W × UInt32) :=
  a.filter fun e => e.1 ≠ w

/-- Events that are added take no event away. -/
theorem or_and_self (events revents : UInt32) : (events ||| revents) &&& events = events := by
  rw [← UInt32.toNat_inj, UInt32.toNat_and, UInt32.toNat_or]
  refine Nat.eq_of_testBit_eq fun i => ?_
  rw [Nat.testBit_and, Nat.testBit_or]
  cases events.toNat.testBit i <;> simp

/-- What has been posted is old, or has the new events. -/
theorem mem_post {a : List (W × UInt32)} {w : W} {revents : UInt32} {e : W × UInt32}
    (h : e ∈ post a w revents) :
    e ∈ a ∨ e = (w, revents) ∨ ∃ old, (w, old) ∈ a ∧ e = (w, old ||| revents) := by
  unfold post at h
  split at h
  · obtain ⟨⟨v, old⟩, hold, rfl⟩ := List.mem_map.mp h
    by_cases hv : v = w
    · subst hv
      exact .inr (.inr ⟨old, hold, by simp⟩)
    · rw [if_neg hv]
      exact .inl hold
  · rcases List.mem_append.mp h with hold | hnew
    · exact .inl hold
    · exact .inr (.inl (List.mem_singleton.mp hnew))

theorem mem_cancel {a : List (W × UInt32)} {w : W} {e : W × UInt32} :
    e ∈ cancel a w ↔ e ∈ a ∧ e.1 ≠ w := by
  simp [cancel]

section

omit [DecidableEq W]

@[simp] theorem view_nil : view ([] : List (AnPending W)) = [] := rfl

@[simp] theorem view_append (l₁ l₂ : List (AnPending W)) :
    view (l₁ ++ l₂) = view l₁ ++ view l₂ :=
  List.filterMap_append ..

@[simp] theorem view_some (w : W) (events : UInt32) (l : List (AnPending W)) :
    view (⟨some w, events⟩ :: l) = (w, events) :: view l := rfl

@[simp] theorem view_none (events : UInt32) (l : List (AnPending W)) :
    view (⟨none, events⟩ :: l) = view l := rfl

theorem mem_view {l : List (AnPending W)} {w : W} {events : UInt32} :
    (w, events) ∈ view l ↔ ⟨some w, events⟩ ∈ l := by
  simp only [view, List.mem_filterMap, Option.map_eq_some_iff, Prod.mk.injEq]
  constructor
  · rintro ⟨⟨_, _⟩, hmem, _, rfl, rfl, rfl⟩
    exact hmem
  · intro hmem
    exact ⟨_, hmem, w, rfl, rfl, rfl⟩

end

namespace Queue

variable {q : Queue W} {w v : W} {revents : UInt32} {pri : Nat}

/-- The agenda of a priority, the next watcher last. -/
def agenda (q : Queue W) (pri : Nat) : List (W × UInt32) :=
  view (q.pendings pri)

section

omit [DecidableEq W]

/-- What is on an agenda is held by the queue. -/
theorem mem_agenda {events : UInt32} (h : (w, events) ∈ q.agenda pri) :
    ∃ i, (q.pendings pri)[i]? = some ⟨some w, events⟩ ∧ q.holder pri i = some w := by
  obtain ⟨i, hi⟩ := List.mem_iff_getElem?.mp (mem_view.mp h)
  exact ⟨i, hi, by rw [holder, hi]; rfl⟩

/-- The entry of a pending watcher. -/
theorem Sound.entry (h : q.Sound) (hw : q.pending w ≠ 0) :
    ∃ events, (q.pendings (q.abspri w))[q.pending w - 1]? = some ⟨some w, events⟩ := by
  obtain ⟨⟨_, events⟩, hp, rfl⟩ := Option.bind_eq_some_iff.mp (h.own w hw)
  exact ⟨events, hp⟩

/-- The place of a pending watcher in its queue. -/
theorem Sound.split (h : q.Sound) (hw : q.pending w ≠ 0) :
    ∃ l₁ events l₂, q.pendings (q.abspri w) = l₁ ++ ⟨some w, events⟩ :: l₂ ∧
      l₁.length = q.pending w - 1 ∧ ∀ p ∈ l₁ ++ l₂, p.w ≠ some w := by
  obtain ⟨events, hat⟩ := h.entry hw
  obtain ⟨hlt, hget⟩ := List.getElem?_eq_some_iff.mp hat
  have hsplit : q.pendings (q.abspri w) = (q.pendings (q.abspri w)).take (q.pending w - 1) ++
      ⟨some w, events⟩ :: (q.pendings (q.abspri w)).drop (q.pending w) := by
    have hdrop := List.drop_eq_getElem_cons hlt
    rw [hget, Nat.sub_add_cancel (Nat.one_le_iff_ne_zero.mpr hw)] at hdrop
    rw [← hdrop, List.take_append_drop]
  have hindex : ∀ {i p}, (q.pendings (q.abspri w))[i]? = some p → p.w = some w →
      q.pending w = i + 1 := fun hi hpw =>
    (h.known (Option.bind_eq_some_iff.mpr ⟨_, hi, hpw⟩)).2
  refine ⟨_, events, _, hsplit, List.length_take_of_le (Nat.le_of_lt hlt), fun p hp hpw => ?_⟩
  rcases List.mem_append.mp hp with hp | hp
  · obtain ⟨i, hi⟩ := List.mem_iff_getElem?.mp hp
    rw [List.getElem?_take] at hi
    split at hi
    · have hknown := hindex hi hpw
      omega
    · cases hi
  · obtain ⟨i, hi⟩ := List.mem_iff_getElem?.mp hp
    rw [List.getElem?_drop] at hi
    have hknown := hindex hi hpw
    omega

/-- A watcher is on the agenda of its priority while it is pending. -/
theorem Sound.pending_iff (h : q.Sound) :
    q.pending w ≠ 0 ↔ w ∈ (q.agenda (q.abspri w)).map Prod.fst := by
  rw [List.mem_map]
  constructor
  · intro hw
    obtain ⟨events, hat⟩ := h.entry hw
    exact ⟨(w, events), mem_view.mpr (List.mem_of_getElem? hat), rfl⟩
  · rintro ⟨⟨_, events⟩, hmem, rfl⟩
    obtain ⟨i, -, hi⟩ := mem_agenda hmem
    rw [(h.known hi).2]
    exact Nat.succ_ne_zero i

theorem Sound.pendings_ne_nil (h : q.Sound) (hw : q.pending w ≠ 0) :
    q.pendings (q.abspri w) ≠ [] := by
  obtain ⟨l₁, events, l₂, hsplit, -⟩ := h.split hw
  rw [hsplit]
  exact List.append_ne_nil_of_right_ne_nil l₁ (List.cons_ne_nil _ _)

/-- It is on no other agenda. -/
theorem Sound.abspri_of_mem (h : q.Sound) {events : UInt32} (hmem : (w, events) ∈ q.agenda pri) :
    pri = q.abspri w := by
  obtain ⟨i, -, hi⟩ := mem_agenda hmem
  exact (h.known hi).1

theorem Sound.pending_of_mem (h : q.Sound) (hmem : w ∈ (q.agenda pri).map Prod.fst) :
    q.pending w ≠ 0 := by
  obtain ⟨⟨_, events⟩, he, rfl⟩ := List.mem_map.mp hmem
  rw [h.pending_iff, ← h.abspri_of_mem he]
  exact hmem

end

/-! ## The invariant -/

section

omit [DecidableEq W]

/-- Only what the queues hold matters. -/
theorem Sound.congr {q' : Queue W} (h : q.Sound) (hpending : q'.pending = q.pending)
    (hpriority : q'.priority = q.priority) (hholder : ∀ pri i, q'.holder pri i = q.holder pri i) :
    q'.Sound where
  own w hw := by
    rw [hpending] at hw ⊢
    rw [hholder, abspri, hpriority]
    exact h.own w hw
  known hi := by
    rw [hholder] at hi
    rw [hpending, abspri, hpriority]
    exact h.known hi

theorem holder_setPendings (l : List (AnPending W)) (pri' i : Nat) :
    (q.setPendings pri l).holder pri' i =
      if pri' = pri then l[i]?.bind AnPending.w else q.holder pri' i := by
  unfold holder setPendings
  by_cases hpri : pri' = pri
  · subst hpri
    simp
  · simp [hpri]

end

/-- The entry of `w` goes. -/
theorem Sound.drop {q' : Queue W} (h : q.Sound) (hpriority : q'.priority = q.priority)
    (hpending : q'.pending = Function.update q.pending w 0)
    (hholder : ∀ pri i v, q'.holder pri i = some v ↔ q.holder pri i = some v ∧ v ≠ w) :
    q'.Sound where
  own v hv := by
    have hne : v ≠ w := by
      rintro rfl
      rw [hpending, Function.update_self] at hv
      exact hv rfl
    rw [hpending, Function.update_of_ne hne] at hv ⊢
    rw [hholder, abspri, hpriority]
    exact ⟨h.own v hv, hne⟩
  known {pri i v} hi := by
    obtain ⟨hold, hne⟩ := (hholder pri i v).mp hi
    rw [hpending, Function.update_of_ne hne, abspri, hpriority]
    exact h.known hold

/-- An entry for `w` comes behind the others. -/
theorem Sound.add {q' : Queue W} {n : Nat} (h : q.Sound) (hw : q.pending w = 0)
    (hfree : q.holder (q.abspri w) n = none) (hpriority : q'.priority = q.priority)
    (hpending : q'.pending = Function.update q.pending w (n + 1))
    (hholder : ∀ pri i v, q'.holder pri i = some v ↔
      q.holder pri i = some v ∨ (pri = q.abspri w ∧ i = n ∧ v = w)) : q'.Sound where
  own v hv := by
    rw [hholder, abspri, hpriority]
    by_cases hne : v = w
    · subst hne
      rw [hpending, Function.update_self]
      exact .inr ⟨rfl, rfl, rfl⟩
    · rw [hpending, Function.update_of_ne hne] at hv ⊢
      exact .inl (h.own v hv)
  known {pri i v} hi := by
    rw [hpending, abspri, hpriority]
    rcases (hholder pri i v).mp hi with hold | ⟨rfl, rfl, rfl⟩
    · have hne : v ≠ w := by
        rintro rfl
        have hindex := (h.known hold).2
        omega
      rw [Function.update_of_ne hne]
      exact h.known hold
    · rw [Function.update_self]
      exact ⟨rfl, rfl⟩

omit [DecidableEq W] in
/-- The entry of a pending watcher is changed. -/
theorem holder_modify (f : AnPending W → AnPending W) (w : W) (pri i : Nat) :
    (q.setPendings (q.abspri w) ((q.pendings (q.abspri w)).modify (q.pending w - 1) f)).holder
      pri i = if pri = q.abspri w ∧ i = q.pending w - 1 then
        (q.pendings pri)[i]?.bind fun p => (f p).w else q.holder pri i := by
  rw [holder_setPendings]
  by_cases hpri : pri = q.abspri w
  · subst hpri
    rw [if_pos rfl, List.getElem?_modify, holder]
    by_cases hi : i = q.pending w - 1
    · subst hi
      cases (q.pendings (q.abspri w))[q.pending w - 1]? <;> simp
    · cases (q.pendings (q.abspri w))[i]? <;> simp [hi, Ne.symm hi]
  · rw [if_neg hpri, if_neg fun h => hpri h.1]

theorem Sound.feedEvent (h : q.Sound) (w : W) (revents : UInt32) :
    (q.feedEvent w revents).Sound := by
  unfold Queue.feedEvent
  by_cases hw : q.pending w = 0
  · simp only [ne_eq, hw, not_true_eq_false, if_false]
    have hfree : q.holder (q.abspri w) (q.pendings (q.abspri w)).length = none := by
      rw [holder, List.getElem?_eq_none le_rfl]
      rfl
    refine h.add hw hfree rfl rfl fun pri i v => ?_
    change (q.setPendings _ _).holder pri i = some v ↔ _
    rw [holder_setPendings]
    by_cases hpri : pri = q.abspri w
    · subst hpri
      rw [if_pos rfl, List.getElem?_append, holder]
      split
      · rename_i hlt
        have hne : i ≠ (q.pendings (q.abspri w)).length := Nat.ne_of_lt hlt
        simp [hne]
      · rename_i hge
        rw [List.getElem?_eq_none (Nat.not_lt.mp hge)]
        by_cases hi : i = (q.pendings (q.abspri w)).length
        · simp [hi, eq_comm]
        · rw [List.getElem?_eq_none (by rw [List.length_singleton]; omega)]
          simp [hi]
    · simp [hpri]
  · simp only [ne_eq, hw, not_false_eq_true, if_true]
    refine h.congr rfl rfl fun pri i => ?_
    refine (holder_modify _ w pri i).trans ?_
    split
    · rfl
    · rfl

theorem Sound.clearPending (h : q.Sound) (w : W) : (q.clearPending w).Sound := by
  unfold Queue.clearPending
  by_cases hw : q.pending w = 0
  · simpa [hw] using h
  · simp only [ne_eq, hw, not_false_eq_true, if_true]
    refine h.drop rfl rfl fun pri i v => ?_
    change (q.setPendings _ _).holder pri i = some v ↔ _
    rw [holder_modify]
    split
    · rename_i hplace
      rw [hplace.1, hplace.2, h.own w hw]
      constructor
      · intro hnone
        cases hat : (q.pendings (q.abspri w))[q.pending w - 1]? <;> simp [hat] at hnone
      · rintro ⟨hsome, hne⟩
        exact absurd (Option.some.inj hsome).symm hne
    · rename_i hplace
      refine ⟨fun hi => ⟨hi, ?_⟩, And.left⟩
      rintro rfl
      obtain ⟨hpri, hindex⟩ := h.known hi
      exact hplace ⟨hpri, by omega⟩

/-- What is taken is the last entry. -/
theorem takePending_eq {q' : Queue W} {p : AnPending W} (h : q.takePending pri = some (p, q')) :
    ∃ l, q.pendings pri = l ++ [p] ∧ q' = p.w.elim (q.setPendings pri l) fun w =>
      { q.setPendings pri l with pending := Function.update q.pending w 0 } := by
  obtain ⟨_, hlast, heq⟩ := Option.map_eq_some_iff.mp h
  obtain ⟨rfl, rfl⟩ := Prod.mk.inj heq
  obtain ⟨l, hl⟩ := List.getLast?_eq_some_iff.mp hlast
  refine ⟨l, hl, ?_⟩
  rw [hl, List.dropLast_concat]
  rfl

theorem takePending_pendingpri {q' : Queue W} {p : AnPending W}
    (h : q.takePending pri = some (p, q')) : q'.pendingpri = q.pendingpri := by
  obtain ⟨l, -, rfl⟩ := takePending_eq h
  cases p.w <;> rfl

theorem takePending_pendings {q' : Queue W} {p : AnPending W} {pri' : Nat}
    (h : q.takePending pri = some (p, q')) (hne : pri' ≠ pri) :
    q'.pendings pri' = q.pendings pri' := by
  obtain ⟨l, -, rfl⟩ := takePending_eq h
  cases p.w <;> exact Function.update_of_ne hne ..

theorem takePending_eq_none_iff : q.takePending pri = none ↔ q.pendings pri = [] := by
  rw [takePending, Option.map_eq_none_iff, List.getLast?_eq_none_iff]

theorem Sound.takePending {q' : Queue W} {p : AnPending W} (h : q.Sound)
    (htake : q.takePending pri = some (p, q')) : q'.Sound := by
  obtain ⟨l, hl, rfl⟩ := takePending_eq htake
  have hlast : q.holder pri l.length = p.w := by
    rw [holder, hl, List.getElem?_concat_length]
    rfl
  have hrest : ∀ pri' i, (q.setPendings pri l).holder pri' i =
      if pri' = pri ∧ i = l.length then none else q.holder pri' i := by
    intro pri' i
    rw [holder_setPendings]
    by_cases hpri : pri' = pri
    · subst hpri
      rw [if_pos rfl, holder, hl, List.getElem?_append]
      by_cases hi : i = l.length
      · simp [hi]
      · by_cases hlt : i < l.length
        · simp [hi, hlt]
        · rw [List.getElem?_eq_none (Nat.not_lt.mp hlt), if_neg hlt,
            List.getElem?_eq_none (by rw [List.length_singleton]; omega)]
          simp
    · rw [if_neg hpri, if_neg fun h => hpri h.1]
  cases hw : p.w with
  | none =>
      refine h.congr rfl rfl fun pri' i => ?_
      refine (hrest pri' i).trans ?_
      split
      · rename_i hplace
        rw [hplace.1, hplace.2, hlast, hw]
      · rfl
  | some w =>
      rw [hw] at hlast
      obtain ⟨hpri, hindex⟩ := h.known hlast
      refine h.drop rfl rfl fun pri' i v => ?_
      change (q.setPendings pri l).holder pri' i = some v ↔ _
      rw [hrest]
      split
      · rename_i hplace
        rw [hplace.1, hplace.2, hlast]
        constructor
        · intro hnone
          cases hnone
        · rintro ⟨hsome, hne⟩
          exact absurd (Option.some.inj hsome).symm hne
      · rename_i hplace
        refine ⟨fun hi => ⟨hi, ?_⟩, And.left⟩
        rintro rfl
        obtain ⟨hpri', hindex'⟩ := h.known hi
        exact hplace ⟨hpri'.trans hpri.symm, by omega⟩

/-! ## Priorities -/

omit [DecidableEq W] in
theorem abspri_lt (h : q.InRange w) : q.abspri w < numpri := by
  unfold InRange evMinpri evMaxpri at h
  unfold abspri numpri evMinpri evMaxpri
  omega

theorem setPriority_priority_of_ne {pri : Int} (h : v ≠ w) :
    (q.setPriority w pri).priority v = q.priority v :=
  Function.update_of_ne h ..

theorem setPriority_abspri_of_ne {pri : Int} (h : v ≠ w) :
    (q.setPriority w pri).abspri v = q.abspri v := by
  rw [abspri, setPriority_priority_of_ne h]
  rfl

theorem priAdjust_inRange (q : Queue W) (w : W) : (q.priAdjust w).InRange w := by
  unfold InRange priAdjust setPriority
  simp only [Function.update_self]
  unfold evMinpri evMaxpri
  split <;> split <;> omega

theorem priAdjust_priority_of_ne (h : v ≠ w) : (q.priAdjust w).priority v = q.priority v :=
  setPriority_priority_of_ne h

theorem priAdjust_abspri_of_ne (h : v ≠ w) : (q.priAdjust w).abspri v = q.abspri v :=
  setPriority_abspri_of_ne h

/-- A priority in the range stays. -/
theorem priAdjust_of_inRange (h : q.InRange w) : q.priAdjust w = q := by
  have hlow : ¬q.priority w < evMinpri := not_lt.mpr h.1
  have hhigh : ¬q.priority w > evMaxpri := not_lt.mpr h.2
  simp only [priAdjust, setPriority, if_neg hlow, if_neg hhigh, Function.update_eq_self]

/-- Only a watcher that is not pending gets another priority. -/
theorem Sound.setPriority (h : q.Sound) (hpending : q.pending w = 0) (pri : Int) :
    (q.setPriority w pri).Sound := by
  refine ⟨fun v hv => ?_, fun {pri i v} hi => ?_⟩
  · have hne : v ≠ w := fun heq => hv (heq ▸ hpending)
    rw [setPriority_abspri_of_ne hne]
    exact h.own v hv
  · have hknown := h.known hi
    have hne : v ≠ w := by
      rintro rfl
      omega
    rw [setPriority_abspri_of_ne hne]
    exact hknown

theorem Sound.priAdjust (h : q.Sound) (hw : q.pending w ≠ 0 → q.InRange w) :
    (q.priAdjust w).Sound := by
  by_cases hpending : q.pending w = 0
  · exact h.setPriority hpending _
  · rw [priAdjust_of_inRange (hw hpending)]
    exact h

/-! ## Who is pending -/

theorem feedEvent_pending_self (q : Queue W) (w : W) (revents : UInt32) :
    (q.feedEvent w revents).pending w ≠ 0 := by
  unfold Queue.feedEvent
  by_cases hw : q.pending w = 0
  · simp [hw]
  · simp only [ne_eq, hw, not_false_eq_true, if_true]
    exact hw

theorem feedEvent_pending_of_ne (h : v ≠ w) : (q.feedEvent w revents).pending v = q.pending v := by
  unfold Queue.feedEvent
  by_cases hw : q.pending w = 0
  · simp [hw, h]
  · simp only [ne_eq, hw, not_false_eq_true, if_true]
    rfl

@[simp] theorem feedEvent_priority : (q.feedEvent w revents).priority = q.priority := by
  unfold Queue.feedEvent
  dsimp only
  split <;> rfl

@[simp] theorem clearPending_pending_self : (q.clearPending w).pending w = 0 := by
  unfold Queue.clearPending
  by_cases hw : q.pending w = 0
  · simp [hw]
  · simp [hw]

theorem clearPending_of_not_pending (hw : q.pending w = 0) : q.clearPending w = q := by
  unfold Queue.clearPending
  exact if_neg (not_not.mpr hw)

theorem clearPending_pending_of_ne (h : v ≠ w) :
    (q.clearPending w).pending v = q.pending v := by
  unfold Queue.clearPending
  by_cases hw : q.pending w = 0
  · simp [hw]
  · simp only [ne_eq, hw, not_false_eq_true, if_true]
    exact Function.update_of_ne h ..

@[simp] theorem clearPending_priority : (q.clearPending w).priority = q.priority := by
  unfold Queue.clearPending
  dsimp only
  split <;> rfl

/-- Clearing makes nobody pending. -/
theorem pending_of_clearPending (h : (q.clearPending w).pending v ≠ 0) :
    v ≠ w ∧ q.pending v ≠ 0 := by
  have hne : v ≠ w := by
    rintro rfl
    exact h clearPending_pending_self
  rw [clearPending_pending_of_ne hne] at h
  exact ⟨hne, h⟩

/-- Only the watcher that is fed becomes pending. -/
theorem pending_of_feedEvent (h : (q.feedEvent w revents).pending v ≠ 0) :
    v = w ∨ q.pending v ≠ 0 := by
  by_cases hne : v = w
  · exact .inl hne
  · rw [feedEvent_pending_of_ne hne] at h
    exact .inr h

/-- Taking an entry makes nobody pending, and its watcher is not pending any more. -/
theorem takePending_pending {q' : Queue W} {p : AnPending W}
    (h : q.takePending pri = some (p, q')) :
    q'.priority = q.priority ∧ (∀ v, q'.pending v ≠ 0 → q.pending v ≠ 0) ∧
      ∀ w, p.w = some w → q'.pending w = 0 := by
  obtain ⟨l, -, rfl⟩ := takePending_eq h
  cases hw : p.w with
  | none => exact ⟨rfl, fun v hv => hv, fun _ h => by cases h⟩
  | some w =>
      refine ⟨rfl, fun v hv => ?_, fun w' hw' => ?_⟩
      · change Function.update q.pending w 0 v ≠ 0 at hv
        by_cases hvw : v = w
        · rw [hvw, Function.update_self] at hv
          exact absurd rfl hv
        · rwa [Function.update_of_ne hvw] at hv
      · cases hw'
        exact Function.update_self ..

/-! ## The agendas -/

section

omit [DecidableEq W]

/-- The entry in the middle of a list is changed. -/
theorem modify_middle (l₁ l₂ : List (AnPending W)) (p : AnPending W)
    (f : AnPending W → AnPending W) :
    (l₁ ++ p :: l₂).modify l₁.length f = l₁ ++ f p :: l₂ := by
  induction l₁ with
  | nil => rfl
  | cons x l₁ ih => exact congrArg (x :: ·) ih

/-- A queue without an entry of `w` has none on its agenda. -/
theorem view_ne {l : List (AnPending W)} (h : ∀ p ∈ l, p.w ≠ some w) {e : W × UInt32}
    (he : e ∈ view l) : e.1 ≠ w := by
  rintro rfl
  exact h _ (mem_view.mp he) rfl

end

/-- Another event merges with the one that is pending. -/
theorem post_view {l₁ l₂ : List (AnPending W)} {events : UInt32}
    (h : ∀ p ∈ l₁ ++ l₂, p.w ≠ some w) :
    post (view (l₁ ++ ⟨some w, events⟩ :: l₂)) w revents =
      view (l₁ ++ ⟨some w, events ||| revents⟩ :: l₂) := by
  have hkeep : ∀ l : List (AnPending W), (∀ p ∈ l, p.w ≠ some w) →
      (view l).map (fun e => if e.1 = w then (e.1, e.2 ||| revents) else e) = view l := by
    intro l hl
    conv_rhs => rw [← List.map_id (view l)]
    exact List.map_congr_left fun e he => if_neg (view_ne hl he)
  have h₁ := hkeep l₁ fun p hp => h p (List.mem_append_left _ hp)
  have h₂ := hkeep l₂ fun p hp => h p (List.mem_append_right _ hp)
  simp only [view_append, view_some, post, List.map_append, List.map_cons, List.mem_append,
    List.mem_cons, true_or, or_true, if_true, h₁, h₂]

/-- An entry that is emptied is off the agenda. -/
theorem cancel_view {l₁ l₂ : List (AnPending W)} {events : UInt32}
    (h : ∀ p ∈ l₁ ++ l₂, p.w ≠ some w) :
    cancel (view (l₁ ++ ⟨some w, events⟩ :: l₂)) w = view (l₁ ++ ⟨none, events⟩ :: l₂) := by
  have hkeep : ∀ l : List (AnPending W), (∀ p ∈ l, p.w ≠ some w) → cancel (view l) w = view l :=
    fun l hl => List.filter_eq_self.mpr fun e he => by simpa using view_ne hl he
  have h₁ := hkeep l₁ fun p hp => h p (List.mem_append_left _ hp)
  have h₂ := hkeep l₂ fun p hp => h p (List.mem_append_right _ hp)
  unfold cancel at h₁ h₂ ⊢
  simp only [view_append, view_some, view_none, List.filter_append, List.filter_cons, h₁, h₂,
    ne_eq, not_true_eq_false, decide_false, Bool.false_eq_true, if_false]

/-- Canceling what is not there changes nothing. -/
theorem cancel_of_not_mem {a : List (W × UInt32)} (h : w ∉ a.map Prod.fst) : cancel a w = a :=
  List.filter_eq_self.mpr fun e he => by
    simpa using fun heq : e.1 = w => h (heq ▸ List.mem_map_of_mem he)

section

omit [DecidableEq W]

theorem agenda_setPendings (l : List (AnPending W)) (pri' : Nat) :
    (q.setPendings pri l).agenda pri' = if pri' = pri then view l else q.agenda pri' := by
  unfold agenda setPendings
  by_cases hpri : pri' = pri
  · subst hpri
    simp
  · simp [hpri]

/-- A watcher is on an agenda once. -/
theorem Sound.agenda_nodup (h : q.Sound) (pri : Nat) : ((q.agenda pri).map Prod.fst).Nodup := by
  have hfst : (q.agenda pri).map Prod.fst = (q.pendings pri).filterMap AnPending.w := by
    rw [agenda, view, List.map_filterMap]
    refine List.filterMap_congr fun p _ => ?_
    cases p.w <;> rfl
  rw [hfst, List.Nodup, List.pairwise_filterMap, List.pairwise_iff_getElem]
  intro i j hi hj hlt w hw v hv heq
  have hholder : ∀ k (hk : k < (q.pendings pri).length), q.holder pri k = (q.pendings pri)[k].w :=
    fun k hk => by rw [holder, List.getElem?_eq_getElem hk, Option.bind_some]
  have hfirst := (h.known ((hholder i hi).trans hw)).2
  have hsecond := (h.known ((hholder j hj).trans hv)).2
  rw [← heq] at hsecond
  omega

end

/-- `ev_feed_event` posts the event. -/
theorem Sound.agenda_feedEvent (h : q.Sound) (w : W) (revents : UInt32) (pri : Nat) :
    (q.feedEvent w revents).agenda pri =
      if pri = q.abspri w then post (q.agenda pri) w revents else q.agenda pri := by
  unfold Queue.feedEvent
  by_cases hw : q.pending w = 0
  · have hnot : w ∉ (q.agenda (q.abspri w)).map Prod.fst := fun hmem =>
      h.pending_iff.mpr hmem hw
    simp only [ne_eq, hw, not_true_eq_false, if_false]
    change (q.setPendings _ _).agenda pri = _
    rw [agenda_setPendings]
    split
    · rename_i hpri
      rw [hpri, post, if_neg hnot, view_append]
      rfl
    · rfl
  · obtain ⟨l₁, events, l₂, hsplit, hlength, hothers⟩ := h.split hw
    simp only [ne_eq, hw, not_false_eq_true, if_true]
    change (q.setPendings _ _).agenda pri = _
    rw [agenda_setPendings, hsplit, ← hlength, modify_middle]
    split
    · rename_i hpri
      rw [hpri, agenda, hsplit, post_view hothers]
    · rfl

section

omit [DecidableEq W]

/-- A pending watcher is on its agenda with its events. -/
theorem Sound.pendingEvents_mem (h : q.Sound) (hw : q.pending w ≠ 0) :
    (w, q.pendingEvents w) ∈ q.agenda (q.abspri w) := by
  obtain ⟨events, hat⟩ := h.entry hw
  rw [pendingEvents, if_pos hw, hat]
  exact mem_view.mpr (List.mem_of_getElem? hat)

/-- On no agenda is it with other events. -/
theorem Sound.pendingEvents_of_mem (h : q.Sound) {events : UInt32}
    (hmem : (w, events) ∈ q.agenda pri) : q.pendingEvents w = events := by
  obtain ⟨i, hat, hi⟩ := mem_agenda hmem
  obtain ⟨hpri, hpending⟩ := h.known hi
  rw [pendingEvents, if_pos (hpending ▸ Nat.succ_ne_zero i), ← hpri, hpending,
    Nat.add_sub_cancel, hat]
  rfl

end

/-- `ev_feed_event` adds to the events of its watcher, and to nobody else's. -/
theorem Sound.feedEvent_pendingEvents (h : q.Sound) (w : W) (revents : UInt32) :
    (q.feedEvent w revents).pendingEvents =
      Function.update q.pendingEvents w (q.pendingEvents w ||| revents) := by
  funext v
  have hfed := h.feedEvent w revents
  have hposted := h.agenda_feedEvent w revents (q.abspri v)
  by_cases hvw : v = w
  · subst hvw
    rw [Function.update_self]
    have hmem : (v, q.pendingEvents v ||| revents) ∈
        (q.feedEvent v revents).agenda (q.abspri v) := by
      rw [hposted, if_pos rfl, post]
      by_cases hv : q.pending v = 0
      · rw [if_neg fun hmem => h.pending_iff.mpr hmem hv, pendingEvents, if_neg (not_not.mpr hv),
          UInt32.zero_or]
        exact List.mem_append_right _ (List.mem_singleton.mpr rfl)
      · rw [if_pos (h.pending_iff.mp hv)]
        exact List.mem_map.mpr ⟨_, h.pendingEvents_mem hv, if_pos rfl⟩
    exact hfed.pendingEvents_of_mem hmem
  · rw [Function.update_of_ne hvw]
    by_cases hv : q.pending v = 0
    · rw [pendingEvents, feedEvent_pending_of_ne hvw, pendingEvents, hv]
      rfl
    · have hold := h.pendingEvents_mem hv
      have hmem : (v, q.pendingEvents v) ∈ (q.feedEvent w revents).agenda (q.abspri v) := by
        rw [hposted]
        split
        · rw [post]
          split
          · exact List.mem_map.mpr ⟨_, hold, if_neg hvw⟩
          · exact List.mem_append_left _ hold
        · exact hold
      exact hfed.pendingEvents_of_mem hmem

/-- Watchers that are not pending are fed one after the other. -/
theorem Sound.agenda_foldl_feedEvent (h : q.Sound) {ws : List W} (hnodup : ws.Nodup)
    (hws : ∀ w ∈ ws, q.pending w = 0) (pri : Nat) :
    (ws.foldl (fun q w => q.feedEvent w revents) q).agenda pri =
      q.agenda pri ++ (ws.filter fun w => pri = q.abspri w).map fun w => (w, revents) := by
  induction ws generalizing q with
  | nil => simp
  | cons w ws ih =>
      obtain ⟨hw, hnodup⟩ := List.nodup_cons.mp hnodup
      have habs : ∀ v, (q.feedEvent w revents).abspri v = q.abspri v := fun v => by simp [abspri]
      have hrest : ∀ v ∈ ws, (q.feedEvent w revents).pending v = 0 := fun v hv => by
        have hne : v ≠ w := fun heq => hw (heq ▸ hv)
        rw [feedEvent_pending_of_ne hne]
        exact hws v (List.mem_cons_of_mem _ hv)
      have hnot : w ∉ (q.agenda (q.abspri w)).map Prod.fst := fun hmem =>
        h.pending_iff.mpr hmem (hws w List.mem_cons_self)
      rw [List.foldl_cons, ih (h.feedEvent w revents) hnodup hrest, h.agenda_feedEvent]
      simp only [habs]
      by_cases hpri : pri = q.abspri w
      · rw [if_pos hpri, hpri, post, if_neg hnot, List.filter_cons_of_pos (by simp),
          List.map_cons, List.append_assoc, List.singleton_append]
      · rw [if_neg hpri, List.filter_cons_of_neg (by simpa using hpri)]

/-- `clear_pending` takes the watcher off all agendas. -/
theorem Sound.agenda_clearPending (h : q.Sound) (w : W) (pri : Nat) :
    (q.clearPending w).agenda pri = cancel (q.agenda pri) w := by
  have hothers : pri ≠ q.abspri w → cancel (q.agenda pri) w = q.agenda pri := by
    intro hpri
    refine cancel_of_not_mem fun hmem => hpri ?_
    obtain ⟨⟨_, events⟩, he, rfl⟩ := List.mem_map.mp hmem
    exact h.abspri_of_mem he
  unfold Queue.clearPending
  by_cases hw : q.pending w = 0
  · simp only [ne_eq, hw, not_true_eq_false, if_false]
    by_cases hpri : pri = q.abspri w
    · subst hpri
      exact (cancel_of_not_mem fun hmem => h.pending_iff.mpr hmem hw).symm
    · exact (hothers hpri).symm
  · obtain ⟨l₁, events, l₂, hsplit, hlength, hrest⟩ := h.split hw
    simp only [ne_eq, hw, not_false_eq_true, if_true]
    change (q.setPendings _ _).agenda pri = _
    rw [agenda_setPendings, hsplit, ← hlength, modify_middle]
    split
    · rename_i hpri
      rw [hpri, agenda, hsplit, cancel_view hrest]
    · rename_i hpri
      exact (hothers hpri).symm

/-- The inner loop of `ev_invoke_pending` takes the last watcher off the agenda, or
an entry that has been emptied. -/
theorem agenda_takePending {q' : Queue W} {p : AnPending W}
    (h : q.takePending pri = some (p, q')) (pri' : Nat) :
    q.agenda pri' = q'.agenda pri' ++ if pri' = pri then view [p] else [] := by
  obtain ⟨l, hl, rfl⟩ := takePending_eq h
  have hagenda : (p.w.elim (q.setPendings pri l) fun w =>
      { q.setPendings pri l with pending := Function.update q.pending w 0 }).agenda pri' =
      (q.setPendings pri l).agenda pri' := by
    cases p.w <;> rfl
  rw [hagenda, agenda_setPendings]
  split
  · rename_i hpri
    rw [hpri, agenda, hl, view_append]
  · rw [List.append_nil]

theorem mem_agenda_of_takePending {q' : Queue W} {events : UInt32}
    (h : q.takePending pri = some (⟨some w, events⟩, q')) : (w, events) ∈ q.agenda pri := by
  rw [agenda_takePending h, if_pos rfl]
  exact List.mem_append_right _ (List.mem_singleton.mpr rfl)

/-! ## What the program does to the queue -/

/-- Watchers with `P` are taken off the queue, and others get another priority. -/
structure Quieter (P : W → Prop) (q q' : Queue W) : Prop where
  pendingpri : q'.pendingpri = q.pendingpri
  length : ∀ pri, (q'.pendings pri).length = (q.pendings pri).length
  pending : ∀ w, q'.pending w ≠ 0 → q.pending w ≠ 0
  agenda : ∀ pri, (q'.agenda pri).Sublist (q.agenda pri)
  kept : ∀ pri, ∀ e ∈ q.agenda pri, e ∈ q'.agenda pri ∨ P e.1 ∧ q'.pending e.1 = 0

namespace Quieter

variable {q' q'' : Queue W} {P P' : W → Prop}

section

omit [DecidableEq W]

theorem refl (P : W → Prop) (q : Queue W) : Quieter P q q :=
  ⟨rfl, fun _ => rfl, fun _ h => h, fun _ => .refl _, fun _ _ h => .inl h⟩

theorem trans (h : Quieter P q q') (h' : Quieter P q' q'') : Quieter P q q'' where
  pendingpri := h'.pendingpri.trans h.pendingpri
  length pri := (h'.length pri).trans (h.length pri)
  pending w hw := h.pending w (h'.pending w hw)
  agenda pri := (h'.agenda pri).trans (h.agenda pri)
  kept pri e he := by
    rcases h.kept pri e he with he | ⟨hP, hgone⟩
    · exact h'.kept pri e he
    · exact .inr ⟨hP, not_not.mp fun hne => h'.pending e.1 hne hgone⟩

theorem empty (h : Quieter P q q') {pri : Nat} (he : q.pendings pri = []) :
    q'.pendings pri = [] :=
  List.length_eq_zero_iff.mp ((h.length pri).trans (List.length_eq_zero_iff.mpr he))

theorem mono (h : Quieter P q q') (hP : ∀ w, P w → P' w) : Quieter P' q q' :=
  ⟨h.pendingpri, h.length, h.pending, h.agenda,
    fun pri e he => (h.kept pri e he).imp id (And.imp (hP e.1) id)⟩

end

theorem setPriority (P : W → Prop) (q : Queue W) (w : W) (pri : Int) :
    Quieter P q (q.setPriority w pri) :=
  ⟨rfl, fun _ => rfl, fun _ h => h, fun _ => .refl _, fun _ _ h => .inl h⟩

theorem priAdjust (P : W → Prop) (q : Queue W) (w : W) : Quieter P q (q.priAdjust w) :=
  setPriority P q w _

theorem clearPending (h : q.Sound) (w : W) : Quieter (· = w) q (q.clearPending w) where
  pendingpri := by
    unfold Queue.clearPending
    dsimp only
    split <;> rfl
  length pri := by
    unfold Queue.clearPending
    dsimp only
    split
    · change (Function.update q.pendings _ _ pri).length = _
      rw [Function.update_apply]
      split
      · rename_i hpri
        rw [List.length_modify, hpri]
      · rfl
    · rfl
  pending v hv := (pending_of_clearPending hv).2
  agenda pri := by
    rw [h.agenda_clearPending]
    exact List.filter_sublist
  kept pri e he := by
    rw [h.agenda_clearPending, mem_cancel]
    by_cases hw : e.1 = w
    · exact .inr ⟨hw, hw ▸ clearPending_pending_self⟩
    · exact .inl ⟨he, hw⟩

end Quieter

/-! ## What the loop does to the queue -/

/-- Watchers with `P` are fed. -/
structure Fuller (P : W → Prop) (q q' : Queue W) : Prop where
  pendingpri : q' = q ∨ q'.pendingpri = numpri - 1
  priority : q'.priority = q.priority
  pending : ∀ w, q'.pending w ≠ 0 → P w ∨ q.pending w ≠ 0
  /-- whoever is pending already stays in front -/
  agenda : ∀ pri, (q.agenda pri).map Prod.fst <+: (q'.agenda pri).map Prod.fst
  /-- and loses no event -/
  kept : ∀ pri w events, (w, events) ∈ q.agenda pri →
    ∃ events', (w, events') ∈ q'.agenda pri ∧ events' &&& events = events

/-- Feeding a watcher puts it at the end, or leaves it where it is. -/
theorem post_prefix (a : List (W × UInt32)) (w : W) (revents : UInt32) :
    a.map Prod.fst <+: (post a w revents).map Prod.fst := by
  unfold post
  split
  · have hsame : (a.map fun e => if e.1 = w then (e.1, e.2 ||| revents) else e).map Prod.fst =
        a.map Prod.fst := by
      rw [List.map_map]
      refine List.map_congr_left fun e _ => ?_
      simp only [Function.comp_apply]
      split <;> rfl
    rw [hsame]
  · rw [List.map_append]
    exact List.prefix_append ..

/-- Feeding a watcher takes no event from anybody. -/
theorem post_kept {a : List (W × UInt32)} {events : UInt32} (he : (v, events) ∈ a) :
    ∃ events', (v, events') ∈ post a w revents ∧ events' &&& events = events := by
  unfold post
  split
  · by_cases hv : v = w
    · refine ⟨events ||| revents, List.mem_map.mpr ⟨(v, events), he, by simp [hv]⟩, ?_⟩
      exact or_and_self events revents
    · exact ⟨events, List.mem_map.mpr ⟨(v, events), he, by simp [hv]⟩, UInt32.and_self⟩
  · exact ⟨events, List.mem_append_left _ he, UInt32.and_self⟩

namespace Fuller

variable {q' q'' : Queue W} {P P' : W → Prop}

section

omit [DecidableEq W]

theorem refl (P : W → Prop) (q : Queue W) : Fuller P q q :=
  ⟨.inl rfl, rfl, fun _ h => .inr h, fun _ => List.prefix_rfl,
    fun _ _ events h => ⟨events, h, UInt32.and_self⟩⟩

theorem trans (h : Fuller P q q') (h' : Fuller P q' q'') : Fuller P q q'' where
  pendingpri := by
    rcases h'.pendingpri with rfl | hlast
    · exact h.pendingpri
    · exact .inr hlast
  priority := h'.priority.trans h.priority
  pending w hw := (h'.pending w hw).elim .inl (h.pending w)
  agenda pri := (h.agenda pri).trans (h'.agenda pri)
  kept pri w events he := by
    obtain ⟨events', he', hsub⟩ := h.kept pri w events he
    obtain ⟨events'', he'', hsub'⟩ := h'.kept pri w events' he'
    refine ⟨events'', he'', ?_⟩
    rw [← hsub, ← UInt32.and_assoc, hsub']

theorem mono (h : Fuller P q q') (hP : ∀ w, P w → P' w) : Fuller P' q q' :=
  ⟨h.pendingpri, h.priority, fun w hw => (h.pending w hw).imp (hP w) id, h.agenda, h.kept⟩

end

theorem feedEvent (h : q.Sound) (hw : P w) (revents : UInt32) :
    Fuller P q (q.feedEvent w revents) where
  pendingpri := .inr (by
    unfold Queue.feedEvent
    rfl)
  priority := feedEvent_priority
  pending v hv := (pending_of_feedEvent hv).imp (fun heq : v = w => heq ▸ hw) id
  agenda pri := by
    rw [h.agenda_feedEvent]
    split
    · exact post_prefix ..
    · exact List.prefix_rfl
  kept pri v events he := by
    rw [h.agenda_feedEvent]
    split
    · exact post_kept he
    · exact ⟨events, he, UInt32.and_self⟩

/-- A loop over some list feeds one watcher in every round, or none. -/
theorem foldl {β : Type*} (h : q.Sound) (bs : List β) (feed : Queue W → β → Queue W)
    (hfeed : ∀ q, ∀ b ∈ bs, feed q b = q ∨ ∃ x revents, feed q b = q.feedEvent x revents ∧ P x) :
    Fuller P q (bs.foldl feed q) := by
  refine (List.foldlRecOn (motive := fun q' => q'.Sound ∧ Fuller P q q') bs feed
    ⟨h, .refl P q⟩ fun q' ⟨hsound, hfuller⟩ b hb => ?_).2
  rcases hfeed q' b hb with hsame | ⟨x, revents, hnew, hx⟩
  · rw [hsame]
    exact ⟨hsound, hfuller⟩
  · rw [hnew]
    exact ⟨hsound.feedEvent x revents, hfuller.trans (.feedEvent hsound hx revents)⟩

end Fuller

/-- Nobody is pending with a higher priority than `pendingpri`. -/
def Swept (q : Queue W) : Prop :=
  ∀ pri, q.pendingpri < pri → pri < numpri → q.pendings pri = []

/-- Nobody is pending. -/
def Empty (q : Queue W) : Prop :=
  ∀ pri, pri < numpri → q.pendings pri = []

section

omit [DecidableEq W]

theorem Swept.quieter {q' : Queue W} {P : W → Prop} (h : q.Swept) (hq : Quieter P q q') :
    q'.Swept :=
  fun pri hlt hpri => hq.empty (h pri (hq.pendingpri ▸ hlt) hpri)

theorem Swept.fuller {q' : Queue W} {P : W → Prop} (h : q.Swept) (hq : Fuller P q q') :
    q'.Swept := by
  rcases hq.pendingpri with rfl | hlast
  · exact h
  · intro pri hlt hpri
    omega

theorem Empty.quieter {q' : Queue W} {P : W → Prop} (h : q.Empty) (hq : Quieter P q q') :
    q'.Empty :=
  fun pri hpri => hq.empty (h pri hpri)

theorem Empty.pending (h : q.Empty) (hsound : q.Sound) (hrange : q.pending w ≠ 0 → q.InRange w) :
    q.pending w = 0 := by
  by_contra hw
  exact hsound.pendings_ne_nil hw (h _ (abspri_lt (hrange hw)))

end

end Queue
end Ev
end Cyan

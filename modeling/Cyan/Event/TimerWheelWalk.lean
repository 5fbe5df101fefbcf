import Mathlib.Data.List.Basic
import Cyan.Base.Multimap

/-!
# The walk of the timer wheel over its multimap

A run of `bookkeeper` whose callbacks do not touch the wheel is a walk over the
multimap.  An entry whose request has been reset is put in its new place, and the walk
goes on from there, so it passes over the entries between the two places, or comes
back to entries that it has passed.

* `Walk` is that walk over any sorted list, with the entries it has passed and those
  that are ahead of it.
* `Linked` says of the list alone that no due entry is passed over and that none
  stands behind an entry at which the walk ends.
* `Walk.eq_of_linked` and `Walk.linked` connect the two.
-/

namespace Cyan
namespace Event
namespace TimerWheel

open Base Multimap

variable {expiry : Nat → Int} {now : Int}

/-- The walk from the state in which the entries `passed` are in front of the iterator
and the entries `ahead` are not.  It takes out `taken`, in this order, and leaves
`left`. -/
inductive Walk (expiry : Nat → Int) (now : Int) :
    (passed ahead taken left : List (Int × Nat)) → Prop
  | atEnd (passed : List (Int × Nat)) : Walk expiry now passed [] [] passed
  | notDue {passed ahead : List (Int × Nat)} {e : Int × Nat} (hkey : expiry e.2 = e.1)
      (hdue : now < e.1) :
      Walk expiry now passed (e :: ahead) [] (passed ++ e :: ahead)
  -- the entry is put in its new place, and there it ends the loop
  | staleNotDue {passed ahead : List (Int × Nat)} {e : Int × Nat}
      (hkey : expiry e.2 ≠ e.1) (hdue : now < expiry e.2) :
      Walk expiry now passed (e :: ahead) []
        (emplace (expiry e.2) e.2 (passed ++ ahead))
  | due {passed ahead taken left : List (Int × Nat)} {e : Int × Nat}
      (hkey : expiry e.2 = e.1) (hdue : e.1 ≤ now)
      (hrest : Walk expiry now passed ahead taken left) :
      Walk expiry now passed (e :: ahead) (e :: taken) left
  -- the walk goes on behind the new place
  | staleDue {passed ahead taken left : List (Int × Nat)} {e : Int × Nat}
      (hkey : expiry e.2 ≠ e.1) (hdue : expiry e.2 ≤ now)
      (hrest : Walk expiry now (upTo (expiry e.2) (passed ++ ahead))
        (beyond (expiry e.2) (passed ++ ahead)) taken left) :
      Walk expiry now passed (e :: ahead) (e :: taken) left

/-- Without the entry in hand the list is still sorted. -/
theorem sorted_without {passed ahead : List (Int × Nat)} {e : Int × Nat}
    (h : Sorted (passed ++ e :: ahead)) : Sorted (passed ++ ahead) :=
  h.sublist ((List.sublist_cons_self e ahead).append_left passed)

/-- The walk comes to an end: with every entry it takes out there is one less. -/
theorem exists_walk (expiry : Nat → Int) (now : Int) (passed ahead : List (Int × Nat))
    (hsorted : Sorted (passed ++ ahead)) :
    ∃ taken left, Walk expiry now passed ahead taken left := by
  induction hn : (passed ++ ahead).length using Nat.strong_induction_on
    generalizing passed ahead with
  | h n ih =>
      cases ahead with
      | nil => exact ⟨[], passed, .atEnd passed⟩
      | cons e ahead =>
          have hrest := sorted_without hsorted
          have hless : (passed ++ ahead).length < n := by
            rw [← hn]
            simp
          by_cases hkey : expiry e.2 = e.1
          · by_cases hdue : e.1 ≤ now
            · obtain ⟨taken, left, hwalk⟩ := ih _ hless passed ahead hrest rfl
              exact ⟨e :: taken, left, .due hkey hdue hwalk⟩
            · exact ⟨[], _, .notDue hkey (by omega)⟩
          · by_cases hdue : expiry e.2 ≤ now
            · have hcut := upTo_append_beyond hrest (expiry e.2)
              obtain ⟨taken, left, hwalk⟩ :=
                ih _ hless (upTo _ _) (beyond _ _) (by rw [hcut]; exact hrest) (by rw [hcut])
              exact ⟨e :: taken, left, .staleDue hkey hdue hwalk⟩
            · exact ⟨[], _, .staleNotDue hkey (by omega)⟩

namespace Walk

variable {passed ahead taken left : List (Int × Nat)}

/-- Nothing is lost: what is not taken out is left. -/
theorem values_perm (hwalk : Walk expiry now passed ahead taken left)
    (hsorted : Sorted (passed ++ ahead)) :
    (values taken ++ values left).Perm (values (passed ++ ahead)) := by
  induction hwalk with
  | atEnd passed => rw [values_nil, List.nil_append, List.append_nil]
  | notDue hkey hdue => exact List.Perm.refl _
  | staleNotDue hkey hdue =>
      refine (values_emplace ..).trans ?_
      rw [values_append, values_append, values_cons]
      exact List.perm_middle.symm
  | due hkey hdue hrest ih =>
      refine ((ih (sorted_without hsorted)).cons _).trans ?_
      rw [values_append, values_append, values_cons]
      exact List.perm_middle.symm
  | @staleDue passed ahead taken left e hkey hdue hrest ih =>
      have hcut := upTo_append_beyond (sorted_without hsorted) (expiry e.2)
      rw [hcut] at ih
      refine ((ih (sorted_without hsorted)).cons _).trans ?_
      rw [values_append, values_append, values_cons]
      exact List.perm_middle.symm

/-- Only due entries are taken out. -/
theorem taken_due (hwalk : Walk expiry now passed ahead taken left) :
    ∀ v ∈ taken, v ∈ passed ++ ahead ∧ expiry v.2 ≤ now := by
  induction hwalk with
  | atEnd | notDue | staleNotDue => exact fun _ hv => nomatch hv
  | @due passed ahead taken left e hkey hdue hrest ih =>
      intro v hv
      rcases List.mem_cons.mp hv with rfl | hv
      · exact ⟨List.mem_append_right _ (List.mem_cons_self ..), by omega⟩
      · obtain ⟨hmem, hv⟩ := ih v hv
        exact ⟨((List.sublist_cons_self e ahead).append_left passed).subset hmem, hv⟩
  | @staleDue passed ahead taken left e hkey hdue hrest ih =>
      intro v hv
      rcases List.mem_cons.mp hv with rfl | hv
      · exact ⟨List.mem_append_right _ (List.mem_cons_self ..), hdue⟩
      · obtain ⟨hmem, hv⟩ := ih v hv
        have hmem : v ∈ passed ++ ahead := by
          rcases List.mem_append.mp hmem with hmem | hmem
          · exact (mem_upTo.mp hmem).1
          · exact (mem_beyond.mp hmem).1
        exact ⟨((List.sublist_cons_self e ahead).append_left passed).subset hmem, hv⟩

/-- An entry that has been passed stays, when the entries that are taken out later do
not go back behind it. -/
theorem passed_left (hwalk : Walk expiry now passed ahead taken left)
    (hsorted : Sorted (passed ++ ahead)) {f : Int × Nat} (hf : f ∈ passed)
    (hback : ∀ v ∈ taken, v.1 ≤ expiry v.2 ∨ f.1 ≤ expiry v.2) :
    f.2 ∈ values left := by
  induction hwalk with
  | atEnd passed => exact List.mem_map_of_mem hf
  | notDue hkey hdue => exact List.mem_map_of_mem (List.mem_append_left _ hf)
  | staleNotDue hkey hdue =>
      refine (values_emplace ..).symm.subset (List.mem_cons_of_mem _ ?_)
      exact List.mem_map_of_mem (List.mem_append_left _ hf)
  | due hkey hdue hrest ih =>
      exact ih (sorted_without hsorted) hf fun v hv => hback v (List.mem_cons_of_mem _ hv)
  | @staleDue passed ahead taken left e hkey hdue hrest ih =>
      have hwithout := sorted_without hsorted
      -- the entry in hand stands behind `f`, so its new place does as well
      have hfe : f.1 ≤ e.1 :=
        (List.pairwise_append.mp hsorted).2.2 f hf e (List.mem_cons_self ..)
      have hnear : f.1 ≤ expiry e.2 := by
        rcases hback e (List.mem_cons_self ..) with hforward | hnear
        · exact hfe.trans hforward
        · exact hnear
      refine ih ?_ (mem_upTo.mpr ⟨List.mem_append_left _ hf, hnear⟩) ?_
      · rw [upTo_append_beyond hwithout]
        exact hwithout
      · exact fun v hv => hback v (List.mem_cons_of_mem _ hv)

end Walk

/-! ## When nothing due is passed over -/

/-- From here on the walk comes from each due entry to the next one. -/
structure Linked (expiry : Nat → Int) (now : Int) (passed ahead : List (Int × Nat)) :
    Prop where
  /-- nothing that is not due stands in front of the first due entry -/
  first : ∀ {between d behind}, ahead = between ++ d :: behind → expiry d.2 ≤ now →
    (∀ n ∈ between, now < expiry n.2) → between = []
  /-- nor between a due entry in its own place and the next due one -/
  fresh : ∀ {before s between d behind}, ahead = before ++ s :: (between ++ d :: behind) →
    expiry s.2 ≤ now → expiry d.2 ≤ now → (∀ n ∈ between, now < expiry n.2) →
    expiry s.2 = s.1 → between = []
  /-- the new place of a due entry is in front of the next due entry and behind all
  others -/
  stale : ∀ {before s between d behind}, ahead = before ++ s :: (between ++ d :: behind) →
    expiry s.2 ≤ now → expiry d.2 ≤ now → (∀ n ∈ between, now < expiry n.2) →
    expiry s.2 ≠ s.1 → expiry s.2 < d.1 ∧
      ∀ n ∈ passed ++ before ++ between, now < expiry n.2 → n.1 ≤ expiry s.2

/-- Where the first due entry stands, if there is one. -/
theorem first_due (expiry : Nat → Int) (now : Int) (m : List (Int × Nat)) :
    (∀ n ∈ m, now < expiry n.2) ∨ ∃ between d behind, m = between ++ d :: behind ∧
      (∀ n ∈ between, now < expiry n.2) ∧ expiry d.2 ≤ now := by
  induction m with
  | nil => exact .inl fun _ hn => nomatch hn
  | cons e m ih =>
      by_cases hdue : expiry e.2 ≤ now
      · exact .inr ⟨[], e, m, rfl, fun _ hn => (nomatch hn), hdue⟩
      · rcases ih with hnone | ⟨between, d, behind, rfl, hbetween, hd⟩
        · exact .inl (List.forall_mem_cons.mpr ⟨not_le.mp hdue, hnone⟩)
        · exact .inr ⟨e :: between, d, behind, rfl,
            List.forall_mem_cons.mpr ⟨not_le.mp hdue, hbetween⟩, hd⟩

/-- The due entries of a list. -/
def dueEntries (expiry : Nat → Int) (now : Int) (m : List (Int × Nat)) :
    List (Int × Nat) :=
  m.filter fun e => expiry e.2 ≤ now

theorem dueEntries_eq_nil {m : List (Int × Nat)} (h : ∀ n ∈ m, now < expiry n.2) :
    dueEntries expiry now m = [] :=
  List.filter_eq_nil_iff.mpr fun n hn => by simpa using h n hn

theorem dueEntries_cons {e : Int × Nat} (hdue : expiry e.2 ≤ now) (m : List (Int × Nat)) :
    dueEntries expiry now (e :: m) = e :: dueEntries expiry now m :=
  List.filter_cons_of_pos (by simpa using hdue)

theorem Walk.taken_eq_nil {passed ahead taken left : List (Int × Nat)}
    (hwalk : Walk expiry now passed ahead taken left)
    (hnone : ∀ n ∈ passed ++ ahead, now < expiry n.2) : taken = [] := by
  refine List.eq_nil_iff_forall_not_mem.mpr fun v hv => ?_
  obtain ⟨hmem, hdue⟩ := hwalk.taken_due v hv
  exact absurd hdue (not_le.mpr (hnone v hmem))

/-- In front of a due entry at the head of the list stands nothing. -/
theorem first_eq_nil {ahead between behind : List (Int × Nat)} {e d : Int × Nat}
    (hdue : expiry e.2 ≤ now) (hahead : e :: ahead = between ++ d :: behind)
    (hbetween : ∀ n ∈ between, now < expiry n.2) : between = [] := by
  cases between with
  | nil => rfl
  | cons n between =>
      cases hahead
      exact absurd hdue (not_le.mpr (hbetween e (List.mem_cons_self ..)))

namespace Linked

variable {passed ahead : List (Int × Nat)} {e : Int × Nat}

theorem cons_split {before rest : List (Int × Nat)} (e : Int × Nat)
    (hahead : ahead = before ++ rest) : e :: ahead = (e :: before) ++ rest :=
  congrArg _ hahead

/-- Behind a due entry that stands in its own place. -/
theorem tail (h : Linked expiry now passed (e :: ahead)) (hdue : expiry e.2 ≤ now)
    (hkey : expiry e.2 = e.1) : Linked expiry now passed ahead where
  first {between d behind} hahead hd hbetween := by
    have hwhole : e :: ahead = [] ++ e :: (between ++ d :: behind) := congrArg _ hahead
    exact h.fresh hwhole hdue hd hbetween hkey
  fresh hahead := h.fresh (cons_split e hahead)
  stale hahead hs hd hbetween hkey := by
    obtain ⟨hfront, hpassed⟩ := h.stale (cons_split e hahead) hs hd hbetween hkey
    refine ⟨hfront, fun n hn => hpassed n ?_⟩
    simp only [List.mem_append, List.mem_cons] at hn ⊢
    tauto

/-- Behind the new place of a due entry: the walk passes over what is not due, up to the
next due entry. -/
theorem jump {between behind : List (Int × Nat)} {d : Int × Nat}
    (h : Linked expiry now passed (e :: (between ++ d :: behind)))
    (hdue : expiry e.2 ≤ now) (hkey : expiry e.2 ≠ e.1) (hd : expiry d.2 ≤ now)
    (hbetween : ∀ n ∈ between, now < expiry n.2)
    (hpassed : ∀ n ∈ passed, now < expiry n.2)
    (hsorted : Sorted (passed ++ (between ++ d :: behind))) :
    upTo (expiry e.2) (passed ++ (between ++ d :: behind)) = passed ++ between ∧
      beyond (expiry e.2) (passed ++ (between ++ d :: behind)) = d :: behind ∧
      Linked expiry now (passed ++ between) (d :: behind) := by
  obtain ⟨hfront, hcovered⟩ := h.stale (List.nil_append _).symm hdue hd hbetween hkey
  rw [List.append_nil] at hcovered
  rw [← List.append_assoc] at hsorted ⊢
  have hskipped : ∀ n ∈ passed ++ between, now < expiry n.2 := by
    intro n hn
    rcases List.mem_append.mp hn with hn | hn
    · exact hpassed n hn
    · exact hbetween n hn
  have hbehind : ∀ f ∈ d :: behind, expiry e.2 < f.1 := by
    have hrest := (List.pairwise_append.mp hsorted).2.1
    intro f hf
    rcases List.mem_cons.mp hf with rfl | hf
    · exact hfront
    · exact lt_of_lt_of_le hfront ((List.pairwise_cons.mp hrest).1 f hf)
  obtain ⟨hupTo, hbeyond⟩ := upTo_beyond_of_split
    (fun n hn => hcovered n hn (hskipped n hn)) hbehind
  have hwhole : ∀ {before s rest}, d :: behind = before ++ s :: rest →
      e :: (between ++ d :: behind) = (e :: (between ++ before)) ++ s :: rest := by
    intro before s rest hahead
    rw [hahead, List.cons_append, List.append_assoc]
  refine ⟨hupTo, hbeyond, ?_⟩
  refine {
    first := fun hahead _ hnone => first_eq_nil hd hahead hnone
    fresh := fun hahead => h.fresh (hwhole hahead)
    stale := fun hahead hs hd' hnone hkey' => ?_ }
  obtain ⟨hnear, hfar⟩ := h.stale (hwhole hahead) hs hd' hnone hkey'
  refine ⟨hnear, fun n hn => hfar n ?_⟩
  simp only [List.mem_append, List.mem_cons] at hn ⊢
  tauto

end Linked

/-- A walk over a list in order takes out the due entries as they stand. -/
theorem Walk.eq_of_linked {passed ahead taken left : List (Int × Nat)}
    (hwalk : Walk expiry now passed ahead taken left) (hsorted : Sorted (passed ++ ahead))
    (hlinked : Linked expiry now passed ahead) (hpassed : ∀ n ∈ passed, now < expiry n.2) :
    taken = dueEntries expiry now ahead := by
  -- where the walk ends at an entry that is not due, `first` says that nothing follows
  have hends : ∀ {passed ahead : List (Int × Nat)} {e : Int × Nat},
      Linked expiry now passed (e :: ahead) → now < expiry e.2 →
        dueEntries expiry now (e :: ahead) = [] := by
    intro passed ahead e hlinked hdue
    rcases first_due expiry now (e :: ahead) with
      hnone | ⟨between, d, behind, hahead, hbetween, hd⟩
    · exact dueEntries_eq_nil hnone
    · obtain rfl := hlinked.first hahead hd hbetween
      cases hahead
      exact absurd hd (not_le.mpr hdue)
  induction hwalk with
  | atEnd passed => rfl
  | notDue hkey hdue => exact (hends hlinked (by omega)).symm
  | staleNotDue hkey hdue => exact (hends hlinked hdue).symm
  | @due passed ahead taken left e hkey hdue hrest ih =>
      have hdue : expiry e.2 ≤ now := by omega
      rw [dueEntries_cons hdue,
        ih (sorted_without hsorted) (hlinked.tail hdue hkey) hpassed]
  | @staleDue passed ahead taken left e hkey hdue hrest ih =>
      have hwithout := sorted_without hsorted
      have hcut := upTo_append_beyond hwithout (expiry e.2)
      rw [dueEntries_cons hdue]
      rcases first_due expiry now ahead with
        hnone | ⟨between, d, behind, rfl, hbetween, hd⟩
      · have hall : ∀ n ∈ passed ++ ahead, now < expiry n.2 := by
          intro n hn
          rcases List.mem_append.mp hn with hn | hn
          · exact hpassed n hn
          · exact hnone n hn
        rw [hrest.taken_eq_nil (by rw [hcut]; exact hall), dueEntries_eq_nil hnone]
      · obtain ⟨hupTo, hbeyond, hlater⟩ :=
          hlinked.jump hdue hkey hd hbetween hpassed hwithout
        rw [hupTo, hbeyond] at ih
        have hskipped : ∀ n ∈ passed ++ between, now < expiry n.2 := by
          intro n hn
          rcases List.mem_append.mp hn with hn | hn
          · exact hpassed n hn
          · exact hbetween n hn
        rw [ih (by rw [List.append_assoc]; exact hwithout) hlater hskipped]
        have hnone := dueEntries_eq_nil hbetween
        simp only [dueEntries] at hnone ⊢
        rw [List.filter_append, hnone, List.nil_append]

/-- The part of a list that is cut off in front of the first due entry. -/
theorem split_behind {front behind passed ahead : List (Int × Nat)} {d : Int × Nat}
    (hsplit : front ++ d :: behind = passed ++ ahead) (hd : expiry d.2 ≤ now)
    (hpassed : ∀ n ∈ passed, now < expiry n.2) :
    ∃ between, front = passed ++ between ∧ ahead = between ++ d :: behind := by
  rcases List.append_eq_append_iff.mp hsplit with
    ⟨rest, hrest, hbehind⟩ | ⟨between, hfront, hahead⟩
  · cases rest with
    | nil => exact ⟨[], by simpa using hrest.symm, by simpa using hbehind.symm⟩
    | cons n rest =>
        cases hbehind
        have hmem : d ∈ passed := by
          rw [hrest]
          exact List.mem_append_right _ (List.mem_cons_self ..)
        exact absurd hd (not_le.mpr (hpassed d hmem))
  · exact ⟨between, hfront, hahead⟩

/-- A due entry is not among those that stand in front of what is not due. -/
theorem far_cons {far : Int} {before between : List (Int × Nat)} {passed : List (Int × Nat)}
    {e : Int × Nat} (hdue : expiry e.2 ≤ now)
    (hfar : ∀ n ∈ passed ++ before ++ between, now < expiry n.2 → n.1 ≤ far) :
    ∀ n ∈ passed ++ e :: before ++ between, now < expiry n.2 → n.1 ≤ far := by
  intro n hn hnot
  simp only [List.mem_append, List.mem_cons] at hn hfar
  rcases hn with (hn | rfl | hn) | hn
  · exact hfar n (.inl (.inl hn)) hnot
  · exact absurd hdue (not_le.mpr hnot)
  · exact hfar n (.inl (.inr hn)) hnot
  · exact hfar n (.inr hn) hnot

/-- Behind the new place of a due entry the walk is linked, so it was when it came to
the entry. -/
theorem Linked.of_jump {passed ahead : List (Int × Nat)} {e : Int × Nat}
    (hsorted : Sorted (passed ++ ahead)) (hdue : expiry e.2 ≤ now)
    (hkey : expiry e.2 ≠ e.1) (hbefore : ∀ n ∈ passed, now < expiry n.2)
    (hpassed : ∀ n ∈ upTo (expiry e.2) (passed ++ ahead), now < expiry n.2)
    (h : Linked expiry now (upTo (expiry e.2) (passed ++ ahead))
      (beyond (expiry e.2) (passed ++ ahead))) : Linked expiry now passed (e :: ahead) := by
  have hcut := upTo_append_beyond hsorted (expiry e.2)
  -- what follows another entry than `e` follows it behind the new place as well
  have hlater : ∀ {before s rest}, ahead = before ++ s :: rest → expiry s.2 ≤ now →
      ∃ before', passed ++ before = upTo (expiry e.2) (passed ++ ahead) ++ before' ∧
        beyond (expiry e.2) (passed ++ ahead) = before' ++ s :: rest := by
    intro before s rest hahead hs
    refine split_behind (d := s) ?_ hs hpassed
    rw [hcut, hahead, List.append_assoc]
  refine {
    first := fun hahead _ hbetween => first_eq_nil hdue hahead hbetween
    fresh := fun {before s between d behind} hahead hs hd hbetween hown => ?_
    stale := fun {before s between d behind} hahead hs hd hbetween hstale => ?_ }
  · cases before with
    | nil =>
        cases hahead
        exact absurd hown hkey
    | cons f before =>
        cases hahead
        obtain ⟨before', -, hbeyond⟩ := hlater rfl hs
        exact h.fresh hbeyond hs hd hbetween hown
  · cases before with
    | nil =>
        cases hahead
        obtain ⟨between', hfront, hbeyond⟩ := hlater rfl hd
        have hnone : ∀ n ∈ between', now < expiry n.2 := by
          intro n hn
          have hn : n ∈ passed ++ between := by
            rw [hfront]
            exact List.mem_append_right _ hn
          rcases List.mem_append.mp hn with hn | hn
          · exact hbefore n hn
          · exact hbetween n hn
        obtain rfl := h.first hbeyond hd hnone
        rw [List.append_nil] at hfront ⊢
        rw [hfront]
        have hd' : d ∈ beyond (expiry e.2) (passed ++ (between ++ d :: behind)) := by
          rw [hbeyond]
          exact List.mem_cons_self ..
        exact ⟨(mem_beyond.mp hd').2, fun n hn _ => (mem_upTo.mp hn).2⟩
    | cons f before =>
        cases hahead
        obtain ⟨before', hfront, hbeyond⟩ := hlater rfl hs
        obtain ⟨hnear, hfar⟩ := h.stale hbeyond hs hd hbetween hstale
        rw [← hfront] at hfar
        exact ⟨hnear, far_cons hdue hfar⟩

/-- In front of a due entry in its own place. -/
theorem Linked.cons {passed ahead : List (Int × Nat)} {e : Int × Nat}
    (h : Linked expiry now passed ahead) (hdue : expiry e.2 ≤ now)
    (hkey : expiry e.2 = e.1) : Linked expiry now passed (e :: ahead) := by
  refine {
    first := fun hahead _ hbetween => first_eq_nil hdue hahead hbetween
    fresh := fun {before s between d behind} hahead hs hd hbetween hown => ?_
    stale := fun {before s between d behind} hahead hs hd hbetween hstale => ?_ }
  · cases before with
    | nil =>
        cases hahead
        exact h.first rfl hd hbetween
    | cons f before =>
        cases hahead
        exact h.fresh rfl hs hd hbetween hown
  · cases before with
    | nil =>
        cases hahead
        exact absurd hkey hstale
    | cons f before =>
        cases hahead
        obtain ⟨hnear, hfar⟩ := h.stale rfl hs hd hbetween hstale
        exact ⟨hnear, far_cons hdue hfar⟩

/-- A list without due entries is linked. -/
theorem linked_of_none {passed ahead : List (Int × Nat)}
    (hnone : ∀ n ∈ ahead, now < expiry n.2) : Linked expiry now passed ahead where
  first hahead hd _ :=
    absurd hd (not_le.mpr (hnone _ (by rw [hahead]; simp)))
  fresh hahead hs _ _ _ :=
    absurd hs (not_le.mpr (hnone _ (by rw [hahead]; simp)))
  stale hahead hs _ _ _ :=
    absurd hs (not_le.mpr (hnone _ (by rw [hahead]; simp)))

/-- A walk that leaves nothing due, and whose entries are taken out in the order of
their expiry or do not go backwards, was linked. -/
theorem Walk.linked {passed ahead taken left : List (Int × Nat)}
    (hwalk : Walk expiry now passed ahead taken left) (hsorted : Sorted (passed ++ ahead))
    (hbefore : ∀ n ∈ passed, now < expiry n.2) (hleft : ∀ r ∈ values left, now < expiry r)
    (hback : taken.Pairwise fun g v => v.1 ≤ expiry v.2 ∨ expiry g.2 ≤ expiry v.2) :
    Linked expiry now passed ahead := by
  induction hwalk with
  | atEnd passed => exact linked_of_none fun _ hn => nomatch hn
  | notDue hkey hdue =>
      refine linked_of_none fun n hn => hleft n.2 ?_
      exact List.mem_map_of_mem (List.mem_append_right _ hn)
  | @staleNotDue passed ahead e hkey hdue =>
      refine linked_of_none fun n hn => hleft n.2 ?_
      refine (values_emplace ..).symm.subset ?_
      rcases List.mem_cons.mp hn with rfl | hn
      · exact List.mem_cons_self ..
      · exact List.mem_cons_of_mem _ (List.mem_map_of_mem (List.mem_append_right _ hn))
  | @due passed ahead taken left e hkey hdue hrest ih =>
      have hlater := ih (sorted_without hsorted) hbefore hleft (List.pairwise_cons.mp hback).2
      exact hlater.cons (by omega) hkey
  | @staleDue passed ahead taken left e hkey hdue hrest ih =>
      have hwithout := sorted_without hsorted
      have hcut := upTo_append_beyond hwithout (expiry e.2)
      obtain ⟨hnext, hback⟩ := List.pairwise_cons.mp hback
      -- a due entry that is passed over would stay
      have hpassed : ∀ n ∈ upTo (expiry e.2) (passed ++ ahead), now < expiry n.2 := by
        intro n hn
        refine hleft n.2 (hrest.passed_left (by rw [hcut]; exact hwithout) hn ?_)
        intro v hv
        rcases hnext v hv with hforward | hlater
        · exact .inl hforward
        · exact .inr ((mem_upTo.mp hn).2.trans hlater)
      have hlater := ih (by rw [hcut]; exact hwithout) hpassed hleft hback
      exact Linked.of_jump hwithout hdue hkey hbefore hpassed hlater

end TimerWheel
end Event
end Cyan

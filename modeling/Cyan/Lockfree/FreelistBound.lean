import Cyan.Base.Headcount
import Cyan.Lockfree.FreelistOwner

/-!
# How many nodes the free list holds

`deallocate` gives a node to the system when `size_ == max_size_`.  The test
comes before the exchange on `head_`, and `size_` is written after it, so that
several calls can pass the test together and the counter can jump over the
bound.

* `Within` is the bound on `size_` and on the list.
* `CountsInTime` is the condition on a step: counting in the nodes that have been
  put on the list and are not counted yet, `size_` is still below the bound when
  a node is put on the list, and `size_` is not zero when it is lowered.
* `Counted` ties `size_` to the list: a node of the list, or a node just taken
  off, is counted or about to be.
* `within_bound` holds for every run that keeps to the condition; `overfills`
  shows that a node put on the list without the condition leads over the bound,
  and `pool_overfills` is such a run.
-/

namespace Cyan
namespace Lockfree
namespace Freelist

open Base

variable {Thread P : Type*}

/-! ## The property and the condition -/

/-- `size_` and the number of nodes on the list are at most `max_size_`. -/
structure Within (maxSize : UInt64) (s : State Thread P) : Prop where
  size : s.size ≤ maxSize
  linked : ∃ l, Path s.next s.head l none ∧ l.length ≤ maxSize.toNat

/-- The thread has put a node on the list and not counted it. -/
def Pc.owesAdd : Pc P → Bool
  | .addSize => true
  | _ => false

/-- The thread has taken a node off the list and still counts it. -/
def Pc.owesSub : Pc P → Bool
  | .subSize _ => true
  | _ => false

/-- The step keeps `size_` in touch with the list. -/
structure CountsInTime (maxSize : UInt64) (s : State Thread P) (a : Action Thread P) :
    Prop where
  /-- an exchange of `allocate` installs a part of the list -/
  installs : InstallsListed s a
  /-- a node that `deallocate` puts on the list has room -/
  room : ∀ t n, a = .run t → s.pc t = .casNode n → s.head = s.next n →
    s.size.toNat + headcount Pc.owesAdd s.pc < maxSize.toNat
  /-- `fetch_sub` finds something to subtract from -/
  counted : ∀ t h, a = .run t → s.pc t = .subSize h → s.size ≠ 0

/-! ## The counter and the list -/

/-- Every node of the list `l`, and every node just taken off it, is counted in
`size_` or about to be counted, and all of that is within the bound. -/
structure Counted (maxSize : UInt64) (s : State Thread P) (l : List P) : Prop where
  adding : (standing Pc.owesAdd s.pc).Finite
  subtracting : (standing Pc.owesSub s.pc).Finite
  covered : l.length + headcount Pc.owesSub s.pc ≤
    s.size.toNat + headcount Pc.owesAdd s.pc
  room : s.size.toNat + headcount Pc.owesAdd s.pc ≤ maxSize.toNat

variable [DecidableEq Thread] [DecidableEq P]
variable {maxSize : UInt64} {s s' : State Thread P} {l l' : List P}
  {holder holder' : P → Holder Thread}

section

omit [DecidableEq P]

/-- A thread moves from `k` to `k'`. -/
theorem Counted.move {t : Thread} {k k' : Pc P} (h : Counted maxSize s l)
    (hpc : s.pc t = k) (hpc' : s'.pc = Function.update s.pc t k')
    (hcovered : l'.length + s.size.toNat + k'.owesSub.toNat + k.owesAdd.toNat ≤
      l.length + s'.size.toNat + k.owesSub.toNat + k'.owesAdd.toNat)
    (hroom : s.size.toNat + headcount Pc.owesAdd s.pc ≤ maxSize.toNat →
      s'.size.toNat + headcount Pc.owesAdd s.pc + k'.owesAdd.toNat ≤
        maxSize.toNat + k.owesAdd.toNat) :
    Counted maxSize s' l' := by
  have hadds := headcount_update h.adding t k'
  have hsubs := headcount_update h.subtracting t k'
  have hcov := h.covered
  have hafter := hroom h.room
  rw [hpc] at hadds hsubs
  refine ⟨?_, ?_, ?_, ?_⟩ <;> rw [hpc']
  · exact standing_update_finite h.adding t k'
  · exact standing_update_finite h.subtracting t k'
  · omega
  · omega

/-- A thread moves between two places at which it owes nothing. -/
theorem Counted.still {t : Thread} {k k' : Pc P} (h : Counted maxSize s l)
    (hpc : s.pc t = k) (hpc' : s'.pc = Function.update s.pc t k')
    (hadd : k'.owesAdd = k.owesAdd) (hsub : k'.owesSub = k.owesSub)
    (hsize : s'.size = s.size) : Counted maxSize s' l := by
  refine h.move hpc hpc' ?_ fun hroom => ?_
  · rw [hadd, hsub, hsize]
  · rw [hadd, hsize]
    omega

end

theorem toNat_sub_one {x : UInt64} (hx : x ≠ 0) : (x - 1).toNat + 1 = x.toNat := by
  have hpos : 1 ≤ x.toNat := Nat.one_le_iff_ne_zero.mpr fun h => hx (UInt64.toNat_inj.mp h)
  have hle : (1 : UInt64) ≤ x := UInt64.le_iff_toNat_le.mpr hpos
  rw [UInt64.toNat_sub_of_le _ _ hle]
  exact Nat.sub_add_cancel hpos

theorem toNat_add_one {x y : UInt64} (hlt : x.toNat < y.toNat) :
    (x + 1).toNat = x.toNat + 1 := by
  have hy : y.toNat < 2 ^ 64 := y.toNat_lt
  rw [UInt64.toNat_add]
  exact Nat.mod_eq_of_lt (by have : (1 : UInt64).toNat = 1 := rfl; omega)

/-- The exchange of `allocate` shortens the list by one node at least. -/
theorem Counted.casHead {t : Thread} {h : P} {next : Option P}
    (hcount : Counted maxSize s l) (hinv : Inv s l holder)
    (hpc : s.pc t = .casHead h next) (hfound : s.head = some h)
    (hok : ∀ y, next = some y → ∃ x, s.next h = some x ∧ Reaches s.next x y)
    (hpath : Path s.next next l' none) :
    Counted maxSize ({ s with head := next }.goto t (.subSize h)) l' := by
  obtain ⟨rest, l'', rfl, hpath'', hsuffix⟩ := hinv.installed hfound hok
  have hle : l'.length ≤ rest.length := by
    rw [hpath.unique hpath'']
    exact hsuffix.length_le
  refine hcount.move hpc rfl ?_ fun hroom => ?_
  · simp only [State.goto, List.length_cons, Pc.owesAdd, Pc.owesSub, Bool.toNat_false,
      Bool.toNat_true]
    omega
  · simpa [State.goto, Pc.owesAdd] using hroom

section

omit [DecidableEq Thread]

/-- The list keeps its nodes in every step but the two successful exchanges. -/
theorem Inv.same_list (hinv : Inv s l holder) (hinv' : Inv s' l' holder')
    (hhead : s'.head = s.head) (hnext : ∀ n ∈ l, s.next n = s'.next n) : l' = l := by
  have hpath := hinv.path.congr hnext
  rw [← hhead] at hpath
  exact hinv'.path.unique hpath

/-- A write off the list. -/
theorem Inv.same_list_write (hinv : Inv s l holder) (hinv' : Inv s' l' holder')
    {n : P} {word : Option P} (hhead : s'.head = s.head)
    (hnext : s'.next = Function.update s.next n word) (hoff : n ∉ l) : l' = l := by
  refine hinv.same_list hinv' hhead fun m hm => ?_
  have hne : m ≠ n := fun heq => hoff (heq ▸ hm)
  rw [hnext, Function.update_of_ne hne]

end

/-- Every step that meets the condition keeps `size_` in touch with the list. -/
theorem Counted.step {a : Action Thread P} (hcount : Counted maxSize s l)
    (hinv : Inv s l holder) (hok : CountsInTime maxSize s a)
    (hstep : step maxSize s a = some s') :
    ∃ l' holder', Inv s' l' holder' ∧ Counted maxSize s' l' := by
  obtain ⟨l', holder', hinv'⟩ := hinv.step hok.installs hstep
  refine ⟨l', holder', hinv', ?_⟩
  have hkeep : ∀ {t : Thread} {k k' : Pc P}, s.pc t = k →
      s'.pc = Function.update s.pc t k' → k'.owesAdd = k.owesAdd → k'.owesSub = k.owesSub →
      s'.size = s.size → l' = l → Counted maxSize s' l' := by
    rintro t k k' hpc hpc' hadd hsub hsize rfl
    exact hcount.still hpc hpc' hadd hsub hsize
  cases step_move hstep with
  | allocate hpc => exact hkeep hpc rfl rfl rfl rfl (hinv.same_list hinv' rfl fun _ _ => rfl)
  | loadNull hpc => exact hkeep hpc rfl rfl rfl rfl (hinv.same_list hinv' rfl fun _ _ => rfl)
  | loadHead hpc => exact hkeep hpc rfl rfl rfl rfl (hinv.same_list hinv' rfl fun _ _ => rfl)
  | followNull hpc => exact hkeep hpc rfl rfl rfl rfl (hinv.same_list hinv' rfl fun _ _ => rfl)
  | readNext hpc => exact hkeep hpc rfl rfl rfl rfl (hinv.same_list hinv' rfl fun _ _ => rfl)
  | @remove t h next hpc hhead =>
      refine hcount.casHead hinv hpc hhead (fun y hy => ?_) hinv'.path
      exact hok.installs t h y rfl (by rw [hpc, hy]) hhead
  | retry hpc => exact hkeep hpc rfl rfl rfl rfl (hinv.same_list hinv' rfl fun _ _ => rfl)
  | spurious hpc => exact hkeep hpc rfl rfl rfl rfl (hinv.same_list hinv' rfl fun _ _ => rfl)
  | subSize hpc =>
      have hsame : l' = l := hinv.same_list hinv' rfl fun _ _ => rfl
      have hsize := toNat_sub_one (hok.counted _ _ rfl hpc)
      subst hsame
      refine hcount.move hpc rfl ?_ fun hroom => ?_ <;>
        simp only [State.goto, State.emit, Pc.owesAdd, Pc.owesSub, Bool.toNat_false,
          Bool.toNat_true] <;> omega
  | systemAllocate hpc =>
      exact hkeep hpc rfl rfl rfl rfl (hinv.same_list hinv' rfl fun _ _ => rfl)
  | deallocate hpc => exact hkeep hpc rfl rfl rfl rfl (hinv.same_list hinv' rfl fun _ _ => rfl)
  | full hpc => exact hkeep hpc rfl rfl rfl rfl (hinv.same_list hinv' rfl fun _ _ => rfl)
  | notFull hpc => exact hkeep hpc rfl rfl rfl rfl (hinv.same_list hinv' rfl fun _ _ => rfl)
  | systemDeallocate hpc =>
      exact hkeep hpc rfl rfl rfl rfl (hinv.same_list hinv' rfl fun _ _ => rfl)
  | loadForNext hpc => exact hkeep hpc rfl rfl rfl rfl (hinv.same_list hinv' rfl fun _ _ => rfl)
  | storeNext hpc =>
      exact hkeep hpc rfl rfl rfl rfl
        (hinv.same_list_write hinv' rfl rfl (hinv.held_off hpc rfl))
  | @insert t n hpc hhead =>
      have hroom := hok.room t n rfl hpc hhead
      have hpath : Path s.next (some n) (n :: l) none := ⟨rfl, hhead ▸ hinv.path⟩
      have hsame : l' = n :: l := hinv'.path.unique hpath
      refine hcount.move hpc rfl ?_ fun _ => ?_
      · rw [hsame]
        simp only [State.goto, List.length_cons, Pc.owesAdd, Pc.owesSub, Bool.toNat_false,
          Bool.toNat_true]
        omega
      · simp only [State.goto, Pc.owesAdd, Bool.toNat_false, Bool.toNat_true]
        omega
  | retryNode hpc =>
      obtain rfl := hinv.same_list_write hinv' rfl rfl (hinv.held_off hpc rfl)
      exact ⟨hcount.adding, hcount.subtracting, hcount.covered, hcount.room⟩
  | spuriousNode hpc =>
      obtain rfl := hinv.same_list_write hinv' rfl rfl (hinv.held_off hpc rfl)
      exact ⟨hcount.adding, hcount.subtracting, hcount.covered, hcount.room⟩
  | @addSize t hpc =>
      obtain rfl := hinv.same_list hinv' rfl fun _ _ => rfl
      have hroom := hcount.room
      have hadds := headcount_update hcount.adding t .idle
      rw [hpc] at hadds
      have hsize := toNat_add_one (x := s.size) (y := maxSize) (by
        simp only [Pc.owesAdd, Bool.toNat_true, Bool.toNat_false] at hadds
        omega)
      refine hcount.move hpc rfl ?_ fun _ => ?_ <;>
        simp only [State.goto, Pc.owesAdd, Pc.owesSub, Bool.toNat_false, Bool.toNat_true] <;>
        omega
  | write howner =>
      obtain rfl := hinv.same_list_write hinv' rfl rfl (hinv.owned_off howner)
      exact ⟨hcount.adding, hcount.subtracting, hcount.covered, hcount.room⟩

/-! ## The run -/

section

omit [DecidableEq Thread]

theorem prefill_size (nodes : List P) (s : State Thread P)
    (hroom : s.size.toNat + nodes.length < 2 ^ 64) :
    (nodes.foldl prefill s).size.toNat = s.size.toNat + nodes.length := by
  induction nodes generalizing s with
  | nil => rfl
  | cons n nodes ih =>
      rw [List.length_cons] at hroom ⊢
      have hone : (prefill s n).size.toNat = s.size.toNat + 1 := by
        rw [show (prefill s n).size = s.size + 1 from rfl, UInt64.toNat_add]
        exact Nat.mod_eq_of_lt (by have : (1 : UInt64).toNat = 1 := rfl; omega)
      rw [List.foldl_cons, ih (prefill s n) (by omega), hone]
      omega

/-- A new free list is full and counted. -/
theorem Counted.initial {next : P → Option P} {nodes : List P}
    (hlength : nodes.length = maxSize.toNat) (hl : l.length = nodes.length) :
    Counted maxSize (nodes.foldl prefill (empty next) : State Thread P) l := by
  have hpc := prefill_pc nodes (empty next : State Thread P)
  have hsize := prefill_size nodes (empty next : State Thread P) (by
    have := maxSize.toNat_lt
    rw [hlength]
    simpa [empty] using this)
  rw [show (empty next : State Thread P).size.toNat = 0 from rfl, Nat.zero_add] at hsize
  have hnone : ∀ p : Pc P → Bool, p .idle = false →
      ∀ t, p ((nodes.foldl prefill (empty next) : State Thread P).pc t) = false := by
    intro p hp t
    rw [hpc]
    exact hp
  have hadds := hnone Pc.owesAdd rfl
  have hsubs := hnone Pc.owesSub rfl
  refine ⟨?_, ?_, ?_, ?_⟩
  · rw [standing_eq_empty hadds]
    exact Set.finite_empty
  · rw [standing_eq_empty hsubs]
    exact Set.finite_empty
  · rw [headcount_eq_zero hadds, headcount_eq_zero hsubs, hsize, hl]
  · rw [headcount_eq_zero hadds, hsize, hlength]
    exact Nat.le_refl _

/-- What is counted is within the bound. -/
theorem Counted.within (hcount : Counted maxSize s l) (hinv : Inv s l holder) :
    Within maxSize s where
  size := by
    have := hcount.room
    rw [UInt64.le_iff_toNat_le]
    omega
  linked := by
    have hcov := hcount.covered
    have hroom := hcount.room
    exact ⟨l, hinv.path, by omega⟩

end

/-- The pool stays within its bound: in a run in which every exchange of
`allocate` installs a part of the list, every node that `deallocate` puts on the
list finds `size_`, with the nodes that are on the list and not counted yet,
below `max_size_`, and `size_` is not zero when it is lowered, neither `size_`
nor the list ever exceeds `max_size_`. -/
theorem within_bound
    (hreach : (machine maxSize).ReachableUnder (CountsInTime maxSize) s) :
    Within maxSize s := by
  obtain ⟨l, holder, hinv, hcount⟩ := hreach.invariant
    (I := fun s => ∃ l holder, Inv s l holder ∧ Counted maxSize s l)
    (by
      rintro s ⟨next, nodes, hnodup, hlength, rfl⟩
      have hempty : Inv (empty next : State Thread P) [] fun _ => .system :=
        Inv.empty next
      obtain ⟨l, holder, hinv, hl⟩ :=
        Inv.initial nodes hnodup hempty (fun _ => rfl) fun _ _ => rfl
      exact ⟨l, holder, hinv, Counted.initial hlength (by simpa using hl)⟩)
    (by
      rintro s a s' ⟨l, holder, hinv, hcount⟩ hok hstep
      exact hcount.step hinv hok hstep)
  exact hcount.within hinv

/-- The threads of a finite pool that have not counted their node. -/
def adding [Fintype Thread] (s : State Thread P) : ℕ :=
  (Finset.univ.filter fun t => (s.pc t).owesAdd).card

omit [DecidableEq Thread] [DecidableEq P] in
theorem headcount_eq_adding [Fintype Thread] (s : State Thread P) :
    headcount Pc.owesAdd s.pc = adding s := by
  rw [headcount, standing, Set.ncard_eq_toFinset_card']
  congr 1
  ext t
  simp

/-- The condition in a form that can be computed. -/
def countsNow [Fintype Thread] (maxSize : UInt64) (s : State Thread P)
    (a : Action Thread P) : Bool :=
  decide (ReadsCurrent s a) &&
    match a with
    | .run t =>
        match s.pc t with
        | .casNode _ => s.size.toNat + adding s < maxSize.toNat
        | .subSize _ => s.size ≠ 0
        | _ => true
    | _ => true

omit [DecidableEq Thread] in
theorem countsInTime_of_countsNow [Fintype Thread] {a : Action Thread P}
    (h : countsNow maxSize s a = true) : CountsInTime maxSize s a := by
  obtain ⟨hcurrent, hrest⟩ := Bool.and_eq_true_iff.mp h
  refine ⟨(of_decide_eq_true hcurrent).installsListed, ?_, ?_⟩
  · rintro t n rfl hpc -
    rw [headcount_eq_adding]
    simpa [hpc] using hrest
  · rintro t n rfl hpc
    simpa [hpc] using hrest

/-- Two threads take both nodes of the pool, and both give theirs back in calls
that overlap from the test to the count. -/
theorem within_bound_run : ∃ s : State (Fin 2) ℕ,
    (machine 2).ReachableUnder (CountsInTime 2) s ∧ s.size = 2 ∧
    s.trace = [.deallocated 1, .deallocated 0, .allocated 1, .allocated 0] ∧ Within 2 s := by
  obtain ⟨s, hrun, hsize, htrace⟩ : ∃ s : State (Fin 2) ℕ,
      (machine 2).execUnder (fun s a => countsNow 2 s a = true)
        ([1, 0].foldl prefill (empty fun _ => none))
        (soloAllocate 0 ++ soloAllocate 1 ++
          List.flatten [[.deallocate 0 0, .run 0, .deallocate 1 1, .run 1],
            List.replicate 3 (.run 0), List.replicate 3 (.run 1),
            [.run 0, .run 1]]) = some s ∧
      s.size = 2 ∧
      s.trace = [.deallocated 1, .deallocated 0, .allocated 1, .allocated 0] :=
    ⟨_, rfl, rfl, rfl⟩
  have hreach : (machine 2).ReachableUnder (CountsInTime 2) s :=
    .execUnder (fun _ _ => countsInTime_of_countsNow)
      (.start ⟨_, [1, 0], by decide, rfl, rfl⟩) hrun
  exact ⟨s, hreach, hsize, htrace, within_bound hreach⟩

/-- The counter after a thread has counted its node. -/
theorem addSize_step {t : Thread} (hpc : s.pc t = .addSize) :
    (machine maxSize).step s (.run t) =
      some ({ s with size := s.size + 1 }.goto t .idle) := by
  show step maxSize s (.run t) = _
  simp [step, hpc, stepAllocate, stepDeallocate]

/-- If the counter and the nodes that are not counted yet exceed the bound
together, the threads can go on to a counter above the bound. -/
theorem counts_up (hfin : (standing Pc.owesAdd s.pc).Finite)
    (hmax : maxSize.toNat + 1 < 2 ^ 64) (hsize : s.size.toNat ≤ maxSize.toNat)
    (hover : maxSize.toNat < s.size.toNat + headcount Pc.owesAdd s.pc) :
    ∃ as s', (machine maxSize).exec s as = some s' ∧ maxSize < s'.size := by
  -- induction on the room that is left, one count in each step
  induction hleft : maxSize.toNat + 1 - s.size.toNat generalizing s with
  | zero => omega
  | succ k ih =>
      obtain ⟨t, ht⟩ : ∃ t, Pc.owesAdd (s.pc t) = true := exists_of_headcount_pos (by omega)
      have hpc : s.pc t = .addSize := by
        cases hpc : s.pc t with
        | addSize => rfl
        | _ => rw [hpc] at ht; cases ht
      have hadds := headcount_update hfin t .idle
      rw [hpc] at hadds
      simp only [Pc.owesAdd, Bool.toNat_true, Bool.toNat_false, Nat.add_zero] at hadds
      set s₁ : State Thread P := { s with size := s.size + 1 }.goto t .idle with hs₁
      have hs₁pc : s₁.pc = Function.update s.pc t .idle := rfl
      have hs₁size : s₁.size.toNat = s.size.toNat + 1 := by
        rw [show s₁.size = s.size + 1 from rfl, UInt64.toNat_add]
        exact Nat.mod_eq_of_lt (by have : (1 : UInt64).toNat = 1 := rfl; omega)
      by_cases hlt : maxSize < s₁.size
      · exact ⟨[.run t], s₁, by rw [Machine.exec_of_step _ (addSize_step hpc)]; rfl, hlt⟩
      · rw [UInt64.not_lt, UInt64.le_iff_toNat_le] at hlt
        obtain ⟨as, s', hrun, hgt⟩ := ih (s := s₁)
          (by rw [hs₁pc]; exact standing_update_finite hfin t .idle) hlt
          (by rw [hs₁pc]; omega) (by omega)
        exact ⟨.run t :: as, s', by rw [Machine.exec_of_step _ (addSize_step hpc)]; exact hrun,
          hgt⟩

/-- The condition leaves out nothing harmless: once a node is put on the list
without room, letting the calls count their nodes leads over the bound. -/
theorem overfills {t : Thread} {n : P} (hcount : Counted maxSize s l)
    (hmax : maxSize.toNat + 1 < 2 ^ 64) (hpc : s.pc t = .casNode n)
    (hfound : s.head = s.next n)
    (hfull : maxSize.toNat ≤ s.size.toNat + headcount Pc.owesAdd s.pc) :
    ∃ as s', (machine maxSize).exec s (.run t :: as) = some s' ∧ ¬ Within maxSize s' := by
  have hstep : (machine maxSize).step s (.run t) =
      some ({ s with head := some n }.goto t .addSize) := by
    show step maxSize s (.run t) = _
    simp [step, hpc, stepAllocate, stepDeallocate, hfound]
  have hadds := headcount_update hcount.adding t .addSize
  rw [hpc] at hadds
  simp only [Pc.owesAdd, Bool.toNat_true, Bool.toNat_false, Nat.add_zero] at hadds
  have hroom := hcount.room
  obtain ⟨as, s', hrun, hgt⟩ : ∃ as s', (machine maxSize).exec
      ({ s with head := some n }.goto t .addSize) as = some s' ∧ maxSize < s'.size := counts_up
    (standing_update_finite hcount.adding t .addSize) hmax
    (by show s.size.toNat ≤ _; omega)
    (by show _ < s.size.toNat + headcount Pc.owesAdd (Function.update s.pc t .addSize); omega)
  refine ⟨as, s', by rw [Machine.exec_of_step _ hstep]; exact hrun, fun hwithin => ?_⟩
  exact absurd hwithin.size (UInt64.not_le.mpr hgt)

/-- Thread `0` takes the only node of the pool and thread `1` one of the system.
Both give their nodes back, and both find `size_` at zero: the list ends up with
two nodes. -/
theorem pool_overfills :
    ¬ ∀ s : State (Fin 2) ℕ, (machine 1).Reachable s → Within 1 s := by
  intro hclaim
  obtain ⟨s, hrun, hsize⟩ : ∃ s : State (Fin 2) ℕ,
      (machine 1).exec ([0].foldl prefill (empty fun _ => none))
        (soloAllocate 0 ++ List.flatten [[.allocate 1, .run 1, .system 1 1],
          [.deallocate 0 0, .run 0, .deallocate 1 1, .run 1],
          List.replicate 4 (.run 0), List.replicate 4 (.run 1)]) = some s ∧
      s.size = 2 := ⟨_, rfl, rfl⟩
  have hle := (hclaim s (.of_exec ⟨_, [0], by decide, rfl, rfl⟩ hrun)).size
  rw [hsize] at hle
  exact absurd hle (by decide)

end Freelist
end Lockfree
end Cyan

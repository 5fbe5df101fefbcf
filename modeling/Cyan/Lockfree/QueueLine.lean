import Mathlib.Data.List.Nodup
import Cyan.Lockfree.QueueEffect

/-!
# The queue over nodes that are never reused

When the pool hands out every node once, a pointer is a position: all nodes that have
ever been linked stand in one line, `head_` and `tail_` move along it, and every stale
pointer of a thread is a position behind them.  No bound on the number of exchanges is
needed, since an exchange that finds the old pointer finds the old position.

* `Line` is the invariant of the memory for given positions of `head_` and `tail_`, and
  `Threads` that of the threads.
* `Later` says what the threads may rely on when the positions move, and
  `Threads.step` leaves only the thread that moves to be checked.
* `InLine.local` is the rule for steps that leave the line alone.
-/

namespace Cyan
namespace Lockfree
namespace Queue

open Base

variable {Thread P T : Type*}

/-! ## The invariant -/

/-- The call of an enqueue that has not linked its node. -/
def Pc.asks : Pc P T → Option Nat
  | .allocate op _ => some op
  | .initNext op _ _ => some op
  | .initData op _ _ => some op
  | .loadTail op _ => some op
  | .loadNext op _ _ => some op
  | .recheckTail op _ _ _ => some op
  | .casNext op _ _ _ => some op
  | .helpTail op _ _ _ => some op
  | _ => none

/-- The node of an enqueue that has not linked it. -/
def Pc.own : Pc P T → Option P
  | .initNext _ _ n => some n
  | k => k.root

/-- `tail` was loaded from `tail_`, at a position of which `fact` holds. -/
def TailAt (s : State Thread P T) (row : List P) (l : Nat) (tail : TaggedPtr P)
    (fact : Nat → Prop) : Prop :=
  ∃ i, i ≤ l ∧ tail.ptr = row[i]? ∧ (i = l → s.tail = tail) ∧ fact i

/-- `head` was loaded from `head_`, at a position of which `fact` holds. -/
def HeadAt (row : List P) (h : Nat) (head : TaggedPtr P) (fact : Nat → Prop) : Prop :=
  ∃ j, j ≤ h ∧ head.ptr = row[j]? ∧ fact j

/-- `next` was loaded from the node at position `i`, when a field that is now at `at'`
was there. -/
def NextAt (row : List P) (at' i : Nat) (next : TaggedPtr P) : Prop :=
  i < at' ∨ next = ⟨none, 0⟩ ∨ next.ptr = row[i + 1]? ∧ i + 1 < row.length

/-- What the values that a thread has loaded still say. -/
def Sees (s : State Thread P T) (row : List P) (h l : Nat) : Pc P T → Prop
  | .loadNext _ _ tail => TailAt s row l tail fun _ => True
  | .recheckTail _ _ tail next => TailAt s row l tail fun i => NextAt row l i next
  | .casNext _ _ tail next => next = ⟨none, 0⟩ ∧ TailAt s row l tail fun _ => True
  | .reloadTail op n tail => TailAt s row l tail fun i =>
      row[i + 1]? = some n ∧ (s.heap n).op = op
  | .swingTail op tail newTail => TailAt s row l tail fun i =>
      ∃ n, row[i + 1]? = some n ∧ newTail.ptr = some n ∧ (s.heap n).op = op
  | .helpTail _ _ tail newTail => TailAt s row l tail fun i =>
      newTail.ptr = row[i + 1]? ∧ i + 1 < row.length
  | .loadTailAt _ _ head => HeadAt row h head fun _ => True
  | .loadHeadNext _ _ head tail => HeadAt row h head fun j =>
      TailAt s row l tail fun i => j ≤ i
  | .recheckHead _ _ head tail next => HeadAt row h head fun j =>
      NextAt row h j next ∧ TailAt s row l tail fun i => j ≤ i
  | .helpTailAt _ _ tail node => TailAt s row l tail fun i =>
      node.ptr = row[i + 1]? ∧ i + 1 < row.length
  | .moveData _ _ head next => HeadAt row h head fun j =>
      (NextAt row h j next) ∧ j < l
  | .casHead _ _ head next _ => HeadAt row h head fun j =>
      (NextAt row h j next) ∧ j < l
  | .deallocate _ _ _ n => ∃ j, j < h ∧ row[j]? = some n
  | _ => True

/-- The nodes that have been linked stand in `row`, in this order; `head_` is at
position `h` and `tail_` at position `l`. -/
structure Line (s : State Thread P T) (used : P → Bool) (row : List P) (h l : Nat) :
    Prop where
  nodup : row.Nodup
  head : s.head.ptr = row[h]?
  tail : s.tail.ptr = row[l]?
  le : h ≤ l
  lt : l < row.length
  next : ∀ {i p}, h ≤ i → row[i]? = some p → (s.heap p).next.ptr = row[i + 1]?
  tag : ∀ {i p}, row[i]? = some p → (s.heap p).next.tag = if i + 1 < row.length then 1 else 0
  used : ∀ p ∈ row, used p = true
  /-- the items behind the dummy are those that have been linked -/
  linked : ∀ {i p}, 0 < i → row[i]? = some p → .link (s.heap p).op ∈ s.trace
  /-- an enqueue has returned when `tail_` has reached its node -/
  returned : ∀ {op}, .retEnqueue op ∈ s.trace →
    ∃ i p, 0 < i ∧ i ≤ l ∧ row[i]? = some p ∧ (s.heap p).op = op
  /-- the items up to `head_` are those that have been taken -/
  taken : ∀ {i p}, 0 < i → i ≤ h → row[i]? = some p →
    ∃ d, .take d (s.heap p).op ∈ s.trace
  takes : ∀ {d op}, .take d op ∈ s.trace →
    ∃ i p, 0 < i ∧ i ≤ h ∧ row[i]? = some p ∧ (s.heap p).op = op
  /-- every item is in one node -/
  ops : ∀ {i j p q}, 0 < i → 0 < j → row[i]? = some p → row[j]? = some q →
    (s.heap p).op = (s.heap q).op → i = j
  old : ∀ {i p}, 0 < i → row[i]? = some p → (s.heap p).op < s.trace.length

/-- What holds of the threads. -/
structure Threads (s : State Thread P T) (used : P → Bool) (row : List P) (h l : Nat) :
    Prop where
  own : ∀ {t n}, (s.pc t).own = some n → used n = true ∧ n ∉ row
  one : ∀ {t u n}, (s.pc t).own = some n → (s.pc u).own = some n → t = u
  built : ∀ {t n}, (s.pc t).root = some n →
    (s.heap n).next = ⟨none, 0⟩ ∧ (s.pc t).asks = some (s.heap n).op
  asks : ∀ {t op}, (s.pc t).asks = some op → op < s.trace.length ∧
    ∀ i p, 0 < i → row[i]? = some p → (s.heap p).op ≠ op
  asksOne : ∀ {t u op}, (s.pc t).asks = some op → (s.pc u).asks = some op → t = u
  sees : ∀ t, Sees s row h l (s.pc t)

variable [DecidableEq Thread] [DecidableEq P]
variable {s s' : State Thread P T} {used used' : P → Bool} {row row' : List P}
variable {h h' l l' : Nat}

omit [DecidableEq P] in
theorem Pc.own_of_root {k : Pc P T} {n : P} (hroot : k.root = some n) :
    k.own = some n := by
  cases k <;> first | exact hroot | cases hroot

/-! ## Positions only move forward -/

/-- What a step may do to what the threads have seen. -/
structure Later (s : State Thread P T) (row : List P) (h l : Nat)
    (s' : State Thread P T) (row' : List P) (h' l' : Nat) : Prop where
  grows : row <+: row'
  head : h ≤ h'
  tail : l ≤ l'
  tail_eq : l' = l → s'.tail = s.tail
  op : ∀ p ∈ row, (s'.heap p).op = (s.heap p).op

namespace Later

section

omit [DecidableEq Thread] [DecidableEq P]

theorem get (hlater : Later s row h l s' row' h' l') {i : Nat}
    (hi : i < row.length) : row'[i]? = row[i]? := by
  obtain ⟨rest, rfl⟩ := hlater.grows
  exact List.getElem?_append_left hi

theorem length_le (hlater : Later s row h l s' row' h' l') :
    row.length ≤ row'.length :=
  hlater.grows.length_le

theorem tailAt (hlater : Later s row h l s' row' h' l') (hl : l < row.length)
    {tail : TaggedPtr P} {fact fact' : Nat → Prop} (hat : TailAt s row l tail fact)
    (hfact : ∀ i, i ≤ l → fact i → fact' i) : TailAt s' row' l' tail fact' := by
  obtain ⟨i, hi, hptr, hnow, hf⟩ := hat
  refine ⟨i, Nat.le_trans hi hlater.tail, ?_, fun heq => ?_, hfact i hi hf⟩
  · rw [hlater.get (by omega)]
    exact hptr
  · have hl' := hlater.tail
    rw [hlater.tail_eq (by omega)]
    exact hnow (by omega)

theorem headAt (hlater : Later s row h l s' row' h' l') (hh : h < row.length)
    {head : TaggedPtr P} {fact fact' : Nat → Prop} (hat : HeadAt row h head fact)
    (hfact : ∀ j, j ≤ h → fact j → fact' j) : HeadAt row' h' head fact' := by
  obtain ⟨j, hj, hptr, hf⟩ := hat
  refine ⟨j, Nat.le_trans hj hlater.head, ?_, hfact j hj hf⟩
  rw [hlater.get (by omega)]
  exact hptr

theorem nextAt (hlater : Later s row h l s' row' h' l') {m m' i : Nat}
    {next : TaggedPtr P} (hm : m ≤ m') (hat : NextAt row m i next) :
    NextAt row' m' i next := by
  rcases hat with hback | hnull | ⟨hptr, hlt⟩
  · exact .inl (by omega)
  · exact .inr (.inl hnull)
  · refine .inr (.inr ⟨?_, Nat.lt_of_lt_of_le hlt hlater.length_le⟩)
    rw [hlater.get hlt]
    exact hptr

/-- What a thread sees stays so. -/
theorem sees (hlater : Later s row h l s' row' h' l') (hh : h < row.length)
    (hl : l < row.length) {k : Pc P T} (hk : Sees s row h l k) : Sees s' row' h' l' k := by
  have hnode : ∀ {i : Nat} {n : P}, row[i]? = some n →
      row'[i]? = some n ∧ (s'.heap n).op = (s.heap n).op := by
    intro i n hn
    have hi : i < row.length := (List.getElem?_eq_some_iff.mp hn).1
    exact ⟨(hlater.get hi).trans hn, hlater.op n (List.mem_of_getElem? hn)⟩
  have hnext : ∀ {i : Nat} {ptr : Option P}, ptr = row[i + 1]? ∧ i + 1 < row.length →
      ptr = row'[i + 1]? ∧ i + 1 < row'.length := by
    rintro i ptr ⟨hptr, hlt⟩
    exact ⟨hptr.trans (hlater.get hlt).symm, Nat.lt_of_lt_of_le hlt hlater.length_le⟩
  cases k with
  | loadNext op n tail => exact hlater.tailAt hl hk fun _ _ _ => trivial
  | recheckTail op n tail next =>
      exact hlater.tailAt hl hk fun i _ hf => hlater.nextAt hlater.tail hf
  | casNext op n tail next => exact ⟨hk.1, hlater.tailAt hl hk.2 fun _ _ _ => trivial⟩
  | reloadTail op n tail =>
      refine hlater.tailAt hl hk fun i _ hf => ?_
      obtain ⟨hn, hop⟩ := hnode hf.1
      exact ⟨hn, hop.trans hf.2⟩
  | swingTail op tail newTail =>
      refine hlater.tailAt hl hk fun i _ ⟨n, hn, hptr, hown⟩ => ?_
      obtain ⟨hn, hop⟩ := hnode hn
      exact ⟨n, hn, hptr, hop.trans hown⟩
  | helpTail op n tail newTail => exact hlater.tailAt hl hk fun i _ hf => hnext hf
  | loadTailAt op value head => exact hlater.headAt hh hk fun _ _ _ => trivial
  | loadHeadNext op value head tail =>
      exact hlater.headAt hh hk fun j _ hf => hlater.tailAt hl hf fun _ _ hle => hle
  | recheckHead op value head tail next =>
      exact hlater.headAt hh hk fun j _ hf =>
        ⟨hlater.nextAt hlater.head hf.1, hlater.tailAt hl hf.2 fun _ _ hle => hle⟩
  | helpTailAt op value tail node => exact hlater.tailAt hl hk fun i _ hf => hnext hf
  | moveData op value head next =>
      exact hlater.headAt hh hk fun j _ hf =>
        ⟨hlater.nextAt hlater.head hf.1, Nat.lt_of_lt_of_le hf.2 hlater.tail⟩
  | casHead op value head next old =>
      exact hlater.headAt hh hk fun j _ hf =>
        ⟨hlater.nextAt hlater.head hf.1, Nat.lt_of_lt_of_le hf.2 hlater.tail⟩
  | deallocate op value item n =>
      obtain ⟨j, hj, hn⟩ := hk
      exact ⟨j, Nat.lt_of_lt_of_le hj hlater.head, (hnode hn).1⟩
  | _ => trivial

end

end Later

/-! ## The threads that do not move -/

omit [DecidableEq P] in
/-- The facts about the thread that moves are enough. -/
theorem Threads.step {t : Thread} (hline : Line s used row h l)
    (hthreads : Threads s used row h l) (hlater : Later s row h l s' row' h' l')
    (hpc : ∀ u, u ≠ t → s'.pc u = s.pc u) (hused : ∀ n, used n = true → used' n = true)
    (htrace : s.trace.length ≤ s'.trace.length)
    (hkeep : ∀ n, n ∉ row → (s.pc t).own ≠ some n →
      (s'.heap n).next = (s.heap n).next ∧ (s'.heap n).op = (s.heap n).op)
    (hnew : ∀ (i : Nat) p, row'[i]? = some p → row[i]? = some p ∨
      (s.pc t).own = some p ∧ (s.pc t).asks = some (s'.heap p).op)
    (hown : ∀ n, (s'.pc t).own = some n → used' n = true ∧ n ∉ row' ∧
      ((s.pc t).own = some n ∨ used n = false))
    (hbuilt : ∀ n, (s'.pc t).root = some n →
      (s'.heap n).next = ⟨none, 0⟩ ∧ (s'.pc t).asks = some (s'.heap n).op)
    (hasks : ∀ op, (s'.pc t).asks = some op → op < s'.trace.length ∧
      (∀ (i : Nat) p, 0 < i → row'[i]? = some p → (s'.heap p).op ≠ op) ∧
      ((s.pc t).asks = some op ∨ s.trace.length ≤ op))
    (hsees : Sees s' row' h' l' (s'.pc t)) : Threads s' used' row' h' l' := by
  -- the node of another thread is neither linked nor written
  have hother : ∀ {u n}, u ≠ t → (s.pc u).own = some n → n ∉ row' ∧
      (s'.heap n).next = (s.heap n).next ∧ (s'.heap n).op = (s.heap n).op := by
    intro u n hu hn
    have hoff := (hthreads.own hn).2
    have hmine : (s.pc t).own ≠ some n := fun ht => hu (hthreads.one hn ht)
    refine ⟨fun hmem => ?_, hkeep n hoff hmine⟩
    obtain ⟨i, hi⟩ := List.mem_iff_getElem?.mp hmem
    rcases hnew i n hi with hold | ⟨hn', -⟩
    · exact hoff (List.mem_of_getElem? hold)
    · exact hmine hn'
  have hclash : ∀ {u n}, u ≠ t → (s.pc u).own = some n → (s'.pc t).own ≠ some n := by
    intro u n hu hn hn'
    rcases (hown n hn').2.2 with hmine | hfresh
    · exact hu (hthreads.one hn hmine)
    · rw [(hthreads.own hn).1] at hfresh
      cases hfresh
  have hclashAsks : ∀ {u op}, u ≠ t → (s.pc u).asks = some op →
      (s'.pc t).asks ≠ some op := by
    intro u op hu hop hop'
    rcases (hasks op hop').2.2 with hmine | hfresh
    · exact hu (hthreads.asksOne hop hmine)
    · exact absurd (hthreads.asks hop).1 (by omega)
  refine {
    own := fun {u n} hn => ?_, one := fun {u v n} hn hn' => ?_
    built := fun {u n} hn => ?_, asks := fun {u op} hop => ?_
    asksOne := fun {u v op} hop hop' => ?_, sees := fun u => ?_ }
  · by_cases hu : u = t
    · subst hu
      exact ⟨(hown n hn).1, (hown n hn).2.1⟩
    · rw [hpc u hu] at hn
      exact ⟨hused n (hthreads.own hn).1, (hother hu hn).1⟩
  · by_cases hu : u = t
    · by_cases hv : v = t
      · rw [hu, hv]
      · subst hu
        rw [hpc v hv] at hn'
        exact absurd hn (hclash hv hn')
    · rw [hpc u hu] at hn
      by_cases hv : v = t
      · subst hv
        exact absurd hn' (hclash hu hn)
      · rw [hpc v hv] at hn'
        exact hthreads.one hn hn'
  · by_cases hu : u = t
    · subst hu
      exact hbuilt n hn
    · rw [hpc u hu] at hn ⊢
      obtain ⟨-, hnext, hop⟩ := hother hu (Pc.own_of_root hn)
      rw [hnext, hop]
      exact hthreads.built hn
  · by_cases hu : u = t
    · subst hu
      exact ⟨(hasks op hop).1, (hasks op hop).2.1⟩
    · rw [hpc u hu] at hop
      obtain ⟨hlt, hfresh⟩ := hthreads.asks hop
      refine ⟨by omega, fun i p hi hp heq => ?_⟩
      rcases hnew i p hp with hold | ⟨-, hmine⟩
      · rw [hlater.op p (List.mem_of_getElem? hold)] at heq
        exact hfresh i p hi hold heq
      · rw [heq] at hmine
        exact hu (hthreads.asksOne hop hmine)
  · by_cases hu : u = t
    · by_cases hv : v = t
      · rw [hu, hv]
      · subst hu
        rw [hpc v hv] at hop'
        exact absurd hop (hclashAsks hv hop')
    · rw [hpc u hu] at hop
      by_cases hv : v = t
      · subst hv
        exact absurd hop' (hclashAsks hu hop)
      · rw [hpc v hv] at hop'
        exact hthreads.asksOne hop hop'
  · by_cases hu : u = t
    · subst hu
      exact hsees
    · rw [hpc u hu]
      exact hlater.sees (Nat.lt_of_le_of_lt hline.le hline.lt) hline.lt (hthreads.sees u)

/-! ## Steps that leave the line alone -/

/-- The line and the threads. -/
structure InLine (s : State Thread P T) (used : P → Bool) (row : List P) (h l : Nat) :
    Prop where
  shape : Line s used row h l
  threads : Threads s used row h l

/-- An event that the line does not speak of. -/
def Event.silent : Event T → Bool
  | .link _ => false
  | .retEnqueue _ => false
  | .take _ _ => false
  | _ => true

theorem Event.mem_cons_of_silent {e x : Event T} {tr : List (Event T)}
    (he : e.silent = true) (hx : x.silent = false) : x ∈ e :: tr ↔ x ∈ tr := by
  refine ⟨fun hmem => (List.mem_cons.mp hmem).resolve_left ?_, List.mem_cons_of_mem _⟩
  rintro rfl
  rw [he] at hx
  cases hx

/-- The memory as far as the line can tell: only a node in front of `head_` may lose its
pointer. -/
structure Alike (s : State Thread P T) (row : List P) (h : Nat) (s' : State Thread P T) :
    Prop where
  head : s'.head = s.head
  tail : s'.tail = s.tail
  op : ∀ p ∈ row, (s'.heap p).op = (s.heap p).op
  tag : ∀ p ∈ row, (s'.heap p).next.tag = (s.heap p).next.tag
  ptr : ∀ p ∈ row, (∀ i, i < h → row[i]? ≠ some p) →
    (s'.heap p).next.ptr = (s.heap p).next.ptr
  trace : s'.trace = s.trace ∨ ∃ e : Event T, e.silent = true ∧ s'.trace = e :: s.trace

namespace Alike

section

omit [DecidableEq Thread] [DecidableEq P]

theorem later (halike : Alike s row h s') : Later s row h l s' row h l :=
  ⟨List.prefix_refl row, Nat.le_refl h, Nat.le_refl l, fun _ => halike.tail,
    halike.op⟩

theorem length_le (halike : Alike s row h s') : s.trace.length ≤ s'.trace.length := by
  rcases halike.trace with htrace | ⟨e, -, htrace⟩
  · exact Nat.le_of_eq (congrArg List.length htrace.symm)
  · rw [htrace]
    exact Nat.le_succ _

theorem mem_trace (halike : Alike s row h s') {x : Event T} (hx : x.silent = false) :
    x ∈ s'.trace ↔ x ∈ s.trace := by
  rcases halike.trace with htrace | ⟨e, he, htrace⟩
  · rw [htrace]
  · rw [htrace]
    exact Event.mem_cons_of_silent he hx

end

omit [DecidableEq Thread] [DecidableEq P] in
theorem keeps (halike : Alike s row h s') (hline : Line s used row h l)
    (hused : ∀ n, used n = true → used' n = true) : Line s' used' row h l := by
  have hop : ∀ {i : Nat} {p}, row[i]? = some p → (s'.heap p).op = (s.heap p).op :=
    fun hp => halike.op _ (List.mem_of_getElem? hp)
  have hptr : ∀ {i p}, h ≤ i → row[i]? = some p →
      (s'.heap p).next.ptr = (s.heap p).next.ptr := by
    intro i p hi hp
    refine halike.ptr p (List.mem_of_getElem? hp) fun j hj hjp => ?_
    have hlt : i < row.length := (List.getElem?_eq_some_iff.mp hp).1
    have : j = i := (List.getElem?_inj (by omega) hline.nodup).mp (hjp.trans hp.symm)
    omega
  exact {
    nodup := hline.nodup
    head := halike.head ▸ hline.head
    tail := halike.tail ▸ hline.tail
    le := hline.le
    lt := hline.lt
    next := fun hi hp => (hptr hi hp).trans (hline.next hi hp)
    tag := fun hp => (halike.tag _ (List.mem_of_getElem? hp)).trans (hline.tag hp)
    used := fun p hp => hused p (hline.used p hp)
    linked := fun hi hp => by
      rw [hop hp, halike.mem_trace rfl]
      exact hline.linked hi hp
    returned := fun hmem => by
      rw [halike.mem_trace rfl] at hmem
      obtain ⟨i, p, hi, hil, hp, heq⟩ := hline.returned hmem
      exact ⟨i, p, hi, hil, hp, (hop hp).trans heq⟩
    taken := fun hi hih hp => by
      obtain ⟨d, hd⟩ := hline.taken hi hih hp
      rw [hop hp]
      exact ⟨d, (halike.mem_trace rfl).mpr hd⟩
    takes := fun hmem => by
      rw [halike.mem_trace rfl] at hmem
      obtain ⟨i, p, hi, hih, hp, heq⟩ := hline.takes hmem
      exact ⟨i, p, hi, hih, hp, (hop hp).trans heq⟩
    ops := fun hi hj hp hq heq => by
      rw [hop hp, hop hq] at heq
      exact hline.ops hi hj hp hq heq
    old := fun hi hp => by
      rw [hop hp]
      exact Nat.lt_of_lt_of_le (hline.old hi hp) halike.length_le }

end Alike

section

omit [DecidableEq P]

/-- A thread moves on, and the memory stays as it is. -/
theorem InLine.local {t : Thread} {k : Pc P T} (hin : InLine s used row h l)
    (halike : Alike s row h s') (hpc : s'.pc = Function.update s.pc t k)
    (hkeep : ∀ p, p ∉ row → (s'.heap p).next = (s.heap p).next ∧
      (s'.heap p).op = (s.heap p).op)
    (hown : k.own = (s.pc t).own ∨ k.own = none)
    (hasks : k.asks = (s.pc t).asks ∨ k.asks = none ∨
      k.asks = some s.trace.length ∧ s.trace.length < s'.trace.length)
    (hbuilt : ∀ n, k.root = some n →
      (s.heap n).next = ⟨none, 0⟩ ∧ k.asks = some (s.heap n).op)
    (hsees : Sees s row h l k) : InLine s' used row h l := by
  have hself : s'.pc t = k := by
    rw [hpc, Function.update_self]
  have hfresh : ∀ {op i p}, (s.heap p).op ≠ op → row[i]? = some p →
      (s'.heap p).op ≠ op :=
    fun hne hp heq => hne ((halike.op _ (List.mem_of_getElem? hp)).symm.trans heq)
  refine ⟨halike.keeps hin.shape fun _ hn => hn,
    hin.threads.step (t := t) hin.shape halike.later ?_ (fun _ hn => hn) halike.length_le
      (fun n hn _ => hkeep n hn) (fun i p hp => .inl hp) ?_ ?_ ?_ ?_⟩
  · intro u hu
    rw [hpc, Function.update_of_ne hu]
  · rw [hself]
    intro n hn
    rcases hown with heq | hnone
    · rw [heq] at hn
      exact ⟨(hin.threads.own hn).1, (hin.threads.own hn).2, .inl hn⟩
    · rw [hnone] at hn
      cases hn
  · rw [hself]
    intro n hn
    have hmine : n ∉ row := by
      rcases hown with heq | hnone
      · exact (hin.threads.own (heq ▸ Pc.own_of_root hn)).2
      · rw [Pc.own_of_root hn] at hnone
        cases hnone
    rw [(hkeep n hmine).1, (hkeep n hmine).2]
    exact hbuilt n hn
  · rw [hself]
    intro op hop
    rcases hasks with heq | hnone | ⟨hnew, hlt⟩
    · rw [heq] at hop
      obtain ⟨hlt, hne⟩ := hin.threads.asks hop
      exact ⟨Nat.lt_of_lt_of_le hlt halike.length_le,
        fun i p hi hp => hfresh (hne i p hi hp) hp, .inl hop⟩
    · rw [hnone] at hop
      cases hop
    · rw [hnew] at hop
      cases hop
      exact ⟨hlt, fun i p hi hp => hfresh (Nat.ne_of_lt (hin.shape.old hi hp)) hp,
        .inr (Nat.le_refl _)⟩
  · rw [hself]
    exact halike.later.sees (Nat.lt_of_le_of_lt hin.shape.le hin.shape.lt) hin.shape.lt hsees

theorem Alike.goto (row : List P) (h : Nat) (t : Thread) (k : Pc P T) :
    Alike s row h (s.goto t k) :=
  ⟨rfl, rfl, fun _ _ => rfl, fun _ _ => rfl, fun _ _ _ => rfl, .inl rfl⟩

/-- A thread moves on within its call. -/
theorem InLine.goto {t : Thread} {k : Pc P T} (hin : InLine s used row h l)
    (hroot : k.root = (s.pc t).root) (hown : k.own = (s.pc t).own)
    (hasks : k.asks = (s.pc t).asks) (hsees : Sees s row h l k) :
    InLine (s.goto t k) used row h l := by
  refine hin.local (.goto row h t k) rfl (fun _ _ => ⟨rfl, rfl⟩) (.inl hown) (.inl hasks)
    (fun n hn => ?_) hsees
  rw [hasks]
  exact hin.threads.built (hroot ▸ hn)

/-- A thread moves on and leaves its enqueue behind. -/
theorem InLine.leave {t : Thread} {k : Pc P T} (hin : InLine s used row h l)
    (halike : Alike s row h s') (hpc : s'.pc = Function.update s.pc t k)
    (hkeep : ∀ p, p ∉ row → (s'.heap p).next = (s.heap p).next ∧
      (s'.heap p).op = (s.heap p).op)
    (hown : k.own = none) (hasks : k.asks = none) (hsees : Sees s row h l k) :
    InLine s' used row h l := by
  refine hin.local halike hpc hkeep (.inr hown) (.inr (.inl hasks)) (fun n hn => ?_) hsees
  rw [Pc.own_of_root hn] at hown
  cases hown

end

end Queue
end Lockfree
end Cyan

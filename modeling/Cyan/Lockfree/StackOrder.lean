import Mathlib.Data.Multiset.MapFold
import Cyan.Base.Tickets
import Cyan.Lockfree.Stack

/-!
# The stack is last-in first-out

`try_pop` exchanges the bare pointer `head_` for a successor that it has read
earlier.  As long as that successor is still the successor of the head when the
exchange succeeds, the chain behind `head_` is exactly what has been pushed and
neither popped nor cleared.

* `Lifo` states this on the trace, together with the conservation of items.
* `ReadsCurrent` is the condition on a step.
* `Memory` ties the chain to the trace and gives every node one holder;
  `Records` keeps the identities of the calls apart.
* `stack_lifo` holds for every run that keeps to the condition, and `popped_twice` is
  a run that breaks it.
-/

namespace Cyan
namespace Lockfree
namespace Stack

open Base

variable {Thread P T : Type*} [DecidableEq Thread] [DecidableEq P]
variable {s s' : State Thread P T}

/-! ## What the trace says -/

/-- The calls of `push` and `emplace` with their values. -/
def calls (tr : List (Event P T)) : List (Nat × T) :=
  tr.filterMap fun
    | .callPush op value => some (op, value)
    | _ => none

/-- The calls whose push has taken effect. -/
def pushes (tr : List (Event P T)) : List Nat :=
  tr.filterMap fun
    | .pushed op _ => some op
    | _ => none

/-- The items that a `try_pop` has taken. -/
def pops (tr : List (Event P T)) : List Nat :=
  tr.filterMap fun
    | .popped _ item _ => some item
    | _ => none

/-- The items that successful calls of `try_pop` have returned. -/
def returns (tr : List (Event P T)) : List Nat :=
  tr.filterMap fun
    | .retPop _ (some item) _ => some item
    | _ => none

/-- The items and nodes that have been pushed and neither popped nor cleared,
in reverse order of their push. -/
def contents : List (Event P T) → List (Nat × P)
  | [] => []
  | .pushed op n :: tr => (op, n) :: contents tr
  | .popped _ _ n :: tr => (contents tr).filter fun x => x.2 ≠ n
  | .cleared _ :: _ => []
  | _ :: tr => contents tr

/-- The items that a `clear` has taken. -/
def sweeps : List (Event P T) → List Nat
  | [] => []
  | .cleared _ :: tr => (contents tr).map Prod.fst ++ sweeps tr
  | _ :: tr => sweeps tr

/-- The successor function of the memory. -/
def nextPtr (s : State Thread P T) (p : P) : Option P :=
  (s.heap p).next

/-- Last-in first-out, and nothing lost or duplicated. -/
structure Lifo (s : State Thread P T) : Prop where
  /-- the chain is what has been pushed and neither popped nor cleared -/
  chain : Path (nextPtr s) s.head ((contents s.trace).map Prod.snd) none
  acyclic : ((contents s.trace).map Prod.snd).Nodup
  /-- a node of the chain holds the value of the call that pushed it -/
  values : ∀ x ∈ contents s.trace, (x.1, (s.heap x.2).data) ∈ calls s.trace
  /-- a pop takes the newest item -/
  newest : ∀ d item n l, (.popped d item n :: l) <:+ s.trace →
    (contents l).head? = some (item, n)
  /-- no call pushes twice, and every pushed item has been popped once, has been
  cleared once, or is still there -/
  once : (pushes s.trace).Nodup
  balance : (pushes s.trace : Multiset Nat) = ↑(pops s.trace) +
    ↑(sweeps s.trace) + ↑((contents s.trace).map Prod.fst)
  /-- no item is returned twice, and every returned value was pushed -/
  returned : (returns s.trace).Nodup ∧ ∀ d item value,
    .retPop d (some item) value ∈ s.trace →
      item ∈ pops s.trace ∧ (item, value) ∈ calls s.trace

/-- The head and the successor that `try_pop` has read for its exchange. -/
def Pc.expected : Pc P T → Option (P × Option P)
  | .casPop _ _ head next => some (head, next)
  | _ => none

/-- If the step is a successful exchange of `try_pop`, the successor of the head
is still the one that was read. -/
def ReadsCurrent (s : State Thread P T) : Action Thread P T → Prop
  | .run t => ∀ x ∈ (s.pc t).expected, s.head = some x.1 → nextPtr s x.1 = x.2
  | _ => True

instance (s : State Thread P T) : (a : Action Thread P T) → Decidable (ReadsCurrent s a)
  | .run t => inferInstanceAs (Decidable (∀ x ∈ (s.pc t).expected, _ → _ = _))
  | .push _ _ => isTrue trivial
  | .emplace _ _ => isTrue trivial
  | .tryPop _ _ => isTrue trivial
  | .clear _ => isTrue trivial
  | .spurious _ => isTrue trivial
  | .allocate _ _ => isTrue trivial
  | .deallocate _ _ => isTrue trivial

/-! ## Records -/

/-- A pop takes the item and node on top. -/
def Justified (tr : List (Event P T)) : Event P T → Prop
  | .popped _ item n => ∃ rest, contents tr = (item, n) :: rest ∧
      ∀ x ∈ rest, x.2 ≠ n
  | _ => True

/-- Every pop of the trace takes what is on top. -/
def Orderly : List (Event P T) → Prop
  | [] => True
  | e :: tr => Justified tr e ∧ Orderly tr

theorem Orderly.justified {tr l : List (Event P T)} {e : Event P T}
    (h : Orderly tr) (hsuffix : (e :: l) <:+ tr) : Justified l e := by
  induction tr with
  | nil => exact absurd (List.suffix_nil.mp hsuffix) (by simp)
  | cons a tr ih =>
      rcases List.suffix_cons_iff.mp hsuffix with heq | hsuffix
      · cases heq
        exact h.1
      · exact ih h.2 hsuffix

/-- Taking the top leaves the rest. -/
theorem contents_popped {tr : List (Event P T)} {op item : Nat} {n : P}
    {rest : List (Nat × P)} (htop : contents tr = (item, n) :: rest)
    (hrest : ∀ x ∈ rest, x.2 ≠ n) :
    contents (.popped op item n :: tr) = rest := by
  rw [contents, htop]
  simpa using hrest

/-- Every item that was pushed has gone to one place. -/
theorem Orderly.balance {tr : List (Event P T)} (h : Orderly tr) :
    (pushes tr).Perm (pops tr ++ sweeps tr ++ (contents tr).map Prod.fst) := by
  induction tr with
  | nil => exact .refl _
  | cons e tr ih =>
      obtain ⟨hjust, htr⟩ := h
      have hrec := ih htr
      cases e with
      | pushed op n =>
          refine (hrec.cons op).trans ?_
          exact List.perm_middle.symm
      | popped op item n =>
          obtain ⟨rest, htop, hne⟩ := hjust
          rw [htop] at hrec
          show (pushes tr).Perm _
          rw [contents_popped htop hne]
          refine hrec.trans ?_
          exact List.perm_middle
      | cleared op =>
          refine hrec.trans ?_
          show (pops tr ++ sweeps tr ++ (contents tr).map Prod.fst).Perm
            (pops tr ++ ((contents tr).map Prod.fst ++ sweeps tr) ++ [])
          rw [List.append_nil, List.append_assoc]
          exact List.perm_append_comm.append_left _
      | _ => exact hrec

/-- The event starts no push, takes no item and returns none. -/
def Event.Neutral : Event P T → Prop
  | .callPush _ _ => False
  | .pushed _ _ => False
  | .popped _ _ _ => False
  | .retPop _ (some _) _ => False
  | _ => True

/-- The call whose push has not taken effect yet. -/
def Pc.pushing : Pc P T → Option Nat
  | .allocate op _ => some op
  | .initNext op _ _ => some op
  | .initData op _ _ => some op
  | .loadForNext op _ => some op
  | .storeNext op _ _ => some op
  | .casPush op _ => some op
  | _ => none

/-- The item that a `try_pop` has taken and not returned yet. -/
def Pc.held : Pc P T → Option Nat
  | .moveData _ _ item _ => some item
  | .deallocate _ _ item _ => some item
  | _ => none

/-- The identities of calls and items: each is used once. -/
structure Records (s : State Thread P T) : Prop where
  orderly : Orderly s.trace
  pushing : Tickets (Pc.pushing ∘ s.pc) (pushes s.trace)
  pushing_lt : ∀ t op, (s.pc t).pushing = some op → op < s.trace.length
  pushes_lt : ∀ op ∈ pushes s.trace, op < s.trace.length
  held : Tickets (Pc.held ∘ s.pc) (returns s.trace)
  held_popped : ∀ t item, (s.pc t).held = some item → item ∈ pops s.trace
  returns_popped : ∀ item ∈ returns s.trace, item ∈ pops s.trace
  values : ∀ d item value, .retPop d (some item) value ∈ s.trace →
    (item, value) ∈ calls s.trace

/-- Neutral events do not show in the records. -/
theorem neutral_append (tr : List (Event P T)) {l : List (Event P T)}
    (hl : ∀ e ∈ l, e.Neutral) :
    calls (l ++ tr) = calls tr ∧ pushes (l ++ tr) = pushes tr ∧
      pops (l ++ tr) = pops tr ∧ returns (l ++ tr) = returns tr ∧
      (Orderly tr → Orderly (l ++ tr)) ∧
      ∀ d item value, .retPop d (some item) value ∈ l ++ tr →
        .retPop d (some item) value ∈ tr := by
  induction l with
  | nil => exact ⟨rfl, rfl, rfl, rfl, id, fun _ _ _ => id⟩
  | cons e l ih =>
      obtain ⟨h₁, h₂, h₃, h₄, h₅, h₆⟩ := ih fun e he => hl e (List.mem_cons_of_mem _ he)
      have he := hl e List.mem_cons_self
      have hret : ∀ d item value, .retPop d (some item) value ∈ e :: (l ++ tr) →
          e ≠ .retPop d (some item) value → .retPop d (some item) value ∈ tr := by
        intro d item value hmem hne
        rcases List.mem_cons.mp hmem with rfl | hold
        · exact absurd rfl hne
        · exact h₆ d item value hold
      cases e with
      | callPush op value => exact he.elim
      | pushed op n => exact he.elim
      | popped op item n => exact he.elim
      | retPop op taken value =>
          cases taken with
          | some item => exact he.elim
          | none =>
              exact ⟨h₁, h₂, h₃, h₄, fun h => ⟨trivial, h₅ h⟩,
                fun d item v hmem => hret d item v hmem (by simp)⟩
      | _ =>
          exact ⟨h₁, h₂, h₃, h₄, fun h => ⟨trivial, h₅ h⟩,
            fun d item v hmem => hret d item v hmem (by simp)⟩

/-- A step between program counters with the same tickets, with neutral
events, keeps the records. -/
theorem Records.frame {t : Thread} {k : Pc P T} {l : List (Event P T)}
    (h : Records s) (hpc : s'.pc = Function.update s.pc t k)
    (hpushing : k.pushing = (s.pc t).pushing) (hheld : k.held = (s.pc t).held)
    (htrace : s'.trace = l ++ s.trace) (hl : ∀ e ∈ l, e.Neutral) : Records s' := by
  obtain ⟨hcalls, hpushes, hpops, hreturns, horderly, hvalues⟩ :=
    neutral_append s.trace hl
  have hwho : Pc.pushing ∘ s'.pc = Pc.pushing ∘ s.pc := by
    rw [hpc]
    exact comp_move_of_eq hpushing
  have hhold : Pc.held ∘ s'.pc = Pc.held ∘ s.pc := by
    rw [hpc]
    exact comp_move_of_eq hheld
  have hlen : s.trace.length ≤ (l ++ s.trace).length := by simp
  exact {
    orderly := by rw [htrace]; exact horderly h.orderly
    pushing := by rw [hwho, htrace, hpushes]; exact h.pushing
    pushing_lt := fun u op hu => by
      rw [htrace]
      exact lt_of_lt_of_le (h.pushing_lt u op ((congrFun hwho u).symm.trans hu)) hlen
    pushes_lt := fun op hop => by
      rw [htrace, hpushes] at hop
      rw [htrace]
      exact lt_of_lt_of_le (h.pushes_lt op hop) hlen
    held := by rw [hhold, htrace, hreturns]; exact h.held
    held_popped := fun u item hu => by
      rw [htrace, hpops]
      exact h.held_popped u item ((congrFun hhold u).symm.trans hu)
    returns_popped := fun item hitem => by
      rw [htrace, hreturns] at hitem
      rw [htrace, hpops]
      exact h.returns_popped item hitem
    values := fun d item value hmem => by
      rw [htrace] at hmem
      rw [htrace, hcalls]
      exact h.values d item value (hvalues d item value hmem) }

/-- A new call of `push` gets a number that nobody has. -/
theorem Records.callPush {t : Thread} {value : T} (h : Records s)
    (hpc : s'.pc = Function.update s.pc t (.allocate s.trace.length value))
    (hidle : s.pc t = .idle)
    (htrace : s'.trace = .callPush s.trace.length value :: s.trace) : Records s' where
  orderly := by rw [htrace]; exact ⟨trivial, h.orderly⟩
  pushing := by
    rw [hpc, htrace, Function.comp_update]
    refine h.pushing.take (fun hmem => ?_) fun u hu => ?_
    · exact Nat.lt_irrefl _ (h.pushes_lt _ hmem)
    · exact Nat.lt_irrefl _ (h.pushing_lt u _ hu)
  pushing_lt u op hu := by
    rw [htrace]
    rw [hpc] at hu
    refine forall_of_move (p := (· < _)) (fun op hop => ?_) (fun u op hu => ?_) hu
    · cases hop
      exact Nat.lt_succ_self _
    · exact Nat.lt_succ_of_lt (h.pushing_lt u op hu)
  pushes_lt op hop := by
    rw [htrace] at hop ⊢
    exact Nat.lt_succ_of_lt (h.pushes_lt op hop)
  held := by
    have hhold : Pc.held ∘ s'.pc = Pc.held ∘ s.pc := by
      rw [hpc]
      exact comp_move_of_eq (by rw [hidle]; rfl)
    rw [hhold, htrace]
    exact h.held
  held_popped u item hu := by
    rw [htrace]
    rw [hpc] at hu
    exact forall_of_move (fun _ hitem => (nomatch hitem)) h.held_popped hu
  returns_popped := by rw [htrace]; exact h.returns_popped
  values d item v hmem := by
    rw [htrace] at hmem ⊢
    rcases List.mem_cons.mp hmem with heq | hold
    · cases heq
    · exact List.mem_cons_of_mem _ (h.values d item v hold)

/-- The push takes effect. -/
theorem Records.pushed {t : Thread} {op : Nat} {n : P} (h : Records s)
    (hpc : s'.pc = Function.update s.pc t .idle) (hat : s.pc t = .casPush op n)
    (htrace : s'.trace = .retPush op :: .pushed op n :: s.trace) : Records s' where
  orderly := by rw [htrace]; exact ⟨trivial, trivial, h.orderly⟩
  pushing := by
    rw [hpc, htrace, Function.comp_update]
    exact h.pushing.spend (by rw [Function.comp_apply, hat]; rfl)
  pushing_lt u op' hu := by
    rw [htrace]
    rw [hpc] at hu
    refine forall_of_move (p := (· < _)) (fun _ hop => ?_) (fun u op' hu => ?_) hu
    · cases hop
    · have := h.pushing_lt u op' hu
      simp only [List.length_cons]
      omega
  pushes_lt op' hop := by
    rw [htrace] at hop ⊢
    simp only [List.length_cons]
    rcases List.mem_cons.mp hop with rfl | hold
    · have := h.pushing_lt t op' (by rw [hat]; rfl)
      omega
    · have := h.pushes_lt op' hold
      omega
  held := by
    have hhold : Pc.held ∘ s'.pc = Pc.held ∘ s.pc := by
      rw [hpc]
      exact comp_move_of_eq (by rw [hat]; rfl)
    rw [hhold, htrace]
    exact h.held
  held_popped u item hu := by
    rw [htrace]
    rw [hpc] at hu
    exact forall_of_move (fun _ hitem => (nomatch hitem)) h.held_popped hu
  returns_popped := by rw [htrace]; exact h.returns_popped
  values d item v hmem := by
    rw [htrace] at hmem ⊢
    refine h.values d item v ?_
    simpa using hmem

omit [DecidableEq Thread] in
/-- An item on the stack has not been popped. -/
theorem Records.not_popped (h : Records s) {x : Nat × P} (hx : x ∈ contents s.trace) :
    x.1 ∉ pops s.trace := by
  have hnodup := h.orderly.balance.nodup_iff.mp h.pushing.once
  intro hmem
  have hdisj := (List.nodup_append.mp hnodup).2.2
  exact hdisj x.1 (List.mem_append_left _ hmem) x.1 (List.mem_map_of_mem hx) rfl

/-- The item on top goes to the thread that pops it. -/
theorem Records.popped {t : Thread} {op item : Nat} {value : T} {n : P}
    {next : Option P} {rest : List (Nat × P)} (h : Records s)
    (hpc : s'.pc = Function.update s.pc t (.moveData op value item n))
    (hat : s.pc t = .casPop op value n next)
    (htrace : s'.trace = .popped op item n :: s.trace)
    (htop : contents s.trace = (item, n) :: rest)
    (hrest : ∀ x ∈ rest, x.2 ≠ n) : Records s' where
  orderly := by rw [htrace]; exact ⟨⟨rest, htop, hrest⟩, h.orderly⟩
  pushing := by
    have hwho : Pc.pushing ∘ s'.pc = Pc.pushing ∘ s.pc := by
      rw [hpc]
      exact comp_move_of_eq (by rw [hat]; rfl)
    rw [hwho, htrace]
    exact h.pushing
  pushing_lt u op' hu := by
    rw [htrace]
    rw [hpc] at hu
    refine forall_of_move (p := (· < _)) (fun _ hop => ?_) (fun u op' hu => ?_) hu
    · cases hop
    · exact Nat.lt_succ_of_lt (h.pushing_lt u op' hu)
  pushes_lt op' hop := by
    rw [htrace] at hop ⊢
    exact Nat.lt_succ_of_lt (h.pushes_lt op' hop)
  held := by
    have hfree : item ∉ pops s.trace :=
      h.not_popped (x := (item, n)) (by rw [htop]; exact List.mem_cons_self)
    rw [hpc, htrace, Function.comp_update]
    exact h.held.take (fun hmem => hfree (h.returns_popped item hmem))
      fun u hu => hfree (h.held_popped u item hu)
  held_popped u item' hu := by
    rw [htrace]
    rw [hpc] at hu
    refine forall_of_move (fun item' hitem => ?_) (fun u item' hu => ?_) hu
    · cases hitem
      exact List.mem_cons_self
    · exact List.mem_cons_of_mem _ (h.held_popped u item' hu)
  returns_popped item' hitem := by
    rw [htrace] at hitem ⊢
    exact List.mem_cons_of_mem _ (h.returns_popped item' hitem)
  values d item' v hmem := by
    rw [htrace] at hmem ⊢
    refine h.values d item' v ?_
    simpa using hmem

/-- The item goes to the caller. -/
theorem Records.returned {t : Thread} {op item : Nat} {value : T} {n : P}
    (h : Records s) (hpc : s'.pc = Function.update s.pc t .idle)
    (hat : s.pc t = .deallocate op value item n)
    (htrace : s'.trace = .retPop op (some item) value :: s.trace)
    (hvalue : (item, value) ∈ calls s.trace) : Records s' where
  orderly := by rw [htrace]; exact ⟨trivial, h.orderly⟩
  pushing := by
    have hwho : Pc.pushing ∘ s'.pc = Pc.pushing ∘ s.pc := by
      rw [hpc]
      exact comp_move_of_eq (by rw [hat]; rfl)
    rw [hwho, htrace]
    exact h.pushing
  pushing_lt u op' hu := by
    rw [htrace]
    rw [hpc] at hu
    refine forall_of_move (p := (· < _)) (fun _ hop => ?_) (fun u op' hu => ?_) hu
    · cases hop
    · exact Nat.lt_succ_of_lt (h.pushing_lt u op' hu)
  pushes_lt op' hop := by
    rw [htrace] at hop ⊢
    exact Nat.lt_succ_of_lt (h.pushes_lt op' hop)
  held := by
    rw [hpc, htrace, Function.comp_update]
    exact h.held.spend (by rw [Function.comp_apply, hat]; rfl)
  held_popped u item' hu := by
    rw [htrace]
    rw [hpc] at hu
    exact forall_of_move (fun _ hitem => (nomatch hitem)) h.held_popped hu
  returns_popped item' hitem := by
    rw [htrace] at hitem ⊢
    rcases List.mem_cons.mp hitem with rfl | hold
    · exact h.held_popped t item' (by rw [hat]; rfl)
    · exact h.returns_popped item' hold
  values d item' v hmem := by
    rw [htrace] at hmem ⊢
    rcases List.mem_cons.mp hmem with heq | hold
    · cases heq
      exact hvalue
    · exact h.values d item' v hold

/-! ## Memory -/

/-- Who holds a node: the pool, a call that has it to itself, the stack, or a
`clear` that has taken it with the whole chain. -/
inductive Loc (Thread : Type*)
  | pooled
  | owned (t : Thread)
  | stacked
  | swept (t : Thread)

/-- The holders of the nodes, and the chains that calls of `clear` have taken
and not walked yet. -/
structure Shape (Thread P : Type*) where
  loc : P → Loc Thread
  spoils : Thread → List P

/-- The node that a call has to itself. -/
def Pc.node : Pc P T → Option P
  | .initNext _ _ n => some n
  | .initData _ _ n => some n
  | .loadForNext _ n => some n
  | .storeNext _ n _ => some n
  | .casPush _ n => some n
  | .moveData _ _ _ n => some n
  | .deallocate _ _ _ n => some n
  | .discard _ n _ => some n
  | _ => none

/-- Where the rest of the chain starts that a `clear` has taken. -/
def Pc.rest : Pc P T → Option P
  | .sweep _ head => head
  | .discard _ _ head => head
  | _ => none

/-- What a thread knows about the value it carries. -/
def Claim (s : State Thread P T) : Pc P T → Prop
  | .allocate op value => (op, value) ∈ calls s.trace
  | .initNext op value _ => (op, value) ∈ calls s.trace
  | .initData op value n => (op, value) ∈ calls s.trace ∧ (s.heap n).op = op
  | .loadForNext op n => (op, (s.heap n).data) ∈ calls s.trace ∧ (s.heap n).op = op
  | .storeNext op n _ => (op, (s.heap n).data) ∈ calls s.trace ∧ (s.heap n).op = op
  | .casPush op n => (op, (s.heap n).data) ∈ calls s.trace ∧ (s.heap n).op = op
  | .moveData _ _ item n => (item, (s.heap n).data) ∈ calls s.trace
  | .deallocate _ value item _ => (item, value) ∈ calls s.trace
  | _ => True

/-- What belongs to thread `t` at program counter `k`. -/
structure Local (s : State Thread P T) (sh : Shape Thread P) (t : Thread)
    (k : Pc P T) : Prop where
  owned : ∀ n, k.node = some n → sh.loc n = .owned t
  spoils : Path (nextPtr s) k.rest (sh.spoils t) none
  swept : ∀ n ∈ sh.spoils t, sh.loc n = .swept t
  claim : Claim s k

/-- The memory is what the trace and the shape say. -/
structure Memory (s : State Thread P T) (sh : Shape Thread P) : Prop where
  path : Path (nextPtr s) s.head ((contents s.trace).map Prod.snd) none
  stacked : ∀ x ∈ contents s.trace, sh.loc x.2 = .stacked ∧
    (s.heap x.2).op = x.1 ∧ (x.1, (s.heap x.2).data) ∈ calls s.trace
  pooled : ∀ n, s.allocated n = true ↔ sh.loc n ≠ .pooled
  threads : ∀ t, Local s sh t (s.pc t)

variable {sh sh' : Shape Thread P}

/-- A node that belongs to a thread, alone or in a chain it has taken. -/
def Loc.Of (t : Thread) (x : Loc Thread) : Prop :=
  x = .owned t ∨ x = .swept t

omit [DecidableEq Thread] [DecidableEq P] in
/-- Steps that leave the nodes of thread `u` alone do not concern it. -/
theorem Local.frame {u : Thread} {k : Pc P T} (h : Local s sh u k)
    (hmine : ∀ n, (sh.loc n).Of u → sh'.loc n = sh.loc n ∧ s'.heap n = s.heap n)
    (hspoils : sh'.spoils u = sh.spoils u)
    (hcalls : ∀ x ∈ calls s.trace, x ∈ calls s'.trace) : Local s' sh' u k where
  owned n hn := by
    have hloc := h.owned n hn
    rw [(hmine n (.inl hloc)).1]
    exact hloc
  spoils := by
    rw [hspoils]
    refine h.spoils.congr fun n hn => ?_
    rw [nextPtr, nextPtr, (hmine n (.inr (h.swept n hn))).2]
  swept n hn := by
    rw [hspoils] at hn
    have hloc := h.swept n hn
    rw [(hmine n (.inr hloc)).1]
    exact hloc
  claim := by
    have hheap : ∀ n, k.node = some n → s'.heap n = s.heap n :=
      fun n hn => (hmine n (.inl (h.owned n hn))).2
    have hclaim := h.claim
    cases k with
    | allocate op value => exact hcalls _ hclaim
    | initNext op value n => exact hcalls _ hclaim
    | initData op value n =>
        rw [Claim, hheap n rfl]
        exact ⟨hcalls _ hclaim.1, hclaim.2⟩
    | loadForNext op n =>
        rw [Claim, hheap n rfl]
        exact ⟨hcalls _ hclaim.1, hclaim.2⟩
    | storeNext op n head =>
        rw [Claim, hheap n rfl]
        exact ⟨hcalls _ hclaim.1, hclaim.2⟩
    | casPush op n =>
        rw [Claim, hheap n rfl]
        exact ⟨hcalls _ hclaim.1, hclaim.2⟩
    | moveData op value item n =>
        rw [Claim, hheap n rfl]
        exact hcalls _ hclaim
    | deallocate op value item n => exact hcalls _ hclaim
    | _ => trivial

/-- A step of thread `t` that leaves the nodes of the other threads alone. -/
theorem Memory.of_step {t : Thread} {k : Pc P T} (hmem : Memory s sh)
    (hpc : s'.pc = Function.update s.pc t k)
    (hmine : ∀ u, u ≠ t → ∀ n, (sh.loc n).Of u →
      sh'.loc n = sh.loc n ∧ s'.heap n = s.heap n)
    (hspoils : ∀ u, u ≠ t → sh'.spoils u = sh.spoils u)
    (hcalls : ∀ x ∈ calls s.trace, x ∈ calls s'.trace)
    (hlocal : Local s' sh' t k)
    (hpath : Path (nextPtr s') s'.head ((contents s'.trace).map Prod.snd) none)
    (hstacked : ∀ x ∈ contents s'.trace, sh'.loc x.2 = .stacked ∧
      (s'.heap x.2).op = x.1 ∧ (x.1, (s'.heap x.2).data) ∈ calls s'.trace)
    (hpooled : ∀ n, s'.allocated n = true ↔ sh'.loc n ≠ .pooled) :
    Memory s' sh' where
  path := hpath
  stacked := hstacked
  pooled := hpooled
  threads u := by
    rw [hpc]
    by_cases hut : u = t
    · subst hut
      rw [Function.update_self]
      exact hlocal
    · rw [Function.update_of_ne hut]
      exact (hmem.threads u).frame (hmine u hut) (hspoils u hut) hcalls

/-- A step of thread `t` that changes at most its own node, its program counter
and the trace. -/
theorem Memory.still {t : Thread} {k : Pc P T} (hmem : Memory s sh)
    (hpc : s'.pc = Function.update s.pc t k) (hnode : k.node = (s.pc t).node)
    (hrest : k.rest = (s.pc t).rest) (hclaim : Claim s' k)
    (hheap : ∀ n, (s.pc t).node ≠ some n → s'.heap n = s.heap n)
    (hhead : s'.head = s.head) (hallocated : s'.allocated = s.allocated)
    (hcontents : contents s'.trace = contents s.trace)
    (hcalls : ∀ x ∈ calls s.trace, x ∈ calls s'.trace) : Memory s' sh := by
  have hlocal := hmem.threads t
  have hother : ∀ n, sh.loc n ≠ .owned t → s'.heap n = s.heap n :=
    fun n hn => hheap n fun heq => hn (hlocal.owned n heq)
  have hstack : ∀ n ∈ (contents s.trace).map Prod.snd, s'.heap n = s.heap n := by
    intro n hn
    obtain ⟨x, hx, rfl⟩ := List.mem_map.mp hn
    refine hother _ ?_
    rw [(hmem.stacked x hx).1]
    simp
  refine hmem.of_step hpc (fun u hu n hn => ⟨rfl, hother n ?_⟩) (fun _ _ => rfl)
    hcalls ⟨?_, ?_, hlocal.swept, hclaim⟩ ?_ (fun x hx => ?_) ?_
  · rcases hn with hn | hn <;> rw [hn]
    · intro heq
      cases heq
      exact hu rfl
    · simp
  · rw [hnode]
    exact hlocal.owned
  · rw [hrest]
    refine hlocal.spoils.congr fun n hn => ?_
    rw [nextPtr, nextPtr, hother n (by rw [hlocal.swept n hn]; simp)]
  · rw [hcontents, hhead]
    refine hmem.path.congr fun n hn => ?_
    rw [nextPtr, nextPtr, hstack n hn]
  · rw [hcontents] at hx
    obtain ⟨hloc, hop, hvalue⟩ := hmem.stacked x hx
    rw [hstack _ (List.mem_map_of_mem hx)]
    exact ⟨hloc, hop, hcalls _ hvalue⟩
  · rw [hallocated]
    exact hmem.pooled

/-- Node `n` passes to the holder `L` by a step of thread `t`, which is left
with the chain `l` of its spoils. -/
theorem Memory.transfer {t : Thread} {k : Pc P T} {n : P} {L : Loc Thread}
    {l : List P} (hmem : Memory s sh) (hpc : s'.pc = Function.update s.pc t k)
    (hfrom : ∀ u, (sh.loc n).Of u → u = t)
    (hheap : ∀ m, m ≠ n → s'.heap m = s.heap m)
    (hcalls : ∀ x ∈ calls s.trace, x ∈ calls s'.trace)
    (hnode : ∀ m, k.node = some m → m = n ∧ L = .owned t)
    (hrest : Path (nextPtr s) k.rest l none)
    (hsub : ∀ m ∈ l, m ∈ sh.spoils t ∧ m ≠ n) (hclaim : Claim s' k)
    (hpath : Path (nextPtr s') s'.head ((contents s'.trace).map Prod.snd) none)
    (hstacked : ∀ x ∈ contents s'.trace, x ∈ contents s.trace ∧ x.2 ≠ n ∨
      x.2 = n ∧ L = .stacked ∧ (s'.heap n).op = x.1 ∧
        (x.1, (s'.heap n).data) ∈ calls s'.trace)
    (hallocated : ∀ m, m ≠ n → s'.allocated m = s.allocated m)
    (hpooled : s'.allocated n = true ↔ L ≠ .pooled) :
    Memory s' ⟨Function.update sh.loc n L, Function.update sh.spoils t l⟩ := by
  have hlocal := hmem.threads t
  refine hmem.of_step hpc (fun u hu m hm => ?_) (fun u hu => ?_) hcalls
    ⟨fun m hm => ?_, ?_, fun m hm => ?_, hclaim⟩ hpath (fun x hx => ?_) fun m => ?_
  · have hne : m ≠ n := by
      rintro rfl
      exact hu (hfrom u hm)
    exact ⟨Function.update_of_ne hne _ _, hheap m hne⟩
  · exact Function.update_of_ne hu _ _
  · obtain ⟨rfl, hL⟩ := hnode m hm
    exact (Function.update_self ..).trans hL
  · show Path _ _ (Function.update sh.spoils t l t) none
    rw [Function.update_self]
    refine hrest.congr fun m hm => ?_
    rw [nextPtr, nextPtr, hheap m (hsub m hm).2]
  · have hm : m ∈ l := by
      change m ∈ Function.update sh.spoils t l t at hm
      rw [Function.update_self] at hm
      exact hm
    obtain ⟨hold, hne⟩ := hsub m hm
    exact (Function.update_of_ne hne _ _).trans (hlocal.swept m hold)
  · rcases hstacked x hx with ⟨hold, hne⟩ | ⟨rfl, hL, hnew⟩
    · obtain ⟨hloc, hop, hvalue⟩ := hmem.stacked x hold
      rw [hheap _ hne]
      exact ⟨(Function.update_of_ne hne _ _).trans hloc, hop, hcalls _ hvalue⟩
    · exact ⟨(Function.update_self ..).trans hL, hnew⟩
  · by_cases hm : m = n
    · subst hm
      show _ ↔ Function.update sh.loc m L m ≠ _
      rw [Function.update_self]
      exact hpooled
    · show _ ↔ Function.update sh.loc n L m ≠ _
      rw [Function.update_of_ne hm, hallocated m hm]
      exact hmem.pooled m

/-- `clear` takes the whole chain. -/
theorem Memory.clear {t : Thread} {op : Nat} {head : Option P}
    (hmem : Memory s sh) (hfound : s.head = head) :
    ∃ sh', Memory (({ s with head := none }.emit (.cleared op)).goto t
      (.sweep op head)) sh' := by
  classical
  set nodes := (contents s.trace).map Prod.snd with hnodes
  have hstackedloc : ∀ n ∈ nodes, sh.loc n = .stacked := by
    intro n hn
    obtain ⟨x, hx, rfl⟩ := List.mem_map.mp hn
    exact (hmem.stacked x hx).1
  refine ⟨⟨fun n => if n ∈ nodes then .swept t else sh.loc n,
    Function.update sh.spoils t nodes⟩, ?_⟩
  refine hmem.of_step (t := t) rfl (fun u hu n hn => ⟨if_neg fun hin => ?_, rfl⟩)
    (fun u hu => Function.update_of_ne hu _ _) (fun _ hx => hx)
    ⟨fun n hn => (by cases hn), ?_, fun n hn => ?_, trivial⟩ rfl
    (fun x hx => by cases hx) fun n => ?_
  · rw [hstackedloc n hin] at hn
    rcases hn with hn | hn <;> cases hn
  · show Path _ _ (Function.update sh.spoils t nodes t) none
    rw [Function.update_self]
    exact hfound ▸ hmem.path
  · change n ∈ Function.update sh.spoils t nodes t at hn
    rw [Function.update_self] at hn
    exact if_pos hn
  · show s.allocated n = true ↔ (if n ∈ nodes then Loc.swept t else sh.loc n) ≠ _
    rw [hmem.pooled]
    by_cases hin : n ∈ nodes
    · simp [hin, hstackedloc n hin]
    · simp [hin]

/-! ## Every step keeps the invariant -/

/-- What holds in every state of a run under the condition. -/
def Inv (s : State Thread P T) : Prop :=
  (∃ sh, Memory s sh) ∧ Records s

/-- A step that changes at most the thread's own node, its program counter and
the trace by neutral events. -/
theorem Inv.still {t : Thread} {k : Pc P T} {l : List (Event P T)} (h : Inv s)
    (hpc : s'.pc = Function.update s.pc t k) (hnode : k.node = (s.pc t).node)
    (hrest : k.rest = (s.pc t).rest) (hpushing : k.pushing = (s.pc t).pushing)
    (hheld : k.held = (s.pc t).held) (hclaim : Claim s' k)
    (hheap : ∀ n, (s.pc t).node ≠ some n → s'.heap n = s.heap n)
    (hhead : s'.head = s.head) (hallocated : s'.allocated = s.allocated)
    (htrace : s'.trace = l ++ s.trace) (hneutral : ∀ e ∈ l, e.Neutral)
    (hcontents : contents s'.trace = contents s.trace) : Inv s' := by
  obtain ⟨⟨sh, hmem⟩, hrec⟩ := h
  refine ⟨⟨sh, hmem.still hpc hnode hrest hclaim hheap hhead hallocated hcontents
    fun x hx => ?_⟩, hrec.frame hpc hpushing hheld htrace hneutral⟩
  rw [htrace, (neutral_append _ hneutral).1]
  exact hx

omit [DecidableEq Thread] in
/-- The item and node on top of a stack that is not empty. -/
theorem Memory.top (hmem : Memory s sh) {h : P} (hhead : s.head = some h) :
    ∃ rest, contents s.trace = ((s.heap h).op, h) :: rest ∧
      (∀ x ∈ rest, x.2 ≠ h) ∧
      Path (nextPtr s) (nextPtr s h) (rest.map Prod.snd) none := by
  have hpath := hmem.path
  have hnodup := hpath.nodup
  rw [hhead] at hpath
  cases hcontents : contents s.trace with
  | nil => rw [hcontents] at hpath; cases hpath
  | cons x rest =>
      rw [hcontents] at hpath hnodup
      obtain ⟨hx, hrest⟩ := hpath
      have hxh : x.2 = h := (Option.some.inj hx).symm
      have hop := (hmem.stacked x (by rw [hcontents]; exact List.mem_cons_self)).2.1
      refine ⟨rest, ?_, fun y hy heq => ?_, ?_⟩
      · rw [← hxh, hop]
      · refine (List.nodup_cons.mp hnodup).1 ?_
        rw [hxh, ← heq]
        exact List.mem_map_of_mem hy
      · rw [← hxh]
        exact hrest

theorem Inv.popFrom {t : Thread} {op : Nat} {value : T} (head : Option P) (h : Inv s)
    (hnode : (s.pc t).node = none) (hrest : (s.pc t).rest = none)
    (hpushing : (s.pc t).pushing = none) (hheld : (s.pc t).held = none) :
    Inv (popFrom s t op value head) := by
  cases head with
  | none =>
      exact h.still (l := [_]) rfl hnode.symm hrest.symm hpushing.symm hheld.symm
        trivial (fun _ _ => rfl) rfl rfl rfl (by simp [Event.Neutral]) rfl
  | some n =>
      exact h.still (l := []) rfl hnode.symm hrest.symm hpushing.symm hheld.symm
        trivial (fun _ _ => rfl) rfl rfl rfl (by simp) rfl

theorem Inv.beginPush {t : Thread} {value : T} (h : Inv s)
    (hstep : beginPush s t value = some s') : Inv s' := by
  unfold Stack.beginPush at hstep
  split at hstep
  · rename_i hidle
    cases hstep
    obtain ⟨⟨sh, hmem⟩, hrec⟩ := h
    refine ⟨⟨sh, hmem.still rfl (by rw [hidle]; rfl) (by rw [hidle]; rfl) ?_
      (fun _ _ => rfl) rfl rfl rfl fun x hx => List.mem_cons_of_mem _ hx⟩,
      hrec.callPush rfl hidle rfl⟩
    exact List.mem_cons_self
  · cases hstep

/-- Writing `next` of its own node concerns nobody else. -/
theorem Inv.setNext {t : Thread} {k : Pc P T} {n : P} (word : Option P) (h : Inv s)
    (hnode : (s.pc t).node = some n) (hk : k.node = some n)
    (hrest : k.rest = (s.pc t).rest) (hpushing : k.pushing = (s.pc t).pushing)
    (hheld : k.held = (s.pc t).held) (hclaim : Claim (s.setNext n word) k) :
    Inv ((s.setNext n word).goto t k) := by
  refine h.still (l := []) rfl (hk.trans hnode.symm) hrest hpushing hheld hclaim
    (fun m hm => ?_) rfl rfl rfl (by simp) rfl
  refine Function.update_of_ne ?_ _ _
  rintro rfl
  exact hm hnode

theorem Inv.exchangeFailed {t : Thread} (h : Inv s)
    (hstep : exchangeFailed s t (s.pc t) = some s') : Inv s' := by
  cases hpc : s.pc t with
  | casPush op n =>
      rw [hpc] at hstep
      cases hstep
      have hclaim : Claim s (.casPush op n) := by
        obtain ⟨⟨sh, hmem⟩, -⟩ := h
        exact hpc ▸ (hmem.threads t).claim
      have hsame : s.setNext n s.head = (s.setNext n s.head).goto t (.casPush op n) := by
        have hpcs : Function.update s.pc t (.casPush op n) = s.pc := by
          rw [← hpc, Function.update_eq_self]
        show s.setNext n s.head = { s.setNext n s.head with
          pc := Function.update s.pc t (.casPush op n) }
        rw [hpcs]
        rfl
      rw [hsame]
      refine h.setNext s.head (by rw [hpc]; rfl) rfl (by rw [hpc]) (by rw [hpc])
        (by rw [hpc]) ?_
      simpa [Claim, State.setNext, State.setNode] using hclaim
  | casPop op value head next =>
      rw [hpc] at hstep
      cases hstep
      exact h.popFrom s.head (by rw [hpc]; rfl) (by rw [hpc]; rfl) (by rw [hpc]; rfl)
        (by rw [hpc]; rfl)
  | casClear op head =>
      rw [hpc] at hstep
      cases hstep
      exact h.still (l := []) rfl (by rw [hpc]; rfl) (by rw [hpc]; rfl)
        (by rw [hpc]; rfl) (by rw [hpc]; rfl) trivial (fun _ _ => rfl) rfl rfl rfl
        (by simp) rfl
  | _ =>
      rw [hpc] at hstep
      cases hstep

/-- The exchange of `push` puts the node on top. -/
theorem Inv.casPush {t : Thread} {op : Nat} {n : P} (h : Inv s)
    (hat : s.pc t = .casPush op n) (hfound : s.head = (s.heap n).next) :
    Inv ((({ s with head := some n }.emit (.pushed op n)).emit
      (.retPush op)).goto t .idle) := by
  obtain ⟨⟨sh, hmem⟩, hrec⟩ := h
  have hlocal := hmem.threads t
  rw [hat] at hlocal
  have hloc : sh.loc n = .owned t := hlocal.owned n rfl
  obtain ⟨hvalue, hop⟩ := hlocal.claim
  have hpath : Path (nextPtr s) (some n) (n :: (contents s.trace).map Prod.snd) none :=
    ⟨rfl, by rw [nextPtr, ← hfound]; exact hmem.path⟩
  refine ⟨⟨_, hmem.transfer (n := n) (L := .stacked) (l := []) rfl (fun u hu => ?_)
    (fun _ _ => rfl) (fun _ hx => hx) (fun m hm => by cases hm) rfl (by simp) trivial
    hpath (fun x hx => ?_) (fun _ _ => rfl) ?_⟩, hrec.pushed rfl hat rfl⟩
  · rw [hloc] at hu
    rcases hu with hu | hu <;> cases hu
    rfl
  · rcases List.mem_cons.mp hx with rfl | hold
    · exact .inr ⟨rfl, rfl, hop, hvalue⟩
    · refine .inl ⟨hold, ?_⟩
      rintro rfl
      have hstacked := (hmem.stacked x hold).1
      rw [hloc] at hstacked
      cases hstacked
  · show s.allocated n = true ↔ _
    rw [hmem.pooled, hloc]
    simp

/-- The exchange of `try_pop` takes the node on top. -/
theorem Inv.casPop {t : Thread} {op : Nat} {value : T} {n : P} {next : Option P}
    (h : Inv s) (hat : s.pc t = .casPop op value n next) (hfound : s.head = some n)
    (hok : (s.heap n).next = next) :
    Inv (({ s with head := next }.emit (.popped op (s.heap n).op n)).goto t
      (.moveData op value (s.heap n).op n)) := by
  obtain ⟨⟨sh, hmem⟩, hrec⟩ := h
  obtain ⟨rest, htop, hne, hpath⟩ := hmem.top hfound
  have hstacked := hmem.stacked ((s.heap n).op, n)
    (by rw [htop]; exact List.mem_cons_self)
  have hcontents : contents (.popped op (s.heap n).op n :: s.trace) = rest :=
    contents_popped htop hne
  refine ⟨⟨_, hmem.transfer (n := n) (L := .owned t) (l := []) rfl (fun u hu => ?_)
    (fun _ _ => rfl) (fun _ hx => hx) (fun m hm => ⟨(Option.some.inj hm).symm, rfl⟩)
    rfl (by simp) hstacked.2.2 ?_ (fun x hx => ?_) (fun _ _ => rfl) ?_⟩,
    hrec.popped rfl hat rfl htop hne⟩
  · rw [hstacked.1] at hu
    rcases hu with hu | hu <;> cases hu
  · show Path _ next ((contents (.popped op (s.heap n).op n :: s.trace)).map Prod.snd) _
    rw [hcontents, ← hok]
    exact hpath
  · change x ∈ contents (.popped op (s.heap n).op n :: s.trace) at hx
    rw [hcontents] at hx
    refine .inl ⟨?_, hne x hx⟩
    rw [htop]
    exact List.mem_cons_of_mem _ hx
  · show s.allocated n = true ↔ _
    rw [hmem.pooled, hstacked.1]
    simp

theorem Inv.stepPush {t : Thread} (h : Inv s)
    (hstep : stepPush s t (s.pc t) = some s') : Inv s' := by
  have hclaim : Claim s (s.pc t) := by
    obtain ⟨⟨sh, hmem⟩, -⟩ := h
    exact (hmem.threads t).claim
  cases hpc : s.pc t with
  | initNext op value n =>
      rw [hpc] at hstep hclaim
      cases hstep
      refine h.still (l := []) rfl (by rw [hpc]; rfl) (by rw [hpc]; rfl)
        (by rw [hpc]; rfl) (by rw [hpc]; rfl) ⟨hclaim, ?_⟩ (fun m hm => ?_) rfl rfl rfl
        (by simp) rfl
      · simp [State.goto, State.setNode]
      · refine Function.update_of_ne ?_ _ _
        rintro rfl
        exact hm (by rw [hpc]; rfl)
  | initData op value n =>
      rw [hpc] at hstep hclaim
      cases hstep
      refine h.still (l := []) rfl (by rw [hpc]; rfl) (by rw [hpc]; rfl)
        (by rw [hpc]; rfl) (by rw [hpc]; rfl) ?_ (fun m hm => ?_) rfl rfl rfl
        (by simp) rfl
      · simpa [Claim, State.goto, State.setNode] using hclaim
      · refine Function.update_of_ne ?_ _ _
        rintro rfl
        exact hm (by rw [hpc]; rfl)
  | loadForNext op n =>
      rw [hpc] at hstep hclaim
      cases hstep
      exact h.still (l := []) rfl (by rw [hpc]; rfl) (by rw [hpc]; rfl)
        (by rw [hpc]; rfl) (by rw [hpc]; rfl) hclaim (fun _ _ => rfl) rfl rfl rfl
        (by simp) rfl
  | storeNext op n head =>
      rw [hpc] at hstep hclaim
      cases hstep
      refine h.setNext head (by rw [hpc]; rfl) rfl (by rw [hpc]; rfl) (by rw [hpc]; rfl)
        (by rw [hpc]; rfl) ?_
      simpa [Claim, State.setNext, State.setNode] using hclaim
  | casPush op n =>
      simp only [hpc, Stack.stepPush] at hstep
      split at hstep
      · rename_i hfound
        cases hstep
        exact h.casPush hpc hfound
      · rw [← hpc] at hstep
        exact h.exchangeFailed hstep
  | _ =>
      rw [hpc] at hstep
      cases hstep

theorem Inv.stepPop {t : Thread} (h : Inv s)
    (hok : ∀ op value n next, s.pc t = .casPop op value n next → s.head = some n →
      (s.heap n).next = next)
    (hstep : stepPop s t (s.pc t) = some s') : Inv s' := by
  have hclaim : Claim s (s.pc t) := by
    obtain ⟨⟨sh, hmem⟩, -⟩ := h
    exact (hmem.threads t).claim
  cases hpc : s.pc t with
  | loadHead op value =>
      rw [hpc] at hstep
      cases hstep
      exact h.popFrom s.head (by rw [hpc]; rfl) (by rw [hpc]; rfl) (by rw [hpc]; rfl)
        (by rw [hpc]; rfl)
  | readNext op value n =>
      rw [hpc] at hstep
      cases hstep
      exact h.still (l := []) rfl (by rw [hpc]; rfl) (by rw [hpc]; rfl)
        (by rw [hpc]; rfl) (by rw [hpc]; rfl) trivial (fun _ _ => rfl) rfl rfl rfl
        (by simp) rfl
  | casPop op value n next =>
      simp only [hpc, Stack.stepPop] at hstep
      split at hstep
      · rename_i hfound
        cases hstep
        exact h.casPop hpc hfound (hok op value n next hpc hfound)
      · rw [← hpc] at hstep
        exact h.exchangeFailed hstep
  | moveData op value item n =>
      rw [hpc] at hstep hclaim
      cases hstep
      exact h.still (l := []) rfl (by rw [hpc]; rfl) (by rw [hpc]; rfl)
        (by rw [hpc]; rfl) (by rw [hpc]; rfl) hclaim (fun _ _ => rfl) rfl rfl rfl
        (by simp) rfl
  | _ =>
      rw [hpc] at hstep
      cases hstep

/-- `clear` steps to the next node of the chain it has taken. -/
theorem Inv.sweep {t : Thread} {op : Nat} {n : P} (h : Inv s)
    (hat : s.pc t = .sweep op (some n)) :
    Inv (s.goto t (.discard op n (s.heap n).next)) := by
  obtain ⟨⟨sh, hmem⟩, hrec⟩ := h
  have hlocal := hmem.threads t
  have hpath := hlocal.spoils
  have hnodup := hpath.nodup
  rw [hat] at hpath
  cases hspoils : sh.spoils t with
  | nil => rw [hspoils] at hpath; cases hpath
  | cons m l =>
      rw [hspoils] at hpath hnodup
      obtain ⟨hm, hrest⟩ := hpath
      cases hm
      have hloc : sh.loc n = .swept t :=
        hlocal.swept n (by rw [hspoils]; exact List.mem_cons_self)
      refine ⟨⟨_, hmem.transfer (n := n) (L := .owned t) (l := l) rfl (fun u hu => ?_)
        (fun _ _ => rfl) (fun _ hx => hx)
        (fun m hm => ⟨(Option.some.inj hm).symm, rfl⟩) hrest (fun m hm => ⟨?_, ?_⟩)
        trivial hmem.path (fun x hx => .inl ⟨hx, ?_⟩) (fun _ _ => rfl) ?_⟩,
        hrec.frame (l := []) rfl (by rw [hat]; rfl) (by rw [hat]; rfl) rfl (by simp)⟩
      · rw [hloc] at hu
        rcases hu with hu | hu <;> cases hu
        rfl
      · rw [hspoils]
        exact List.mem_cons_of_mem _ hm
      · rintro rfl
        exact (List.nodup_cons.mp hnodup).1 hm
      · rintro rfl
        have hstacked := (hmem.stacked x hx).1
        rw [hloc] at hstacked
        cases hstacked
      · show s.allocated n = true ↔ _
        rw [hmem.pooled, hloc]
        simp

theorem Inv.stepClear {t : Thread} (h : Inv s)
    (hstep : stepClear s t (s.pc t) = some s') : Inv s' := by
  cases hpc : s.pc t with
  | loadAll op =>
      rw [hpc] at hstep
      cases hstep
      exact h.still (l := []) rfl (by rw [hpc]; rfl) (by rw [hpc]; rfl)
        (by rw [hpc]; rfl) (by rw [hpc]; rfl) trivial (fun _ _ => rfl) rfl rfl rfl
        (by simp) rfl
  | casClear op head =>
      simp only [hpc, Stack.stepClear] at hstep
      split at hstep
      · rename_i hfound
        cases hstep
        obtain ⟨⟨sh, hmem⟩, hrec⟩ := h
        exact ⟨hmem.clear hfound, hrec.frame (l := [_]) rfl (by rw [hpc]; rfl)
          (by rw [hpc]; rfl) rfl (by simp [Event.Neutral])⟩
      · rw [← hpc] at hstep
        exact h.exchangeFailed hstep
  | sweep op head =>
      cases head with
      | none =>
          rw [hpc] at hstep
          cases hstep
          exact h.still (l := [_]) rfl (by rw [hpc]; rfl) (by rw [hpc]; rfl)
            (by rw [hpc]; rfl) (by rw [hpc]; rfl) trivial (fun _ _ => rfl) rfl rfl rfl
            (by simp [Event.Neutral]) rfl
      | some n =>
          rw [hpc] at hstep
          cases hstep
          exact h.sweep hpc
  | _ =>
      rw [hpc] at hstep
      cases hstep

theorem Inv.allocate {t : Thread} {op : Nat} {value : T} {n : P} (h : Inv s)
    (hat : s.pc t = .allocate op value) (hfree : s.allocated n = false) :
    Inv ({ s with allocated := Function.update s.allocated n true }.goto t
      (.initNext op value n)) := by
  obtain ⟨⟨sh, hmem⟩, hrec⟩ := h
  have hclaim := (hmem.threads t).claim
  rw [hat] at hclaim
  have hloc : sh.loc n = .pooled := by
    by_contra hne
    rw [(hmem.pooled n).mpr hne] at hfree
    cases hfree
  refine ⟨⟨_, hmem.transfer (n := n) (L := .owned t) (l := []) rfl (fun u hu => ?_)
    (fun _ _ => rfl) (fun _ hx => hx) (fun m hm => ⟨(Option.some.inj hm).symm, rfl⟩)
    rfl (by simp) hclaim hmem.path (fun x hx => .inl ⟨hx, ?_⟩)
    (fun m hm => Function.update_of_ne hm _ _) ?_⟩,
    hrec.frame (l := []) rfl (by rw [hat]; rfl) (by rw [hat]; rfl) rfl (by simp)⟩
  · rw [hloc] at hu
    rcases hu with hu | hu <;> cases hu
  · rintro rfl
    have hstacked := (hmem.stacked x hx).1
    rw [hloc] at hstacked
    cases hstacked
  · show Function.update s.allocated n true n = true ↔ _
    simp

/-- A thread gives its node back to the pool, which overwrites its `next`. -/
theorem Memory.release {t : Thread} {k : Pc P T} {n : P} (word : Option P)
    (hmem : Memory s sh) (hnode : (s.pc t).node = some n) (hk : k.node = none)
    (hrest : k.rest = (s.pc t).rest) (hclaim : Claim s k)
    (hpc : s'.pc = Function.update s.pc t k) (hhead : s'.head = s.head)
    (hheap : s'.heap = Function.update s.heap n { s.heap n with next := word })
    (hallocated : s'.allocated = Function.update s.allocated n false)
    (hcontents : contents s'.trace = contents s.trace)
    (hcalls : calls s'.trace = calls s.trace) : ∃ sh', Memory s' sh' := by
  have hlocal := hmem.threads t
  have hloc : sh.loc n = .owned t := hlocal.owned n hnode
  have hkeep : ∀ m, m ≠ n → s'.heap m = s.heap m := fun m hm => by
    rw [hheap, Function.update_of_ne hm]
  have hstacked : ∀ x ∈ contents s.trace, x.2 ≠ n := by
    rintro x hx rfl
    have hstacked := (hmem.stacked x hx).1
    rw [hloc] at hstacked
    cases hstacked
  refine ⟨_, hmem.transfer (n := n) (L := .pooled) (l := sh.spoils t) hpc
    (fun u hu => ?_) hkeep (fun x hx => hcalls ▸ hx)
    (fun m hm => by rw [hk] at hm; cases hm) (hrest ▸ hlocal.spoils)
    (fun m hm => ⟨hm, ?_⟩) ?_ ?_ (fun x hx => ?_)
    (fun m hm => by rw [hallocated, Function.update_of_ne hm]) ?_⟩
  · rw [hloc] at hu
    rcases hu with hu | hu <;> cases hu
    rfl
  · rintro rfl
    have hswept := hlocal.swept m hm
    rw [hloc] at hswept
    cases hswept
  · cases k <;> first | trivial | (rw [Claim, hcalls]; exact hclaim)
  · rw [hcontents, hhead]
    refine hmem.path.congr fun m hm => ?_
    obtain ⟨x, hx, rfl⟩ := List.mem_map.mp hm
    rw [nextPtr, nextPtr, hkeep _ (hstacked x hx)]
  · rw [hcontents] at hx
    exact .inl ⟨hx, hstacked x hx⟩
  · rw [hallocated]
    simp

/-- Every step that meets the condition keeps the invariant. -/
theorem Inv.step {a : Action Thread P T} (h : Inv s) (hok : ReadsCurrent s a)
    (hstep : step s a = some s') : Inv s' := by
  cases a with
  | push t value => exact h.beginPush hstep
  | emplace t value => exact h.beginPush hstep
  | tryPop t value =>
      simp only [Stack.step, tryPop] at hstep
      split at hstep
      · rename_i hidle
        cases hstep
        exact h.still (l := [_]) rfl (by rw [hidle]; rfl) (by rw [hidle]; rfl)
          (by rw [hidle]; rfl) (by rw [hidle]; rfl) trivial (fun _ _ => rfl) rfl rfl rfl
          (by simp [Event.Neutral]) rfl
      · cases hstep
  | clear t =>
      simp only [Stack.step, Stack.clear] at hstep
      split at hstep
      · rename_i hidle
        cases hstep
        exact h.still (l := [_]) rfl (by rw [hidle]; rfl) (by rw [hidle]; rfl)
          (by rw [hidle]; rfl) (by rw [hidle]; rfl) trivial (fun _ _ => rfl) rfl rfl rfl
          (by simp [Event.Neutral]) rfl
      · cases hstep
  | run t =>
      simp only [Stack.step, Option.orElse_eq_orElse, Option.orElse_eq_or,
        Option.or_eq_some_iff] at hstep
      rcases hstep with hstep | ⟨-, hstep | ⟨-, hstep⟩⟩
      · exact h.stepPush hstep
      · refine h.stepPop (fun op value n next hpc hfound => ?_) hstep
        exact hok (n, next) (by rw [hpc]; rfl) hfound
      · exact h.stepClear hstep
  | spurious t => exact h.exchangeFailed hstep
  | allocate t n =>
      simp only [Stack.step] at hstep
      split at hstep
      · rename_i op value hpc
        split at hstep
        · cases hstep
        · rename_i hfree
          cases hstep
          exact h.allocate hpc (by simpa using hfree)
      · cases hstep
  | deallocate t word =>
      simp only [Stack.step] at hstep
      split at hstep
      · rename_i op value item n hpc
        cases hstep
        obtain ⟨⟨sh, hmem⟩, hrec⟩ := h
        have hclaim := (hmem.threads t).claim
        rw [hpc] at hclaim
        exact ⟨hmem.release (k := .idle) word (by rw [hpc]; rfl) rfl (by rw [hpc]; rfl)
          trivial rfl rfl rfl rfl rfl rfl, hrec.returned rfl hpc rfl hclaim⟩
      · rename_i op n head hpc
        cases hstep
        obtain ⟨⟨sh, hmem⟩, hrec⟩ := h
        exact ⟨hmem.release (k := .sweep op head) word (by rw [hpc]; rfl) rfl
          (by rw [hpc]; rfl) trivial rfl rfl rfl rfl rfl rfl,
          hrec.frame (l := []) rfl (by rw [hpc]; rfl) (by rw [hpc]; rfl) rfl (by simp)⟩
      · cases hstep

section

omit [DecidableEq Thread]

theorem Inv.initial (heap : P → Node P T) :
    Inv (Stack.initial heap : State Thread P T) := by
  refine ⟨⟨⟨fun _ => .pooled, fun _ => []⟩, ?_⟩, ?_⟩
  · exact {
      path := rfl
      stacked := fun x hx => by cases hx
      pooled := fun n => by simp [Stack.initial]
      threads := fun t =>
        ⟨fun n hn => (by cases hn), rfl, fun n hn => (by cases hn), trivial⟩ }
  · exact {
      orderly := trivial
      pushing := Tickets.empty
      pushing_lt := fun t op h => by cases h
      pushes_lt := fun op h => by cases h
      held := Tickets.empty
      held_popped := fun t item h => by cases h
      returns_popped := fun item h => by cases h
      values := fun d item value h => by cases h }

/-- The invariant says that the stack is last-in first-out. -/
theorem Inv.lifo (h : Inv s) : Lifo s := by
  obtain ⟨⟨sh, hmem⟩, hrec⟩ := h
  exact {
    chain := hmem.path
    acyclic := hmem.path.nodup
    values := fun x hx => (hmem.stacked x hx).2.2
    newest := fun d item n l hsuffix => by
      obtain ⟨rest, htop, -⟩ := hrec.orderly.justified hsuffix
      rw [htop]
      rfl
    once := hrec.pushing.once
    balance := by
      rw [Multiset.coe_add, Multiset.coe_add]
      exact Multiset.coe_eq_coe.mpr hrec.orderly.balance
    returned := by
      refine ⟨hrec.held.once, fun d item value hmem => ⟨?_, hrec.values d item value hmem⟩⟩
      exact hrec.returns_popped item (List.mem_filterMap.mpr ⟨_, hmem, rfl⟩) }

end

/-- Last-in first-out: in a run in which every successful exchange of `try_pop`
installs the current successor of the head, the chain behind `head_` is what has
been pushed and neither popped nor cleared, newest first. -/
theorem stack_lifo (hreach : machine.ReachableUnder ReadsCurrent s) : Lifo s := by
  refine Inv.lifo (hreach.invariant (I := Inv) ?_ ?_)
  · rintro s ⟨heap, rfl⟩
    exact Inv.initial heap
  · intro s a s' h hok hstep
    exact h.step hok hstep

/-- An undisturbed call of `push` into the free node `n`. -/
def soloPush (t : Thread) (value : T) (n : P) : List (Action Thread P T) :=
  ([.push t value, .allocate t n] : List (Action Thread P T)) ++ List.replicate 5 (.run t)

/-- An undisturbed call of `try_pop` on a stack that is not empty. -/
def soloPop (t : Thread) (value : T) (word : Option P) : List (Action Thread P T) :=
  .tryPop t value :: List.replicate 4 (.run t) ++ [.deallocate t word]

/-- Thread `1` pops between the loads and the exchange of thread `0`, which
retries; then thread `1` clears the rest. -/
theorem stack_lifo_run : ∃ s : State ℕ ℕ ℕ,
    machine.execUnder ReadsCurrent (initial fun _ => ⟨none, 0, 0⟩)
      (soloPush 1 10 0 ++ soloPush 1 20 1 ++ soloPush 1 30 2 ++
        ([.tryPop 0 0, .run 0, .run 0] : List (Action ℕ ℕ ℕ)) ++ soloPop 1 0 none ++
        List.replicate 4 (.run 0) ++ ([.deallocate 0 none] : List (Action ℕ ℕ ℕ)) ++
        ([.clear 1, .run 1, .run 1, .run 1, .deallocate 1 none, .run 1] :
          List (Action ℕ ℕ ℕ))) = some s ∧
    returns s.trace = [3, 6] ∧ Lifo s := by
  obtain ⟨s, hrun, hreturns⟩ : ∃ s : State ℕ ℕ ℕ,
      machine.execUnder ReadsCurrent (initial fun _ => ⟨none, 0, 0⟩)
        (soloPush 1 10 0 ++ soloPush 1 20 1 ++ soloPush 1 30 2 ++
          ([.tryPop 0 0, .run 0, .run 0] : List (Action ℕ ℕ ℕ)) ++ soloPop 1 0 none ++
          List.replicate 4 (.run 0) ++ ([.deallocate 0 none] : List (Action ℕ ℕ ℕ)) ++
          ([.clear 1, .run 1, .run 1, .run 1, .deallocate 1 none, .run 1] :
            List (Action ℕ ℕ ℕ))) = some s ∧
      returns s.trace = [3, 6] := ⟨_, rfl, rfl⟩
  exact ⟨s, hrun, hreturns, stack_lifo (.of_execUnder ⟨_, rfl⟩ hrun)⟩

/-- Thread `0` reads head `2` and its successor `1` and stalls.  Thread `1` pops
both nodes and pushes node `2` again, now in front of `0`.  The stalled exchange
puts node `1` back on the stack although it has been freed, and the next pop
returns its item a second time. -/
def resurrecting : List (Action ℕ ℕ ℕ) :=
  soloPush 1 10 0 ++ soloPush 1 20 1 ++ soloPush 1 30 2 ++
    ([.tryPop 0 0, .run 0, .run 0] : List (Action ℕ ℕ ℕ)) ++ soloPop 1 0 none ++
    soloPop 1 0 none ++ soloPush 1 40 2 ++
    ([.run 0, .run 0, .deallocate 0 none] : List (Action ℕ ℕ ℕ)) ++ soloPop 1 0 none

/-- Without the condition an item is popped twice. -/
theorem popped_twice : ¬ ∀ s : State ℕ ℕ ℕ, machine.Reachable s → Lifo s := by
  intro hall
  obtain ⟨s, hrun, hreturns⟩ : ∃ s : State ℕ ℕ ℕ,
      machine.exec (initial fun _ => ⟨none, 0, 0⟩) resurrecting = some s ∧
      ¬ (returns s.trace).Nodup := ⟨_, rfl, by decide⟩
  exact hreturns (hall s (.of_exec ⟨_, rfl⟩ hrun)).returned.1

end Stack
end Lockfree
end Cyan

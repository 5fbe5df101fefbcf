import Cyan.Lockfree.FreelistMoves

/-!
# Who owns a free node

`allocate` exchanges the bare pointer `head_` for a successor that it has read
earlier.  If the same head is back with another successor, the exchange installs
a node that may belong to somebody else.

* `OneOwner` states that a node is never handed out twice at the same time, that
  the list is acyclic, and that no outstanding node is on it.
* `InstallsListed` is the condition on a step: what a successful exchange of
  `allocate` installs is null or a node of the list behind the head it removes.
* `Inv` gives every node one holder; a step moves at most one node from one
  holder to the next (`Inv.transfer`).
* `one_owner` holds for every run that keeps to the condition, and
  `handed_out_twice` is a run that breaks it.
-/

namespace Cyan
namespace Lockfree
namespace Freelist

open Base

variable {Thread P : Type*} [DecidableEq Thread] [DecidableEq P]
variable {s s' : State Thread P} {l l' : List P}

/-! ## The property and the condition -/

/-- Free nodes have exactly one owner. -/
structure OneOwner (s : State Thread P) : Prop where
  /-- the list ends and visits no node twice -/
  acyclic : ∃ l, Path s.next s.head l none ∧ l.Nodup
  /-- no outstanding node is on the list -/
  offList : ∀ n, outstanding s.trace n = true →
    ∀ h, s.head = some h → ¬ Reaches s.next h n
  /-- between two returns of the same node there is a `deallocate` of it -/
  single : ∀ n a b c,
    s.trace = a ++ .allocated n :: b ++ .allocated n :: c → .deallocated n ∈ b

/-- If the step is a successful exchange of `allocate`, the pointer it installs
is null or a node of the list behind the head it removes. -/
def InstallsListed (s : State Thread P) (a : Action Thread P) : Prop :=
  ∀ t h y, a = .run t → s.pc t = .casHead h (some y) → s.head = some h →
    ∃ x, s.next h = some x ∧ Reaches s.next x y

/-! ## Holders -/

/-- Who holds a node. -/
inductive Holder (Thread : Type*)
  | system
  | caller
  | thread (t : Thread)
  | list

/-- The node that a call has taken off the list, or not put on it yet. -/
def Pc.node : Pc P → Option P
  | .subSize h => some h
  | .checkSize n => some n
  | .systemDeallocate n => some n
  | .loadForNext n => some n
  | .storeNext n _ => some n
  | .casNode n => some n
  | _ => none

/-- Every return of `allocate` finds its node not outstanding. -/
def Proper : List (Event P) → Prop
  | [] => True
  | .allocated n :: tr => outstanding tr n = false ∧ Proper tr
  | .deallocated _ :: tr => Proper tr

/-- Every node has one holder, and the list holds what is on it. -/
structure Inv (s : State Thread P) (l : List P) (holder : P → Holder Thread) :
    Prop where
  path : Path s.next s.head l none
  listed : ∀ n ∈ l, holder n = .list
  system : ∀ n, s.mapped n = false ↔ holder n = .system
  caller : ∀ n, outstanding s.trace n = true ↔ holder n = .caller
  thread : ∀ t n, (s.pc t).node = some n → holder n = .thread t
  proper : Proper s.trace

variable {holder : P → Holder Thread}

/-- A thread that keeps its node may move on and change the memory off the
list. -/
theorem Inv.still {t : Thread} {k : Pc P} (hinv : Inv s l holder)
    (hpc : s'.pc = Function.update s.pc t k) (hnode : k.node = (s.pc t).node)
    (hhead : s'.head = s.head) (hnext : ∀ n ∈ l, s.next n = s'.next n)
    (hmapped : s'.mapped = s.mapped) (htrace : s'.trace = s.trace) :
    Inv s' l holder where
  path := by
    rw [hhead]
    exact hinv.path.congr hnext
  listed := hinv.listed
  system := by rw [hmapped]; exact hinv.system
  caller := by rw [htrace]; exact hinv.caller
  proper := by rw [htrace]; exact hinv.proper
  thread u n hu := by
    rw [hpc] at hu
    by_cases hut : u = t
    · subst hut
      rw [Function.update_self, hnode] at hu
      exact hinv.thread u n hu
    · rw [Function.update_of_ne hut] at hu
      exact hinv.thread u n hu

/-- Node `n` passes from its holder to `h`, by a step of thread `t`. -/
theorem Inv.transfer {t : Thread} {k : Pc P} {n : P} {h : Holder Thread}
    (hinv : Inv s l holder) (hpc : s'.pc = Function.update s.pc t k)
    (hmine : ∀ u, holder n = .thread u → u = t)
    (hnode : ∀ m, k.node = some m → m = n ∧ h = .thread t)
    (hpath : Path s'.next s'.head l' none)
    (hlisted : ∀ m ∈ l', m ∈ l ∧ m ≠ n ∨ m = n ∧ h = .list)
    (hmapped : ∀ m, m ≠ n → s'.mapped m = s.mapped m)
    (hsystem : s'.mapped n = false ↔ h = .system)
    (htrace : ∀ m, m ≠ n → outstanding s'.trace m = outstanding s.trace m)
    (hcaller : outstanding s'.trace n = true ↔ h = .caller)
    (hproper : Proper s'.trace) :
    Inv s' l' (Function.update holder n h) where
  path := hpath
  proper := hproper
  listed m hm := by
    rcases hlisted m hm with ⟨hold, hne⟩ | ⟨rfl, hlist⟩
    · rw [Function.update_of_ne hne]
      exact hinv.listed m hold
    · rw [Function.update_self, hlist]
  system m := by
    by_cases hm : m = n
    · subst hm
      rw [Function.update_self]
      exact hsystem
    · rw [Function.update_of_ne hm, hmapped m hm]
      exact hinv.system m
  caller m := by
    by_cases hm : m = n
    · subst hm
      rw [Function.update_self]
      exact hcaller
    · rw [Function.update_of_ne hm, htrace m hm]
      exact hinv.caller m
  thread u m hu := by
    rw [hpc] at hu
    by_cases hut : u = t
    · subst hut
      rw [Function.update_self] at hu
      obtain ⟨rfl, hh⟩ := hnode m hu
      rw [Function.update_self, hh]
    · rw [Function.update_of_ne hut] at hu
      have hold := hinv.thread u m hu
      have hm : m ≠ n := by
        rintro rfl
        exact hut (hmine u hold)
      rw [Function.update_of_ne hm]
      exact hold

section

omit [DecidableEq Thread]

/-- A node that the caller or a thread holds is not on the list. -/
theorem Inv.not_listed (hinv : Inv s l holder) {n : P} (h : holder n ≠ .list) :
    n ∉ l :=
  fun hn => h (hinv.listed n hn)

/-- The node that a thread holds is not on the list. -/
theorem Inv.held_off (hinv : Inv s l holder) {t : Thread} {k : Pc P} {n : P}
    (hpc : s.pc t = k) (hn : k.node = some n) : n ∉ l := by
  refine hinv.not_listed ?_
  rw [hinv.thread t n (by rw [hpc]; exact hn)]
  simp

/-- A node that its owner may overwrite is not on the list. -/
theorem Inv.owned_off (hinv : Inv s l holder) {n : P}
    (howner : (outstanding s.trace n || !s.mapped n) = true) : n ∉ l := by
  refine hinv.not_listed ?_
  rcases Bool.or_eq_true_iff.mp howner with hout | hfree
  · rw [(hinv.caller n).mp hout]
    simp
  · rw [(hinv.system n).mp (by simpa using hfree)]
    simp

end

/-! ## Every step keeps the invariant -/

/-- A thread that keeps its node moves on. -/
theorem Inv.moveOn {t : Thread} {k k' : Pc P} (hinv : Inv s l holder)
    (hpc : s.pc t = k) (hnode : k'.node = k.node) :
    ∃ l' holder', Inv (s.goto t k') l' holder' := by
  refine ⟨l, holder, hinv.still rfl ?_ rfl (fun _ _ => rfl) rfl rfl⟩
  rw [hpc]
  exact hnode

/-- A thread writes the link of the node that it holds. -/
theorem Inv.writes {t : Thread} {k k' : Pc P} {n : P} (word : Option P)
    (hinv : Inv s l holder) (hpc : s.pc t = k) (hn : k.node = some n)
    (hnode : k'.node = some n) :
    ∃ l' holder', Inv ((s.setNext n word).goto t k') l' holder' := by
  have hoff : n ∉ l := hinv.held_off hpc hn
  refine ⟨l, holder, hinv.still rfl ?_ rfl (fun m hm => ?_) rfl rfl⟩
  · rw [hpc, hn]
    exact hnode
  · have hne : m ≠ n := fun heq => hoff (heq ▸ hm)
    exact (Function.update_of_ne hne _ _).symm

/-- A failed exchange of `deallocate` loads the head into the link. -/
theorem Inv.retryNode {t : Thread} {n : P} (hinv : Inv s l holder)
    (hpc : s.pc t = .casNode n) : ∃ l' holder', Inv (s.setNext n s.head) l' holder' := by
  rw [← goto_self (s := s.setNext n s.head) hpc]
  exact hinv.writes s.head hpc rfl rfl

omit [DecidableEq Thread] in
/-- What an exchange of `allocate` installs is the beginning of a part of the
list behind the head it removes. -/
theorem Inv.installed {h : P} {next : Option P} (hinv : Inv s l holder)
    (hfound : s.head = some h)
    (hok : ∀ y, next = some y → ∃ x, s.next h = some x ∧ Reaches s.next x y) :
    ∃ rest l', l = h :: rest ∧ Path s.next next l' none ∧ l' <:+ rest := by
  have hpath := hinv.path
  rw [hfound] at hpath
  cases l with
  | nil => cases hpath
  | cons a rest =>
      obtain ⟨ha, hrest⟩ := hpath
      cases ha
      refine ⟨rest, ?_⟩
      cases next with
      | none => exact ⟨[], rfl, rfl, List.nil_suffix⟩
      | some y =>
          obtain ⟨x, hx, hreach⟩ := hok y rfl
          rw [hx] at hrest
          have hxmem : x ∈ rest := by
            cases rest with
            | nil => cases hrest
            | cons b rest =>
                obtain ⟨hb, -⟩ := hrest
                cases hb
                exact List.mem_cons_self
          obtain ⟨l₁, l₂, hl, hpath'⟩ :=
            hrest.suffix_of_mem (hrest.mem_of_reaches hxmem hreach)
          exact ⟨y :: l₂, rfl, ⟨rfl, hpath'⟩, l₁, hl.symm⟩

/-- The exchange of `allocate` takes a node off the list. -/
theorem Inv.casHead {t : Thread} {h : P} {next : Option P}
    (hinv : Inv s l holder) (hpc : s.pc t = .casHead h next)
    (hfound : s.head = some h)
    (hok : ∀ y, next = some y → ∃ x, s.next h = some x ∧ Reaches s.next x y) :
    ∃ l' holder', Inv ({ s with head := next }.goto t (.subSize h)) l' holder' := by
  obtain ⟨rest, l', rfl, hpath', hsuffix⟩ := hinv.installed hfound hok
  have hh : h ∉ rest := (List.nodup_cons.mp hinv.path.nodup).1
  have hsub : ∀ m ∈ l', m ∈ rest := fun m hm => hsuffix.subset hm
  have hlist : holder h = .list := hinv.listed h List.mem_cons_self
  refine ⟨l', _, hinv.transfer (n := h) (h := .thread t) rfl (by simp [hlist])
    (fun m hm => ⟨(Option.some.inj hm).symm, rfl⟩) hpath' (fun m hm => ?_)
    (fun _ _ => rfl) ?_ (fun _ _ => rfl) ?_ hinv.proper⟩
  · refine .inl ⟨List.mem_cons_of_mem _ (hsub m hm), ?_⟩
    rintro rfl
    exact hh (hsub m hm)
  · show s.mapped h = false ↔ _
    rw [hinv.system, hlist]
    simp
  · show outstanding s.trace h = true ↔ _
    rw [hinv.caller, hlist]
    simp

/-- `allocate` hands its node to the caller. -/
theorem Inv.subSize {t : Thread} {h : P} (size : UInt64) (hinv : Inv s l holder)
    (hpc : s.pc t = .subSize h) :
    ∃ holder', Inv (({ s with size := size }.emit (.allocated h)).goto t .idle) l
      holder' := by
  have hheld := hinv.thread t h (by rw [hpc]; rfl)
  have hout : outstanding s.trace h = false := by
    by_contra hne
    have := (hinv.caller h).mp (by simpa using hne)
    rw [hheld] at this
    cases this
  refine ⟨_, hinv.transfer (n := h) (h := .caller) rfl ?_ (fun m hm => by cases hm)
    hinv.path (fun m hm => ?_) (fun _ _ => rfl) ?_ (fun m hm => ?_) ?_
    ⟨hout, hinv.proper⟩⟩
  · rintro u hu
    rw [hheld] at hu
    cases hu
    rfl
  · refine .inl ⟨hm, ?_⟩
    rintro rfl
    exact hinv.not_listed (by rw [hheld]; simp) hm
  · show s.mapped h = false ↔ _
    rw [hinv.system, hheld]
    simp
  · have hne : h ≠ m := fun heq => hm heq.symm
    show outstanding (.allocated h :: s.trace) m = _
    simp [outstanding, hne]
  · show outstanding (.allocated h :: s.trace) h = true ↔ _
    simp [outstanding]

/-- The system hands out a node that it had not handed out. -/
theorem Inv.system_allocate {t : Thread} {n : P} (hinv : Inv s l holder)
    (hfree : s.mapped n = false) :
    ∃ holder', Inv (({ s with mapped := Function.update s.mapped n true }.emit
      (.allocated n)).goto t .idle) l holder' := by
  have hheld := (hinv.system n).mp hfree
  have hout : outstanding s.trace n = false := by
    by_contra hne
    have := (hinv.caller n).mp (by simpa using hne)
    rw [hheld] at this
    cases this
  refine ⟨_, hinv.transfer (n := n) (h := .caller) rfl (by simp [hheld])
    (fun m hm => by cases hm) hinv.path (fun m hm => ?_)
    (fun m hm => Function.update_of_ne hm _ _) ?_ (fun m hm => ?_) ?_
    ⟨hout, hinv.proper⟩⟩
  · refine .inl ⟨hm, ?_⟩
    rintro rfl
    exact hinv.not_listed (by rw [hheld]; simp) hm
  · show Function.update s.mapped n true n = false ↔ _
    simp
  · have hne : n ≠ m := fun heq => hm heq.symm
    show outstanding (.allocated n :: s.trace) m = _
    simp [outstanding, hne]
  · show outstanding (.allocated n :: s.trace) n = true ↔ _
    simp [outstanding]

/-- `deallocate` receives a node from the caller. -/
theorem Inv.deallocate {t : Thread} {n : P} (hinv : Inv s l holder)
    (hout : outstanding s.trace n = true) :
    ∃ holder', Inv ((s.emit (.deallocated n)).goto t (.checkSize n)) l holder' := by
  have hheld := (hinv.caller n).mp hout
  refine ⟨_, hinv.transfer (n := n) (h := .thread t) rfl (by simp [hheld])
    (fun m hm => ⟨(Option.some.inj hm).symm, rfl⟩) hinv.path (fun m hm => ?_)
    (fun _ _ => rfl) ?_ (fun m hm => ?_) ?_ hinv.proper⟩
  · refine .inl ⟨hm, ?_⟩
    rintro rfl
    exact hinv.not_listed (by rw [hheld]; simp) hm
  · show s.mapped n = false ↔ _
    rw [hinv.system, hheld]
    simp
  · have hne : n ≠ m := fun heq => hm heq.symm
    show outstanding (.deallocated n :: s.trace) m = _
    simp [outstanding, hne]
  · show outstanding (.deallocated n :: s.trace) n = true ↔ _
    simp [outstanding]

/-- A full list gives its node back to the system. -/
theorem Inv.system_deallocate {t : Thread} {n : P} (hinv : Inv s l holder)
    (hpc : s.pc t = .systemDeallocate n) :
    ∃ holder', Inv ({ s with mapped := Function.update s.mapped n false }.goto t
      .idle) l holder' := by
  have hheld := hinv.thread t n (by rw [hpc]; rfl)
  refine ⟨_, hinv.transfer (n := n) (h := .system) rfl ?_ (fun m hm => by cases hm)
    hinv.path (fun m hm => ?_) (fun m hm => Function.update_of_ne hm _ _) ?_
    (fun _ _ => rfl) ?_ hinv.proper⟩
  · rintro u hu
    rw [hheld] at hu
    cases hu
    rfl
  · refine .inl ⟨hm, ?_⟩
    rintro rfl
    exact hinv.not_listed (by rw [hheld]; simp) hm
  · show Function.update s.mapped n false n = false ↔ _
    simp
  · show outstanding s.trace n = true ↔ _
    rw [hinv.caller, hheld]
    simp

/-- The exchange of `deallocate` puts the node in front of the list. -/
theorem Inv.casNode {t : Thread} {n : P} (hinv : Inv s l holder)
    (hpc : s.pc t = .casNode n) (hfound : s.head = s.next n) :
    ∃ holder', Inv ({ s with head := some n }.goto t .addSize) (n :: l) holder' := by
  have hheld := hinv.thread t n (by rw [hpc]; rfl)
  have hpath : Path s.next (some n) (n :: l) none := ⟨rfl, hfound ▸ hinv.path⟩
  refine ⟨_, hinv.transfer (n := n) (h := .list) rfl ?_ (fun m hm => by cases hm)
    hpath (fun m hm => ?_) (fun _ _ => rfl) ?_ (fun _ _ => rfl) ?_ hinv.proper⟩
  · rintro u hu
    rw [hheld] at hu
    cases hu
    rfl
  · rcases List.mem_cons.mp hm with rfl | hold
    · exact .inr ⟨rfl, rfl⟩
    · refine .inl ⟨hold, ?_⟩
      rintro rfl
      exact hinv.not_listed (by rw [hheld]; simp) hold
  · show s.mapped n = false ↔ _
    rw [hinv.system, hheld]
    simp
  · show outstanding s.trace n = true ↔ _
    rw [hinv.caller, hheld]
    simp

omit [DecidableEq Thread] in
/-- Whoever owns a node that is not on the list may overwrite its link. -/
theorem Inv.overwrite {n : P} (word : Option P) (hinv : Inv s l holder)
    (howner : (outstanding s.trace n || !s.mapped n) = true) :
    Inv (s.setNext n word) l holder := by
  exact {
    path := hinv.path.update (hinv.owned_off howner)
    listed := hinv.listed
    system := hinv.system
    caller := hinv.caller
    thread := hinv.thread
    proper := hinv.proper }

/-- Every step that meets the condition keeps the invariant. -/
theorem Inv.step {maxSize : UInt64} {a : Action Thread P} (hinv : Inv s l holder)
    (hok : InstallsListed s a) (hstep : step maxSize s a = some s') :
    ∃ l' holder', Inv s' l' holder' := by
  cases step_move hstep with
  | allocate hpc => exact hinv.moveOn hpc rfl
  | loadNull hpc hhead => exact hinv.moveOn hpc rfl
  | loadHead hpc hhead => exact hinv.moveOn hpc rfl
  | followNull hpc => exact hinv.moveOn hpc rfl
  | readNext hpc => exact hinv.moveOn hpc rfl
  | @remove t h next hpc hhead =>
      refine hinv.casHead hpc hhead fun y hy => ?_
      exact hok t h y rfl (by rw [hpc, hy]) hhead
  | retry hpc hhead => exact hinv.moveOn hpc rfl
  | spurious hpc => exact hinv.moveOn hpc rfl
  | subSize hpc => exact ⟨l, hinv.subSize _ hpc⟩
  | systemAllocate hpc hfree => exact ⟨l, hinv.system_allocate hfree⟩
  | deallocate hpc hout => exact ⟨l, hinv.deallocate hout⟩
  | full hpc hsize => exact hinv.moveOn hpc rfl
  | notFull hpc hsize => exact hinv.moveOn hpc rfl
  | systemDeallocate hpc => exact ⟨l, hinv.system_deallocate hpc⟩
  | loadForNext hpc => exact hinv.moveOn hpc rfl
  | storeNext hpc => exact hinv.writes _ hpc rfl rfl
  | insert hpc hhead => exact ⟨_, hinv.casNode hpc hhead⟩
  | retryNode hpc hhead => exact hinv.retryNode hpc
  | spuriousNode hpc => exact hinv.retryNode hpc
  | addSize hpc =>
      refine ⟨l, holder, hinv.still rfl ?_ rfl (fun _ _ => rfl) rfl rfl⟩
      rw [hpc]
      rfl
  | write howner => exact ⟨l, holder, hinv.overwrite _ howner⟩

/-! ## The run -/

section

omit [DecidableEq Thread]

/-- The constructor chains distinct nodes of the system. -/
theorem Inv.prefill {n : P} (hinv : Inv s l holder) (hidle : ∀ t, s.pc t = .idle)
    (hfree : s.mapped n = false) :
    Inv (prefill s n) (n :: l) (Function.update holder n .list) := by
  have hheld := (hinv.system n).mp hfree
  have hoff : n ∉ l := hinv.not_listed (by rw [hheld]; simp)
  exact {
    path := hinv.path.cons_update hoff
    proper := hinv.proper
    listed := fun m hm => by
      rcases List.mem_cons.mp hm with rfl | hold
      · exact Function.update_self ..
      · have hne : m ≠ n := fun heq => hoff (heq ▸ hold)
        rw [Function.update_of_ne hne]
        exact hinv.listed m hold
    system := fun m => by
      show Function.update s.mapped n true m = false ↔ _
      by_cases hm : m = n
      · subst hm
        simp
      · rw [Function.update_of_ne hm, Function.update_of_ne hm]
        exact hinv.system m
    caller := fun m => by
      show outstanding s.trace m = true ↔ _
      rw [hinv.caller]
      by_cases hm : m = n
      · subst hm
        simp [hheld]
      · rw [Function.update_of_ne hm]
    thread := fun t m hm => by
      rw [show (Freelist.prefill s n).pc t = .idle from hidle t] at hm
      cases hm }

/-- A new free list has the invariant, and all its nodes are on the list. -/
theorem Inv.initial (nodes : List P) (hnodup : nodes.Nodup)
    (hinv : Inv s l holder) (hidle : ∀ t, s.pc t = .idle)
    (hfree : ∀ n ∈ nodes, s.mapped n = false) :
    ∃ l' holder', Inv (nodes.foldl Freelist.prefill s) l' holder' ∧
      l'.length = l.length + nodes.length := by
  induction nodes generalizing s l holder with
  | nil => exact ⟨l, holder, hinv, rfl⟩
  | cons n nodes ih =>
      obtain ⟨hn, hnodup⟩ := List.nodup_cons.mp hnodup
      obtain ⟨l', holder', hinv', hlength⟩ :=
        ih hnodup (hinv.prefill hidle (hfree n List.mem_cons_self)) hidle fun m hm => by
          have hne : m ≠ n := fun heq => hn (heq ▸ hm)
          show Function.update s.mapped n true m = false
          rw [Function.update_of_ne hne]
          exact hfree m (List.mem_cons_of_mem _ hm)
      refine ⟨l', holder', hinv', ?_⟩
      rw [hlength, List.length_cons, List.length_cons]
      omega

theorem Inv.empty (next : P → Option P) :
    Inv (empty next : State Thread P) [] fun _ => .system where
  path := rfl
  listed _ hn := by cases hn
  system _ := by simp [Freelist.empty]
  caller _ := by simp [Freelist.empty, outstanding]
  thread _ _ h := by cases h
  proper := trivial

end

/-- A node that is outstanding stays so until it is given back. -/
theorem outstanding_append {n : P} {b tr : List (Event P)}
    (hout : outstanding tr n = true) (hb : .deallocated n ∉ b) :
    outstanding (b ++ tr) n = true := by
  induction b with
  | nil => exact hout
  | cons e b ih =>
      have hrec := ih fun hmem => hb (List.mem_cons_of_mem _ hmem)
      cases e with
      | allocated m => simp [outstanding, hrec]
      | deallocated m =>
          have hne : m ≠ n := by
            rintro rfl
            exact hb List.mem_cons_self
          simp [outstanding, hrec, hne]

theorem Proper.drop {a tr : List (Event P)} (h : Proper (a ++ tr)) : Proper tr := by
  induction a with
  | nil => exact h
  | cons e a ih =>
      cases e with
      | allocated m => exact ih h.2
      | deallocated m => exact ih h

omit [DecidableEq Thread] in
/-- The invariant says that free nodes have one owner. -/
theorem Inv.oneOwner (hinv : Inv s l holder) : OneOwner s where
  acyclic := ⟨l, hinv.path, hinv.path.nodup⟩
  offList n hout h hh hreach := by
    have hheadmem : h ∈ l := by
      have hpath := hinv.path
      rw [hh] at hpath
      cases l with
      | nil => cases hpath
      | cons a rest =>
          obtain ⟨ha, -⟩ := hpath
          cases ha
          exact List.mem_cons_self
    refine hinv.not_listed ?_ (hinv.path.mem_of_reaches hheadmem hreach)
    rw [(hinv.caller n).mp hout]
    simp
  single n a b c htrace := by
    by_contra hnot
    have hproper := hinv.proper
    rw [htrace, List.append_assoc] at hproper
    obtain ⟨hfree, -⟩ := hproper.drop
    have hout : outstanding (.allocated n :: c) n = true := by simp [outstanding]
    cases (outstanding_append hout hnot).symm.trans hfree

/-- One owner: in a run in which every successful exchange of `allocate`
installs null or a node of the list behind the head it removes, no node is
handed out twice, no outstanding node is on the list, and the list is
acyclic. -/
theorem one_owner {maxSize : UInt64}
    (hreach : (machine maxSize).ReachableUnder InstallsListed s) : OneOwner s := by
  obtain ⟨l, holder, hinv⟩ := hreach.invariant
    (I := fun s => ∃ l holder, Inv s l holder)
    (by
      rintro s ⟨next, nodes, hnodup, -, rfl⟩
      have hempty : Inv (empty next : State Thread P) [] fun _ => .system :=
        Inv.empty next
      obtain ⟨l, holder, hinv, -⟩ :=
        Inv.initial nodes hnodup hempty (fun _ => rfl) fun _ _ => rfl
      exact ⟨l, holder, hinv⟩)
    (by
      rintro s a s' ⟨l, holder, hinv⟩ hok hstep
      exact hinv.step hok hstep)
  exact hinv.oneOwner

/-- The head and the successor that `allocate` has read for its exchange. -/
def Pc.expected : Pc P → Option (P × Option P)
  | .casHead h next => some (h, next)
  | _ => none

/-- The condition in a form that can be computed: the successor of the head is
still the one that was read. -/
def ReadsCurrent (s : State Thread P) : Action Thread P → Prop
  | .run t => ∀ x ∈ (s.pc t).expected, s.next x.1 = x.2
  | _ => True

instance (s : State Thread P) : (a : Action Thread P) → Decidable (ReadsCurrent s a)
  | .run t => inferInstanceAs (Decidable (∀ x ∈ (s.pc t).expected, _ = _))
  | .allocate _ => isTrue trivial
  | .deallocate _ _ => isTrue trivial
  | .spurious _ => isTrue trivial
  | .system _ _ => isTrue trivial
  | .write _ _ => isTrue trivial

omit [DecidableEq Thread] [DecidableEq P] in
theorem ReadsCurrent.installsListed {a : Action Thread P} (h : ReadsCurrent s a) :
    InstallsListed s a := by
  rintro t x y rfl hpc -
  have hnext : s.next x = some y := h (x, some y) (by rw [hpc]; rfl)
  exact ⟨y, hnext, .refl⟩

/-- An undisturbed call of `allocate` on a list that is not empty. -/
def soloAllocate (t : Thread) : List (Action Thread P) :=
  .allocate t :: List.replicate 4 (.run t)

/-- An undisturbed call of `deallocate` on a list that is not full. -/
def soloDeallocate (t : Thread) (n : P) : List (Action Thread P) :=
  .deallocate t n :: List.replicate 5 (.run t)

/-- Thread `1` takes node `0` between the loads and the exchange of thread `0`,
which therefore retries and gets node `1`. -/
theorem one_owner_run : ∃ s : State ℕ ℕ,
    (machine 3).execUnder ReadsCurrent
      ([2, 1, 0].foldl prefill (empty fun _ => none))
      ([.allocate 0, .run 0, .run 0] ++ soloAllocate 1 ++ List.replicate 4 (.run 0) ++
        soloDeallocate 1 0) = some s ∧
    s.trace = [.deallocated 0, .allocated 1, .allocated 0] ∧ OneOwner s := by
  obtain ⟨s, hrun, htrace⟩ : ∃ s : State ℕ ℕ,
      (machine 3).execUnder ReadsCurrent
        ([2, 1, 0].foldl prefill (empty fun _ => none))
        ([.allocate 0, .run 0, .run 0] ++ soloAllocate 1 ++
          List.replicate 4 (.run 0) ++ soloDeallocate 1 0) = some s ∧
      s.trace = [.deallocated 0, .allocated 1, .allocated 0] := ⟨_, rfl, rfl⟩
  have hreach : (machine 3).ReachableUnder ReadsCurrent s :=
    .of_execUnder ⟨_, [2, 1, 0], by decide, rfl, rfl⟩ hrun
  exact ⟨s, hrun, htrace,
    one_owner (hreach.mono fun _ _ => ReadsCurrent.installsListed)⟩

/-- Thread `0` reads head `0` and its successor `1` and stalls.  Thread `1`
allocates both nodes and gives `0` back, so that `0` is the head again, now in
front of `2`.  The stalled exchange puts node `1` on the list although thread
`1` still owns it, and the next call of `allocate` hands it out again. -/
def recycling : List (Action ℕ ℕ) :=
  ([.allocate 0, .run 0, .run 0] : List (Action ℕ ℕ)) ++ soloAllocate 1 ++
    soloAllocate 1 ++ soloDeallocate 1 0 ++ ([.run 0, .run 0] : List (Action ℕ ℕ)) ++
    soloAllocate 0

/-- Without the condition a node is handed out twice. -/
theorem handed_out_twice : ¬ ∀ s : State ℕ ℕ, (machine 3).Reachable s → OneOwner s := by
  intro hall
  obtain ⟨s, hrun, htrace⟩ : ∃ s : State ℕ ℕ,
      (machine 3).exec ([2, 1, 0].foldl prefill (empty fun _ => none)) recycling =
        some s ∧
      s.trace = [] ++ .allocated 1 :: [.allocated 0, .deallocated 0] ++
        .allocated 1 :: [.allocated 0] := ⟨_, rfl, rfl⟩
  have hreach : (machine 3).Reachable s :=
    .of_exec ⟨_, [2, 1, 0], by decide, rfl, rfl⟩ hrun
  have hmem := (hall s hreach).single 1 _ _ _ htrace
  simp at hmem

end Freelist
end Lockfree
end Cyan

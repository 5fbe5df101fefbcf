import Cyan.Base.Places
import Cyan.Net.BasicSocket

/-!
# Who closes a descriptor

Whether every open descriptor is the handle of exactly one live object, so that it is
closed once and by that object.

* `held` says which object has which descriptor, and `Tidy` is the invariant: the open
  descriptors are the ones that some object has, and no two objects have the same.
* `Careful` lists what breaks it: `open` on an object that has a descriptor, the constructor
  from an endpoint when it fails behind `open`, and a constructor that is given what another
  object has.
-/

namespace Cyan
namespace Net

open Base

/-- The live object at `s` has the descriptor. -/
def Process.Owns (p : Process) (s fd : Nat) : Prop :=
  ∃ o, p.sockets s = some o ∧ o.nativeHandle = fd

/-- Every open descriptor has one owner, and none was closed that was not open. -/
structure OneOwner (p : Process) : Prop where
  owner : ∀ fd : Nat, p.world.isOpen fd → ∃! s, p.Owns s fd
  closedOnce : p.world.strayCloses = []

/-- When `open` succeeds, `set_option` and `bind` behind it do so, too. -/
def BindSucceeds (w : World) (protocol : Protocol) : Prop :=
  ∀ (fd : Nat) w', socket protocol.family protocol.type protocol.protocol w =
      .ok (fd, .clear) w' →
    w'.next (.setsockopt fd .reuseAddress 1) = none ∧
      (w'.called (.setsockopt fd .reuseAddress 1)).next (.bind fd) = none

/-- The operation does not lose or share a descriptor. -/
def Careful (p : Process) : SocketOp → Prop
  | .openWith this _ => ∀ fd, ¬p.Owns this fd
  | .fromEndpoint _ protocol => BindSucceeds p.world protocol
  | .fromHandle _ sock => ∀ s fd, sock = (fd : Nat) → ¬p.Owns s fd
  | _ => True

/-! ## What the objects have -/

/-- The descriptor of an object. -/
def Socket.held (o : Socket) : List Nat :=
  o.nativeHandle.toNat?.toList

/-- What is where. -/
def Process.held (p : Process) (s : Nat) : List Nat :=
  (p.sockets s).elim [] Socket.held

theorem Socket.mem_held {o : Socket} {fd : Nat} : fd ∈ o.held ↔ o.nativeHandle = fd := by
  rw [held, Option.mem_toList]
  exact Int.mem_toNat?

theorem Socket.held_of_eq {o : Socket} {fd : Nat} (h : o.nativeHandle = fd) : o.held = [fd] := by
  rw [held, h]
  rfl

theorem Socket.held_invalid (io : Option Int) : Socket.held ⟨invalidSocket, io⟩ = [] := rfl

namespace Process

variable {p : Process} {s : Nat} {o : Socket}

theorem held_of_live (h : p.sockets s = some o) : p.held s = o.held := by
  rw [held, h, Option.elim_some]

theorem mem_held {fd : Nat} : fd ∈ p.held s ↔ p.Owns s fd := by
  unfold held Owns
  cases hs : p.sockets s with
  | none => simp
  | some o =>
      rw [Option.elim_some, Socket.mem_held]
      simp

theorem held_place (p : Process) (s : Nat) (o : Socket) :
    (p.place s o).held = Function.update p.held s o.held := by
  funext r
  by_cases hr : r = s
  · subst hr
    simp [held, place]
  · simp [held, place, hr]

theorem held_remove (p : Process) (s : Nat) :
    (p.remove s).held = Function.update p.held s [] := by
  funext r
  by_cases hr : r = s
  · subst hr
    simp [held, remove]
  · simp [held, remove, hr]

end Process

namespace World

variable {w w₀ : World} {fd : Nat}

theorem isOpen_iff {w : World} {fd : Nat} : w.isOpen fd ↔ fd ∈ w.descriptors.map Prod.fst := by
  rw [isOpen, List.any_eq_true, List.mem_map]
  exact exists_congr fun _ => and_congr_right' (decide_eq_true_iff.trans Int.natCast_inj)

theorem isOpen_of_cons {flags : UInt32} (h : w.descriptors = (fd, flags) :: w₀.descriptors)
    (fd' : Nat) : w.isOpen fd' ↔ fd' = fd ∨ w₀.isOpen fd' := by
  rw [isOpen_iff, isOpen_iff, h, List.map_cons, List.mem_cons]

theorem isOpen_of_eq (h : w.descriptors = w₀.descriptors) (fd' : Nat) :
    w.isOpen fd' ↔ w₀.isOpen fd' := by
  rw [isOpen_iff, isOpen_iff, h]

theorem isOpen_release (w : World) (sock : Int) (fd' : Nat) :
    (w.release sock).isOpen fd' ↔ w.isOpen fd' ∧ (fd' : Int) ≠ sock := by
  simp only [isOpen_iff, release, List.mem_map, List.mem_filter, decide_eq_true_eq]
  constructor
  · rintro ⟨d, ⟨hd, hne⟩, rfl⟩
    exact ⟨⟨d, hd, rfl⟩, hne⟩
  · rintro ⟨⟨d, hd, rfl⟩, hne⟩
    exact ⟨d, ⟨hd, hne⟩, rfl⟩

end World

/-- A `close` that succeeds, of what is open or no descriptor at all. -/
theorem sameRest_closed {w : World} {sock : Int} (h : sock < 0 ∨ w.isOpen sock) :
    SameRest w (w.closed sock) := by
  have hsame := World.closing_of_isOpen h
  refine ⟨?_, ?_⟩
  · show (w.closing sock).answer = w.answer
    rw [hsame]
  · show (w.closing sock).strayCloses = w.strayCloses
    rw [hsame]

theorem World.isOpen_closed (w : World) (sock : Int) (fd' : Nat) :
    (w.closed sock).isOpen fd' ↔ w.isOpen fd' ∧ (fd' : Int) ≠ sock := by
  rw [closed, isOpen_release]
  exact and_congr_left' (isOpen_of_eq (w.closing_descriptors sock) fd')

/-! ## The invariant -/

/-- The open descriptors are the ones that the objects have, each at one place. -/
structure Tidy (p : Process) : Prop where
  sole : Sole id p.held
  table : ∀ fd : Nat, p.world.isOpen fd ↔ ∃ s, fd ∈ p.held s
  closes : CloseSucceeds p.world
  closedOnce : p.world.strayCloses = []

namespace Tidy

variable {p p' : Process} {s t fd : Nat}

theorem oneOwner (h : Tidy p) : OneOwner p where
  owner fd hopen := by
    obtain ⟨s, hs⟩ := (h.table fd).mp hopen
    refine ⟨s, Process.mem_held.mp hs, fun s' hs' => ?_⟩
    exact h.sole.sole s' s fd fd (Process.mem_held.mpr hs') hs rfl
  closedOnce := h.closedOnce

/-- Nothing that counts has changed. -/
theorem same (h : Tidy p) (hheld : p'.held = p.held)
    (htable : ∀ fd : Nat, p'.world.isOpen fd ↔ p.world.isOpen fd)
    (hrest : SameRest p.world p'.world) : Tidy p' where
  sole := hheld ▸ h.sole
  table fd := by
    rw [htable, hheld]
    exact h.table fd
  closes sock n := hrest.answer ▸ h.closes sock n
  closedOnce := hrest.strayCloses.trans h.closedOnce

/-- An object gets a new descriptor. -/
theorem of_come (h : Tidy p) (hcome : Come p.held p'.held s fd) (hnew : p.world.isOpen fd = false)
    {flags : UInt32} (htable : p'.world.descriptors = (fd, flags) :: p.world.descriptors)
    (hrest : SameRest p.world p'.world) : Tidy p' where
  sole := h.sole.of_come hcome fun r z hz hkey => by
    have hopen := (h.table z).mpr ⟨r, hz⟩
    rw [show z = fd from hkey, hnew] at hopen
    cases hopen
  table fd' := by
    rw [World.isOpen_of_cons htable, h.table]
    constructor
    · rintro (rfl | ⟨r, hr⟩)
      · exact ⟨s, hcome.mem_target⟩
      · exact ⟨r, hcome.mem_after hr⟩
    · rintro ⟨r, hr⟩
      rcases hcome.mem_before_or_eq hr with hold | ⟨-, rfl⟩
      · exact .inr ⟨r, hold⟩
      · exact .inl rfl
  closes sock n := hrest.answer ▸ h.closes sock n
  closedOnce := hrest.strayCloses.trans h.closedOnce

/-- The descriptor of an object is closed. -/
theorem of_gone (h : Tidy p) (hgone : Gone p.held p'.held s fd)
    (htable : ∀ fd' : Nat, p'.world.isOpen fd' ↔ p.world.isOpen fd' ∧ fd' ≠ fd)
    (hrest : SameRest p.world p'.world) : Tidy p' where
  sole := h.sole.of_gone hgone
  table fd' := by
    rw [htable, h.table]
    constructor
    · rintro ⟨⟨r, hr⟩, hne⟩
      rcases hgone.mem_after_or_eq hr with hstays | ⟨-, rfl⟩
      · exact ⟨r, hstays⟩
      · exact absurd rfl hne
    · rintro ⟨r, hr⟩
      exact ⟨⟨r, hgone.mem_before hr⟩, fun heq => h.sole.key_ne_of_gone hgone hr heq⟩
  closes sock n := hrest.answer ▸ h.closes sock n
  closedOnce := hrest.strayCloses.trans h.closedOnce

/-- A descriptor goes from one object to another. -/
theorem of_went (h : Tidy p) (hwent : Went p.held p'.held s t fd) (hworld : p'.world = p.world) :
    Tidy p' where
  sole := h.sole.of_went hwent
  table fd' := by
    rw [hworld, h.table]
    constructor
    · rintro ⟨r, hr⟩
      rcases hwent.mem_after_or_eq hr with hstays | ⟨-, rfl⟩
      · exact ⟨r, hstays⟩
      · exact ⟨t, hwent.mem_target⟩
    · rintro ⟨r, hr⟩
      rcases hwent.mem_before_or_eq hr with hwas | ⟨-, rfl⟩
      · exact ⟨r, hwas⟩
      · exact ⟨s, hwent.mem_source⟩
  closes := hworld ▸ h.closes
  closedOnce := hworld ▸ h.closedOnce

/-- A call that opens and closes nothing. -/
theorem called (h : Tidy p) (call : SysCall) : Tidy { p with world := p.world.called call } :=
  h.same rfl (fun _ => Iff.rfl) ⟨rfl, rfl⟩

/-- An object without a descriptor goes, or becomes another one without. -/
theorem remove (h : Tidy p) (hs : p.held s = []) : Tidy (p.remove s) := by
  refine h.same ?_ (fun _ => Iff.rfl) ⟨rfl, rfl⟩
  rw [Process.held_remove, ← hs, Function.update_eq_self]

theorem place {o : Socket} (h : Tidy p) (hs : p.held s = o.held) : Tidy (p.place s o) := by
  refine h.same ?_ (fun _ => Iff.rfl) ⟨rfl, rfl⟩
  rw [Process.held_place, ← hs, Function.update_eq_self]

/-- The watcher of an object is not what counts. -/
theorem rewatch {o : Socket} (h : Tidy (p.place s o)) (io : Option Int) :
    Tidy (p.place s { o with io := io }) := by
  have hsame : (p.place s { o with io := io }).held = (p.place s o).held := by
    rw [Process.held_place, Process.held_place]
    rfl
  exact h.same hsame (fun _ => Iff.rfl) ⟨rfl, rfl⟩

/-- The handle of an object is closed and forgotten. -/
theorem closed {o : Socket} (h : Tidy p) (hlive : p.sockets s = some o) :
    Tidy (({ p with world := p.world.closed o.nativeHandle } : Process).place s
      { o with nativeHandle := invalidSocket }) := by
  have hheld : (({ p with world := p.world.closed o.nativeHandle } : Process).place s
      { o with nativeHandle := invalidSocket }).held = Function.update p.held s [] :=
    Process.held_place ..
  cases hhandle : o.nativeHandle with
  | ofNat fd =>
      have hfd : o.nativeHandle = fd := hhandle
      have hhas : p.held s = [fd] := (Process.held_of_live hlive).trans (Socket.held_of_eq hfd)
      have hopen : p.world.isOpen fd := (h.table fd).mpr ⟨s, hhas ▸ List.mem_singleton_self fd⟩
      have hgone : Gone p.held (Function.update p.held s []) s fd := Gone.of_update hhas
      rw [← hheld] at hgone
      refine h.of_gone hgone (fun fd' => ?_) ?_
      · rw [← Int.natCast_inj.ne]
        exact World.isOpen_closed ..
      · exact sameRest_closed (.inr hopen)
  | negSucc n =>
      have hhas : p.held s = [] := by
        rw [Process.held_of_live hlive, Socket.held, hhandle]
        rfl
      refine h.same (hheld.trans (hhas ▸ Function.update_eq_self ..)) (fun fd' => ?_) ?_
      · have hne : (fd' : Int) ≠ Int.negSucc n := by
          omega
        exact (World.isOpen_closed ..).trans (and_iff_left hne)
      · exact sameRest_closed (.inl (Int.negSucc_lt_zero n))

end Tidy

/-! ## Every operation keeps it -/

theorem CloseSucceeds.releases {w : World} (h : CloseSucceeds w) : CloseReleases w :=
  fun sock n hne => absurd (h sock n) hne

namespace BasicSocket

variable {p : Process} {s : Nat} {o : Socket}

/-- `open` on an object without a descriptor gives it a new one, or fails and leaves it
without. -/
theorem ends_openWith (h : Tidy p) (hlive : p.sockets s = some o) (hfree : o.held = [])
    (protocol : Protocol) :
    Ends
      (fun _ p' => Tidy p' ∧ ∃ fd : Nat, p'.sockets s = some ⟨fd, some fd⟩ ∧
        socket protocol.family protocol.type protocol.protocol p.world =
          .ok (fd, .clear) p'.world)
      (fun _ p' => Tidy p' ∧ (o.io ≠ none → p'.held s = []))
      (openWith s protocol p) := by
  have hsocket : Ends (AllOrNothing p.world) (fun _ _ => False)
      (socket protocol.family protocol.type protocol.protocol p.world) :=
    ends_newSocket p.world h.closes.releases _ _
  have hempty : p.held s = [] := (Process.held_of_live hlive).trans hfree
  rw [openWith, Ends.bind_iff, ends_detail]
  refine hsocket.result.mono ?_ fun _ _ hthrow => hthrow.1.elim
  rintro ⟨sock, ec⟩ w ⟨hall, hresult⟩
  have hlive' : ({ p with world := w } : Process).sockets s = some o := hlive
  rw [Ends.bind_iff, ends_setNativeHandle hlive', Ends.bind_iff]
  cases hall with
  | opened fd flags hnew htable hflags hrest =>
      have htidy : Tidy (({ p with world := w } : Process).place s ⟨fd, o.io⟩) := by
        have hcome : Come p.held (Function.update p.held s [fd]) s fd := Come.of_update hempty fd
        have hheld : (({ p with world := w } : Process).place s ⟨fd, o.io⟩).held =
            Function.update p.held s [fd] := by
          rw [Process.held_place, Socket.held_of_eq rfl]
          rfl
        rw [← hheld] at hcome
        exact h.of_come hcome hnew htable hrest
      refine ends_throwIf_clear ?_
      refine (ends_setFileDescriptor (Process.place_sockets ..)).mpr ⟨fun hio => ?_, fun _ => ?_⟩
      · exact ⟨htidy, fun hne => absurd hio hne⟩
      · rw [Process.place_place]
        exact ⟨htidy.rewatch (some fd), fd, Process.place_sockets .., hresult⟩
  | failed e hfirst htable hrest =>
      have htidy : Tidy ({ p with world := w } : Process) :=
        h.same rfl (World.isOpen_of_eq htable) hrest
      refine ends_throwIf_set (isSet_errno e) ⟨htidy.place hempty, fun _ => ?_⟩
      exact Process.held_of_live (Process.place_sockets ..)

/-- `close` leaves an object without a descriptor. -/
theorem ends_close (h : Tidy p) (hlive : p.sockets s = some o) :
    Ends (fun _ p' => Tidy p' ∧ p'.held s = []) (fun _ p' => Tidy p') (close s p) := by
  rw [close, Ends.bind_iff, ends_isOpen hlive]
  refine Ends.ite_iff.mpr ⟨fun hshut => ⟨h, ?_⟩, fun hopen => ?_⟩
  · have hinvalid : o.nativeHandle = invalidSocket := by
      simpa using hshut
    rw [Process.held_of_live hlive, Socket.held, hinvalid]
    rfl
  have hvalid : o.nativeHandle ≠ invalidSocket := by
    simpa using hopen
  rw [Ends.bind_iff, ends_nativeHandle hlive, Ends.bind_iff, ends_detail, Net.close,
    if_neg hvalid]
  refine ends_wrapped_close (fun _ => ?_) fun e he => ?_
  · have hlive' : ({ p with world := p.world.closed o.nativeHandle } : Process).sockets s =
        some o := hlive
    refine Ends.bind_iff.mpr (ends_throwIf_clear ?_)
    rw [Ends.bind_iff, ends_setNativeHandle hlive']
    have htidy := h.closed hlive
    refine (ends_setFileDescriptor (Process.place_sockets ..)).mpr ⟨fun _ => htidy, fun _ => ?_⟩
    rw [Process.place_place]
    exact ⟨htidy.rewatch _, Process.held_of_live (Process.place_sockets ..)⟩
  · exact absurd (h.closes _ _) (fun hnone => nomatch he.symm.trans hnone)

/-- What `bind` does behind `open` neither opens nor closes anything. -/
theorem ends_bindOpen (h : Tidy p) (hlive : p.sockets s = some o) (value : Int) :
    Ends (fun _ p' => Tidy p' ∧ p'.sockets = p.sockets)
      (fun _ p' => Tidy p' ∧ (o.nativeHandle ≠ invalidSocket →
        ¬(p.world.next (.setsockopt o.nativeHandle .reuseAddress value) = none ∧
          (p.world.called (.setsockopt o.nativeHandle .reuseAddress value)).next
            (.bind o.nativeHandle) = none)))
      ((do
        setOption s .reuseAddress value
        let (_, ec) ← detail (Net.bind (← nativeHandle s))
        throwIf ec) p) := by
  refine Ends.bind_iff.mpr (ends_setOption hlive (fun hset => ?_) fun e he => ?_)
  · have hcalled := h.called (.setsockopt o.nativeHandle .reuseAddress value)
    have hlive' : ∀ w, ({ p with world := w } : Process).sockets s = some o := fun _ => hlive
    rw [Ends.bind_iff, ends_nativeHandle (hlive' _), Ends.bind_iff, ends_detail, Net.bind]
    refine Ends.ite_iff.mpr ⟨fun hinvalid => ?_, fun _ => ends_status (fun _ => ?_) fun e he => ?_⟩
    · have hset : badFileDescriptor.isSet := rfl
      refine Ends.pure_iff.mpr (ends_throwIf_set hset ?_)
      exact ⟨hcalled, fun hvalid => absurd hinvalid hvalid⟩
    · exact ends_throwIf_clear ⟨hcalled.called _, rfl⟩
    · refine ends_throwIf_set (isSet_errno e) ?_
      exact ⟨hcalled.called _, fun _ hnone => nomatch he.symm.trans hnone.2⟩
  · exact ⟨h.called _, fun _ hnone => nomatch he.symm.trans hnone.1⟩

theorem ends_bind (h : Tidy p) (hlive : p.sockets s = some o) (protocol : Protocol)
    (reuseAddr : Bool) :
    Ends (fun _ p' => Tidy p') (fun _ p' => Tidy p') (bind s protocol reuseAddr p) := by
  rw [bind, Ends.bind_iff, ends_isOpen hlive]
  refine Ends.ite_iff.mpr ⟨fun hshut => ?_, fun _ => ?_⟩
  · have hinvalid : o.nativeHandle = invalidSocket := by
      simpa using hshut
    have hfree : o.held = [] := by
      rw [Socket.held, hinvalid]
      rfl
    refine Ends.bind_iff.mpr ((ends_openWith h hlive hfree protocol).mono ?_ fun _ _ he => he.1)
    rintro - p' ⟨hopened, fd, hlive', -⟩
    exact (ends_bindOpen hopened hlive' _).mono (fun _ _ hq => hq.1) fun _ _ he => he.1
  · exact (ends_bindOpen h hlive _).mono (fun _ _ hq => hq.1) fun _ _ he => he.1

section Construction

variable (h : Tidy p) (hfree : p.sockets s = none)

include h hfree

/-- The members of a new object have no descriptor. -/
theorem tidy_members : Tidy (p.place s ⟨invalidSocket, some (-1)⟩) := by
  refine h.place ?_
  rw [Process.held, hfree]
  rfl

theorem ends_fromLoop :
    Ends (fun _ p' => Tidy p') (fun _ p' => Tidy p') (fromLoop s p) := by
  rw [fromLoop, ends_construct]
  exact tidy_members h hfree

theorem ends_fromProtocol (protocol : Protocol) :
    Ends (fun _ p' => Tidy p') (fun _ p' => Tidy p') (fromProtocol s protocol p) := by
  rw [fromProtocol, ends_construct]
  refine Ends.bind_iff.mpr ((ends_openWith (tidy_members h hfree) (Process.place_sockets ..) rfl
    protocol).mono ?_ ?_)
  · rintro - p' ⟨htidy, fd, hlive, -⟩
    exact (ends_watcher hlive).mpr ⟨fun hio => (nomatch hio), fun _ => htidy⟩
  · rintro e p' ⟨htidy, hempty⟩
    exact htidy.remove (hempty (Option.some_ne_none _))

theorem ends_fromEndpoint {protocol : Protocol} (hbind : BindSucceeds p.world protocol) :
    Ends (fun _ p' => Tidy p') (fun _ p' => Tidy p') (fromEndpoint s protocol p) := by
  rw [fromEndpoint, ends_construct, Ends.bind_iff, bind, Ends.bind_iff,
    ends_isOpen (Process.place_sockets ..)]
  refine Ends.ite_iff.mpr ⟨fun _ => ?_, fun hopen => absurd rfl hopen⟩
  refine Ends.bind_iff.mpr ((ends_openWith (tidy_members h hfree) (Process.place_sockets ..) rfl
    protocol).mono ?_ ?_)
  · rintro - p' ⟨htidy, fd, hlive, hresult⟩
    refine (ends_bindOpen htidy hlive _).mono ?_ ?_
    · rintro - p'' ⟨htidy', hsockets⟩
      have hlive'' := (congrFun hsockets s).trans hlive
      exact (ends_watcher hlive'').mpr ⟨fun hio => (nomatch hio), fun _ => htidy'⟩
    · rintro e p'' ⟨-, hfails⟩
      exact absurd (hbind fd p'.world hresult) (hfails (natCast_ne_invalidSocket fd))
  · rintro e p' ⟨htidy, hempty⟩
    exact htidy.remove (hempty (Option.some_ne_none _))

/-- A descriptor that no object has is one that the caller has just obtained. -/
theorem ends_fromHandle {sock : Int} (hnew : ∀ s (fd : Nat), sock = fd → ¬p.Owns s fd) :
    Ends (fun _ p' => Tidy p') (fun _ p' => Tidy p')
      (fromHandle s sock (SocketOp.obtain sock p)) := by
  have htidy : Tidy ((SocketOp.obtain sock p).place s ⟨sock, some (-1)⟩) := by
    have hempty : p.held s = [] := by
      rw [Process.held, hfree]
      rfl
    cases sock with
    | ofNat fd =>
        have hshut : p.world.isOpen fd = false := by
          refine eq_false_of_ne_true fun hopen => ?_
          obtain ⟨t, ht⟩ := (h.table fd).mp hopen
          exact hnew t fd rfl (Process.mem_held.mp ht)
        have hobtain : SocketOp.obtain fd p = { p with world := p.world.opened fd 0 } := by
          refine if_neg ?_
          rintro (hneg | hopen)
          · exact absurd hneg (by omega)
          · exact nomatch hshut.symm.trans hopen
        show Tidy ((SocketOp.obtain fd p).place s _)
        rw [hobtain]
        have hcome : Come p.held (Function.update p.held s [fd]) s fd := Come.of_update hempty fd
        have hheld : (({ p with world := p.world.opened fd 0 } : Process).place s
            ⟨fd, some (-1)⟩).held = Function.update p.held s [fd] := Process.held_place ..
        rw [← hheld] at hcome
        exact h.of_come hcome hshut rfl ⟨rfl, rfl⟩
    | negSucc n =>
        have hobtain : SocketOp.obtain (.negSucc n) p = p :=
          if_pos (.inl (Int.negSucc_lt_zero n))
        rw [hobtain]
        exact h.place hempty
  rw [fromHandle, ends_construct]
  refine Ends.bind_iff.mpr ((ends_setFileDescriptor (Process.place_sockets ..)).mpr
    ⟨fun hio => (nomatch hio), fun _ => ?_⟩)
  rw [Process.place_place]
  refine (ends_watcher (Process.place_sockets ..)).mpr ⟨fun hio => (nomatch hio), fun _ => ?_⟩
  exact htidy.rewatch (some sock)

/-- The descriptor of `other`, if it has one, goes to the new object. -/
theorem ends_fromOther_tidy {t : Nat} (hlive : p.sockets t = some o) :
    Ends (fun _ p' => Tidy p') (fun _ p' => Tidy p') (fromOther s t p) := by
  have hst : s ≠ t := by
    rintro rfl
    rw [hfree] at hlive
    cases hlive
  have hempty : p.held s = [] := by
    rw [Process.held, hfree]
    rfl
  have hheld : ((p.place t ⟨invalidSocket, none⟩).place s o).held =
      Function.update (Function.update p.held t []) s o.held := by
    rw [Process.held_place, Process.held_place, Socket.held_invalid]
  have hmoved : Tidy ((p.place t ⟨invalidSocket, none⟩).place s o) := by
    cases hhas : o.held with
    | nil =>
        refine h.same ?_ (fun _ => Iff.rfl) ⟨rfl, rfl⟩
        have hnone : p.held t = [] := (Process.held_of_live hlive).trans hhas
        rw [hheld, hhas, ← hnone, Function.update_eq_self, hnone, ← hempty,
          Function.update_eq_self]
    | cons fd rest =>
        have hfd : o.nativeHandle = fd := Socket.mem_held.mp (hhas ▸ List.mem_cons_self ..)
        have hhas : o.held = [fd] := Socket.held_of_eq hfd
        have hwent : Went p.held
            (Function.update (Function.update p.held t []) s [fd]) t s fd :=
          Went.of_update ((Process.held_of_live hlive).trans hhas) hempty
        rw [← hhas, ← hheld] at hwent
        exact h.of_went hwent rfl
  exact (ends_fromOther hst hlive).mpr ⟨fun _ => hmoved, fun _ => hmoved⟩

end Construction

theorem ends_destroy (h : Tidy p) (hlive : p.sockets s = some o) :
    Ends (fun _ p' => Tidy p') (fun _ p' => Tidy p') (destroy s p) := by
  rw [destroy, Ends.bind_iff, Ends.tryCatch_iff]
  refine (ends_close h hlive).mono ?_ ?_
  · rintro - p' ⟨htidy, hempty⟩
    exact htidy.remove hempty
  · intro e p' htidy
    cases e <;> exact htidy

end BasicSocket

theorem run_tidy {p : Process} {op : SocketOp} (h : Tidy p) (hcareful : Careful p op)
    (henabled : op.enabled p) :
    Ends (fun _ p' => Tidy p') (fun _ p' => Tidy p') (op.run p) := by
  cases op with
  | fromLoop this => exact BasicSocket.ends_fromLoop h (Option.isNone_iff_eq_none.mp henabled)
  | fromHandle this sock =>
      exact BasicSocket.ends_fromHandle h (Option.isNone_iff_eq_none.mp henabled) hcareful
  | fromProtocol this protocol =>
      exact BasicSocket.ends_fromProtocol h (Option.isNone_iff_eq_none.mp henabled) protocol
  | fromEndpoint this protocol =>
      exact BasicSocket.ends_fromEndpoint h (Option.isNone_iff_eq_none.mp henabled) hcareful
  | fromOther this other =>
      obtain ⟨hfree, hsome⟩ := (Bool.and_eq_true_iff).mp henabled
      obtain ⟨o, hlive⟩ := Option.isSome_iff_exists.mp hsome
      exact BasicSocket.ends_fromOther_tidy h (Option.isNone_iff_eq_none.mp hfree) hlive
  | openWith this protocol =>
      obtain ⟨o, hlive⟩ := Option.isSome_iff_exists.mp henabled
      have hfree : o.held = [] := List.eq_nil_iff_forall_not_mem.mpr fun fd hfd =>
        hcareful fd ⟨o, hlive, Socket.mem_held.mp hfd⟩
      exact (BasicSocket.ends_openWith h hlive hfree protocol).mono (fun _ _ hq => hq.1)
        fun _ _ he => he.1
  | bind this protocol reuseAddr =>
      obtain ⟨o, hlive⟩ := Option.isSome_iff_exists.mp henabled
      exact BasicSocket.ends_bind h hlive protocol reuseAddr
  | close this =>
      obtain ⟨o, hlive⟩ := Option.isSome_iff_exists.mp henabled
      exact (BasicSocket.ends_close h hlive).mono (fun _ _ hq => hq.1) fun _ _ he => he
  | destroy this =>
      obtain ⟨o, hlive⟩ := Option.isSome_iff_exists.mp henabled
      exact BasicSocket.ends_destroy h hlive

/-- What counts is kept by whoever catches the exception. -/
theorem behind_tidy {r : EStateM.Result Abort Process Unit}
    (h : Ends (fun _ p' => Tidy p') (fun _ p' => Tidy p') r) : Tidy (behind r) := by
  cases r with
  | ok _ p => exact h
  | error e p =>
      have htidy : Tidy p := h
      cases e with
      | systemError ec => exact htidy
      | terminate => exact htidy.same rfl (fun _ => Iff.rfl) ⟨rfl, rfl⟩
      | fault => exact htidy.same rfl (fun _ => Iff.rfl) ⟨rfl, rfl⟩

theorem start_tidy {p : Process} (h : socketMachine.start p) : Tidy p := by
  obtain ⟨-, hsockets, htable, hstray, hclose⟩ := h
  have hheld : ∀ s, p.held s = [] := fun s => by
    rw [Process.held, hsockets]
    rfl
  refine ⟨⟨fun s => ?_, fun s t x y hx => ?_⟩, fun fd => ?_, hclose, hstray⟩
  · rw [hheld]
    exact List.nodup_nil
  · rw [hheld] at hx
    cases hx
  · simp [World.isOpen_iff, htable, hheld]

theorem step_tidy {p p' : Process} {op : SocketOp} (h : Tidy p) (hcareful : Careful p op)
    (hstep : socketMachine.step p op = some p') : Tidy p' := by
  obtain ⟨⟨-, henabled⟩, hrun⟩ := Option.ite_none_right_eq_some.mp hstep
  cases hrun
  exact behind_tidy (run_tidy h hcareful henabled)

/-- In a run of careful operations every open descriptor has one owner, and none is closed
twice. -/
theorem one_owner_per_descriptor {p : Process} (h : socketMachine.ReachableUnder Careful p) :
    OneOwner p :=
  (h.invariant (fun _ => start_tidy) fun _ _ _ => step_tidy).oneOwner

/-- The protocol `tcp` of IPv4. -/
def tcp : Protocol := ⟨2, sockStream, 6⟩

/-- A socket is bound and moved, and its descriptor has one owner. -/
theorem one_owner_per_descriptor_moved : ∃ p, socketMachine.ReachableUnder Careful p ∧ OneOwner p ∧
    p.Owns 1 3 := by
  have hstart : socketMachine.start (newProcess fun _ => none) :=
    ⟨rfl, rfl, rfl, rfl, fun _ _ => rfl⟩
  have hcareful : Careful (newProcess fun _ => none) (.fromEndpoint 0 tcp) := by
    intro fd w' hresult
    have hall : Ends (AllOrNothing (newProcess fun _ => none).world) (fun _ _ => False)
        (socket tcp.family tcp.type tcp.protocol (newProcess fun _ => none).world) :=
      ends_newSocket _ (fun _ _ _ => rfl) _ _
    rw [hresult] at hall
    have hanswer : w'.answer = (newProcess fun _ => none).world.answer := by
      cases (hall : AllOrNothing _ _ _) with
      | opened fd flags hnew htable hflags hrest => exact hrest.answer
    simp [World.next, World.reply, hanswer, newProcess]
  let p := behind ((SocketOp.fromEndpoint 0 tcp).run (newProcess fun _ => none))
  let p' := behind ((SocketOp.fromOther 1 0).run p)
  have hbound : socketMachine.step (newProcess fun _ => none) (.fromEndpoint 0 tcp) = some p :=
    rfl
  have hmoved : socketMachine.step p (.fromOther 1 0) = some p' := rfl
  have hreach : socketMachine.ReachableUnder Careful p' :=
    .step (a := .fromOther 1 0) (.step (.start hstart) hcareful hbound) trivial hmoved
  exact ⟨p', hreach, one_owner_per_descriptor hreach, ⟨_, rfl, rfl⟩⟩

/-- `bind` fails in the constructor, and no object is left to close the descriptor. -/
theorem endpoint_leaks : ¬∀ p, socketMachine.Reachable p → OneOwner p := by
  intro hall
  let inUse : SysCall → Option Errno
    | .bind _ => some ⟨98, by decide⟩
    | _ => none
  have hstart : socketMachine.start (newProcess inUse) := ⟨rfl, rfl, rfl, rfl, fun _ _ => rfl⟩
  let p := behind ((SocketOp.fromEndpoint 0 tcp).run (newProcess inUse))
  have hstep : socketMachine.step (newProcess inUse) (.fromEndpoint 0 tcp) = some p := rfl
  have hreach : socketMachine.Reachable p := .step (.start hstart) trivial hstep
  have hgone : ∀ s, p.sockets s = none := fun s => by
    cases s <;> rfl
  obtain ⟨s, ⟨o, hs, -⟩, -⟩ := (hall p hreach).owner 3 rfl
  rw [hgone s] at hs
  cases hs

end Net
end Cyan

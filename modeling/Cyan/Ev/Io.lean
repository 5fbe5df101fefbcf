import Mathlib.Data.UInt
import Mathlib.Data.List.Nodup
import Mathlib.Logic.Function.Basic

/-!
# Descriptors

This module embeds the part of libev that keeps the kernel informed of what the
`ev_io` watchers want: `ev_io_start`, `ev_io_stop`, `fd_change` and `fd_reify`.

The backend is epoll.  `kernel` stands for the events that the kernel has been
asked to report of a descriptor: what `epoll_modify` last passed to `epoll_ctl`, and
nothing once the descriptor has been closed.  `epoll_modify` does not tell the kernel
that nothing is wanted any more.  A descriptor that is closed and opened again is a
new one to the kernel under an old number, and `EV__IOFDSET` is how libev learns of
it.

* `Fds.Ok` ties the watcher lists, the members `active` and `fdchanges` together.
* `Fds.InSync` says of every descriptor without a `reify` flag that nothing has
  to be done for it.  It needs the contract of `ev_io_set` and `ev_io_modify`:
  a watcher is set while it is not active, and again when its descriptor has
  been closed; `stale` tells the watchers that have not been.
* `InSync.reify`: behind `fd_reify` the kernel has been asked for what is wanted.
-/

namespace Cyan
namespace Ev

/-- `EV_READ` -/
def evRead : UInt32 := 0x01

/-- `EV_WRITE` -/
def evWrite : UInt32 := 0x02

/-- `EV__IOFDSET` -/
def evIoFdSet : UInt32 := 0x80

/-- `EV_ERROR` -/
def evError : UInt32 := 0x80000000

/-- `EV_ANFD_REIFY` -/
def evAnfdReify : UInt8 := 1

/-- `EV__IOFDSET` as a flag of `reify` -/
def ioFdSetFlag : UInt8 := evIoFdSet.toUInt8

/-- `ANFD` -/
structure Anfd (κ : Type*) where
  /-- the list from `head` on -/
  head : List κ
  events : UInt8
  reify : UInt8
  deriving DecidableEq, Repr

/-- `anfds`, `fdchanges`, and the members `active`, `fd` and `events` of the
watchers. -/
structure Fds (κ : Type*) where
  anfds : Nat → Anfd κ
  fdchanges : List Nat
  active : κ → Nat
  fd : κ → Int
  events : κ → UInt32
  /-- the events that the kernel has been asked for -/
  kernel : Nat → UInt8
  /-- the watcher's descriptor has been closed since `ev_io_set` -/
  stale : κ → Bool

variable {κ : Type*} [DecidableEq κ]

namespace Fds

/-- `anfds [fd] = a` -/
def setAnfd (f : Fds κ) (fd : Nat) (a : Anfd κ) : Fds κ :=
  { f with anfds := Function.update f.anfds fd a }

/-- `fd_change` -/
def fdChange (f : Fds κ) (fd : Nat) (flags : UInt8) : Fds κ :=
  let reify := (f.anfds fd).reify
  let f := f.setAnfd fd { f.anfds fd with reify := reify ||| flags }
  if reify = 0 then { f with fdchanges := f.fdchanges ++ [fd] } else f

/-- The index of the watcher's descriptor. -/
def slot (f : Fds κ) (w : κ) : Nat :=
  (f.fd w).toNat

/-- `ev_io_start`, behind the test for an active watcher. -/
def start (f : Fds κ) (w : κ) : Fds κ :=
  let fd := f.slot w
  let f := { f with active := Function.update f.active w 1 }
  let f := f.setAnfd fd { f.anfds fd with head := w :: (f.anfds fd).head }
  let f := f.fdChange fd ((f.events w &&& evIoFdSet).toUInt8 ||| evAnfdReify)
  { f with events := Function.update f.events w (f.events w &&& ~~~evIoFdSet) }

/-- `ev_io_stop`, behind the test for an inactive watcher. -/
def stop (f : Fds κ) (w : κ) : Fds κ :=
  let fd := f.slot w
  let f := f.setAnfd fd { f.anfds fd with head := (f.anfds fd).head.erase w }
  let f := { f with active := Function.update f.active w 0 }
  f.fdChange fd evAnfdReify

/-- `ev_io_set` -/
def set (f : Fds κ) (w : κ) (fd : Int) (events : UInt32) : Fds κ :=
  { f with
    fd := Function.update f.fd w fd
    events := Function.update f.events w (events ||| evIoFdSet)
    stale := Function.update f.stale w false }

/-- `ev_io_modify` -/
def modify (f : Fds κ) (w : κ) (events : UInt32) : Fds κ :=
  { f with events := Function.update f.events w (f.events w &&& evIoFdSet ||| events) }

/-- The program closes a descriptor. -/
def close (f : Fds κ) (fd : Nat) : Fds κ :=
  { f with
    kernel := Function.update f.kernel fd 0
    stale := fun w => f.stale w || f.fd w = fd }

/-- The events that the watchers of a list want. -/
def union (f : Fds κ) (l : List κ) : UInt8 :=
  l.foldl (fun events w => events ||| (f.events w).toUInt8) 0

/-- The events that are wanted of a descriptor. -/
def wanted (f : Fds κ) (fd : Nat) : UInt8 :=
  f.union (f.anfds fd).head

/-- `epoll_modify`, when `epoll_ctl` succeeds. -/
def epollModify (f : Fds κ) (fd : Nat) (nev : UInt8) : Fds κ :=
  -- there is no `EPOLL_CTL_DEL`
  if nev = 0 then f else { f with kernel := Function.update f.kernel fd nev }

/-- `fd_reify` for one descriptor. -/
def reifyFd (f : Fds κ) (fd : Nat) : Fds κ :=
  let oEvents := (f.anfds fd).events
  let oReify := (f.anfds fd).reify
  let f := f.setAnfd fd { f.anfds fd with reify := 0, events := f.wanted fd }
  let oReify := if oEvents ≠ (f.anfds fd).events then ioFdSetFlag else oReify
  if oReify &&& ioFdSetFlag ≠ 0 then f.epollModify fd (f.anfds fd).events else f

/-- `fd_reify` -/
def reify (f : Fds κ) : Fds κ :=
  { f.fdchanges.foldl reifyFd f with fdchanges := [] }

/-- The watchers are on the lists of their descriptors, and the descriptors with
a `reify` flag in `fdchanges`. -/
structure Ok (f : Fds κ) : Prop where
  /-- "inactive fd watcher on anfd list" and "fd mismatch between watcher and anfd" -/
  listed : ∀ w fd, w ∈ (f.anfds fd).head ↔ f.active w ≠ 0 ∧ f.fd w = fd
  /-- "io watcher list contains a loop" -/
  nodup : ∀ fd, (f.anfds fd).head.Nodup
  one : ∀ w, f.active w ≤ 1
  /-- "ev_io_start called with negative fd" -/
  fd_nonneg : ∀ w, f.active w ≠ 0 → 0 ≤ f.fd w
  changed : ∀ fd, fd ∈ f.fdchanges ↔ (f.anfds fd).reify ≠ 0
  changed_nodup : f.fdchanges.Nodup

/-- `epoll_modify` will be called, or need not be called. -/
def Told (f : Fds κ) (fd : Nat) : Prop :=
  (f.anfds fd).reify &&& ioFdSetFlag ≠ 0 ∨
    ((f.anfds fd).events ≠ 0 → f.kernel fd = (f.anfds fd).events)

/-- What the `reify` flags are for. -/
structure InSync (f : Fds κ) : Prop where
  wanted : ∀ fd, (f.anfds fd).reify = 0 → (f.anfds fd).events = f.wanted fd
  /-- a descriptor of which the kernel was asked for something else has been closed -/
  told : ∀ fd, f.Told fd ∨ (f.anfds fd).head = []
  known : ∀ w (fd : Nat), f.fd w = fd → f.stale w = false → f.events w &&& evIoFdSet = 0 →
    f.Told fd
  active : ∀ w, f.active w ≠ 0 → f.stale w = false ∧ f.events w &&& evIoFdSet = 0

variable {f : Fds κ} {w v : κ} {fd fd' : Nat}

/-! ## Bits -/

theorem or_and_right (a b c : UInt8) : (a ||| b) &&& c = a &&& c ||| b &&& c := by
  apply UInt8.toNat.inj
  simp only [UInt8.toNat_and, UInt8.toNat_or]
  exact Nat.and_or_distrib_right ..

/-- A flag that is set stays set. -/
theorem flag_or {a flag : UInt8} (h : a &&& flag ≠ 0) (b : UInt8) : (a ||| b) &&& flag ≠ 0 := by
  rw [or_and_right, Ne, UInt8.or_eq_zero_iff]
  exact fun hand => h hand.1

theorem reify_ne_zero (reify flags : UInt8) : reify ||| (flags ||| evAnfdReify) ≠ 0 := by
  rw [Ne, UInt8.or_eq_zero_iff, UInt8.or_eq_zero_iff]
  exact fun h => absurd h.2.2 (by decide)

theorem or_ne_zero_iff (a b : UInt8) : a ||| b ≠ 0 ↔ a ≠ 0 ∨ b ≠ 0 := by
  simp only [ne_eq, ← UInt8.toNat_inj, UInt8.toNat_or, UInt8.toNat_zero, Nat.or_eq_zero_iff,
    not_and_or]

/-- `EV__IOFDSET` goes from the events into the flags. -/
theorem flag_of_events {events : UInt32} (h : events &&& evIoFdSet ≠ 0) (reify : UInt8) :
    (reify ||| ((events &&& evIoFdSet).toUInt8 ||| evAnfdReify)) &&& ioFdSetFlag ≠ 0 := by
  have hbit : (events &&& evIoFdSet).toUInt8 &&& ioFdSetFlag ≠ 0 := by
    intro hzero
    apply h
    rw [ioFdSetFlag, ← UInt32.toUInt8_and, UInt32.and_assoc, UInt32.and_self] at hzero
    have hle : (events &&& evIoFdSet).toNat ≤ 128 := by
      rw [UInt32.toNat_and]
      exact Nat.and_le_right
    have hnat := congrArg UInt8.toNat hzero
    rw [UInt32.toNat_toUInt8, Nat.mod_eq_of_lt (by omega)] at hnat
    exact UInt32.toNat.inj hnat
  rw [or_and_right, or_and_right, Ne, UInt8.or_eq_zero_iff, UInt8.or_eq_zero_iff]
  exact fun hall => hbit hall.2.1

theorem and_not_and (events flag : UInt32) : events &&& ~~~flag &&& flag = 0 := by
  rw [UInt32.and_assoc, UInt32.and_comm (~~~flag), UInt32.and_not_self, UInt32.and_zero]

theorem or_self_and (events : UInt32) : (events ||| evIoFdSet) &&& evIoFdSet ≠ 0 := by
  intro hzero
  have hnat := congrArg UInt32.toNat hzero
  rw [UInt32.toNat_and, UInt32.toNat_or, Nat.and_or_distrib_right, Nat.and_self] at hnat
  have hle : 128 ≤ (events.toNat &&& evIoFdSet.toNat) ||| 128 := Nat.right_le_or
  have heq : (events.toNat &&& evIoFdSet.toNat) ||| 128 = 0 := hnat
  omega

/-! ## What the operations change -/

section

omit [DecidableEq κ]

/-- A watcher of the list wants an event of the union. -/
theorem union_and_ne_zero_iff {l : List κ} {event : UInt8} :
    f.union l &&& event ≠ 0 ↔ ∃ w ∈ l, (f.events w).toUInt8 &&& event ≠ 0 := by
  have hfold : ∀ acc : UInt8,
      l.foldl (fun events w => events ||| (f.events w).toUInt8) acc &&& event ≠ 0 ↔
        acc &&& event ≠ 0 ∨ ∃ w ∈ l, (f.events w).toUInt8 &&& event ≠ 0 := by
    induction l with
    | nil => simp
    | cons w l ih =>
        intro acc
        rw [List.foldl_cons, ih, or_and_right, or_ne_zero_iff, List.exists_mem_cons_iff, or_assoc]
  rw [union, hfold]
  simp

theorem union_congr {f' : Fds κ} {l : List κ} (h : ∀ v ∈ l, f'.events v = f.events v) :
    f'.union l = f.union l := by
  unfold union
  generalize (0 : UInt8) = acc
  induction l generalizing acc with
  | nil => rfl
  | cons v l ih =>
      rw [List.foldl_cons, List.foldl_cons, h v (List.mem_cons_self ..)]
      exact ih (fun u hu => h u (List.mem_cons_of_mem _ hu)) _

end

/-- `f'` is `f` with another list for `fd`, which gets a `reify` flag. -/
structure Changed (f f' : Fds κ) (fd : Nat) (head : List κ) (flags : UInt8) : Prop where
  anfd : f'.anfds fd = ⟨head, (f.anfds fd).events, (f.anfds fd).reify ||| (flags ||| evAnfdReify)⟩
  others : ∀ fd', fd' ≠ fd → f'.anfds fd' = f.anfds fd'
  fdchanges : f'.fdchanges =
    if (f.anfds fd).reify = 0 then f.fdchanges ++ [fd] else f.fdchanges
  kernel : f'.kernel = f.kernel
  fdOf : f'.fd = f.fd
  stale : f'.stale = f.stale

section FdChange

variable {flags : UInt8}

section

omit [DecidableEq κ]

theorem fdChange_anfds : (f.fdChange fd flags).anfds = Function.update f.anfds fd
    { f.anfds fd with reify := (f.anfds fd).reify ||| flags } := by
  unfold fdChange
  dsimp only
  split <;> rfl

theorem fdChange_fdchanges : (f.fdChange fd flags).fdchanges =
    if (f.anfds fd).reify = 0 then f.fdchanges ++ [fd] else f.fdchanges := by
  unfold fdChange
  dsimp only
  split <;> rfl

theorem fdChange_rest : (f.fdChange fd flags).active = f.active ∧
    (f.fdChange fd flags).fd = f.fd ∧ (f.fdChange fd flags).events = f.events ∧
    (f.fdChange fd flags).kernel = f.kernel ∧ (f.fdChange fd flags).stale = f.stale := by
  unfold fdChange
  dsimp only
  split <;> exact ⟨rfl, rfl, rfl, rfl, rfl⟩

end

end FdChange

theorem start_changed (f : Fds κ) (w : κ) :
    Changed f (f.start w) (f.slot w) (w :: (f.anfds (f.slot w)).head)
      (f.events w &&& evIoFdSet).toUInt8 := by
  constructor <;> simp [start, setAnfd, fdChange_anfds, fdChange_fdchanges, fdChange_rest]
  exact fun fd' hne => by simp [hne]

theorem stop_changed (f : Fds κ) (w : κ) :
    Changed f (f.stop w) (f.slot w) ((f.anfds (f.slot w)).head.erase w) 0 := by
  constructor <;> simp [stop, setAnfd, fdChange_anfds, fdChange_fdchanges, fdChange_rest]
  exact fun fd' hne => by simp [hne]

theorem start_active : (f.start w).active = Function.update f.active w 1 := by
  simp [start, setAnfd, fdChange_rest]

theorem stop_active : (f.stop w).active = Function.update f.active w 0 := by
  simp [stop, setAnfd, fdChange_rest]

theorem start_events :
    (f.start w).events = Function.update f.events w (f.events w &&& ~~~evIoFdSet) := by
  simp [start, setAnfd, fdChange_rest]

theorem stop_events : (f.stop w).events = f.events := by
  simp [stop, setAnfd, fdChange_rest]

namespace Changed

variable {f' : Fds κ} {head : List κ} {flags : UInt8}

section

omit [DecidableEq κ]

/-- The descriptor is in `fdchanges` now. -/
theorem changed (h : Changed f f' fd head flags) (hok : f.Ok) :
    (∀ fd', fd' ∈ f'.fdchanges ↔ (f'.anfds fd').reify ≠ 0) ∧ f'.fdchanges.Nodup := by
  rw [h.fdchanges]
  refine ⟨fun fd' => ?_, ?_⟩
  · by_cases hfd : fd' = fd
    · subst hfd
      rw [h.anfd]
      split
      · simpa using reify_ne_zero _ _
      · rename_i hreify
        exact ⟨fun _ => reify_ne_zero _ _, fun _ => (hok.changed _).mpr hreify⟩
    · rw [h.others fd' hfd, ← hok.changed fd']
      split
      · simp [hfd]
      · rfl
  · split
    · rename_i hreify
      refine List.nodup_append.mpr ⟨hok.changed_nodup, List.nodup_singleton _, ?_⟩
      rintro a ha b hb rfl
      rw [List.mem_singleton.mp hb] at ha
      exact (hok.changed fd).mp ha hreify
    · exact hok.changed_nodup

/-- What has been told stays told. -/
theorem told (h : Changed f f' fd head flags) (htold : f.Told fd') : f'.Told fd' := by
  by_cases hfd : fd' = fd
  · subst hfd
    rw [Told, h.anfd, h.kernel]
    exact htold.imp (fun hflag => flag_or hflag _) id
  · rw [Told, h.others fd' hfd, h.kernel]
    exact htold

/-- The flag asks for `backend_modify`. -/
theorem told_of_events {events : UInt32}
    (h : Changed f f' fd head (events &&& evIoFdSet).toUInt8) (hset : events &&& evIoFdSet ≠ 0) :
    f'.Told fd := by
  rw [Told, h.anfd]
  exact .inl (flag_of_events hset _)

end

end Changed

/-! ## The lists -/

omit [DecidableEq κ] in
theorem Ok.slot_eq (h : f.Ok) (hw : f.active w ≠ 0) : f.fd w = f.slot w :=
  (Int.toNat_of_nonneg (h.fd_nonneg w hw)).symm

theorem Ok.start (h : f.Ok) (hw : f.active w = 0) (hfd : 0 ≤ f.fd w) : (f.start w).Ok := by
  have hc := start_changed f w
  have hslot : f.fd w = f.slot w := (Int.toNat_of_nonneg hfd).symm
  have hnot : ∀ fd, w ∉ (f.anfds fd).head := fun fd hmem => ((h.listed w fd).mp hmem).1 hw
  refine ⟨fun v fd => ?_, fun fd => ?_, fun v => ?_, fun v hv => ?_, (hc.changed h).1,
    (hc.changed h).2⟩
  · rw [start_active, hc.fdOf]
    by_cases hv : v = w
    · subst hv
      rw [Function.update_self]
      by_cases hfd : fd = f.slot v
      · subst hfd
        rw [hc.anfd]
        simp [hslot]
      · rw [hc.others fd hfd]
        have hne : f.fd v ≠ fd := by
          rw [hslot]
          exact fun heq => hfd (Int.ofNat.inj heq).symm
        simp [hnot fd, hne]
    · rw [Function.update_of_ne hv, ← h.listed v fd]
      by_cases hfd : fd = f.slot w
      · subst hfd
        rw [hc.anfd]
        simp [hv]
      · rw [hc.others fd hfd]
  · by_cases hfd : fd = f.slot w
    · subst hfd
      rw [hc.anfd]
      exact List.nodup_cons.mpr ⟨hnot _, h.nodup _⟩
    · rw [hc.others fd hfd]
      exact h.nodup fd
  · rw [start_active]
    by_cases hv : v = w
    · subst hv
      rw [Function.update_self]
    · rw [Function.update_of_ne hv]
      exact h.one v
  · rw [hc.fdOf]
    by_cases hvw : v = w
    · exact hvw ▸ hfd
    · rw [start_active, Function.update_of_ne hvw] at hv
      exact h.fd_nonneg v hv

theorem Ok.stop (h : f.Ok) (hw : f.active w ≠ 0) : (f.stop w).Ok := by
  have hc := stop_changed f w
  have hslot := h.slot_eq hw
  refine ⟨fun v fd => ?_, fun fd => ?_, fun v => ?_, fun v hv => ?_, (hc.changed h).1,
    (hc.changed h).2⟩
  · rw [stop_active, hc.fdOf]
    by_cases hfd : fd = f.slot w
    · subst hfd
      rw [hc.anfd, (h.nodup _).mem_erase_iff, h.listed]
      by_cases hv : v = w
      · simp [hv]
      · simp [hv]
    · rw [hc.others fd hfd, h.listed]
      by_cases hv : v = w
      · subst hv
        have hne : f.fd v ≠ fd := by
          rw [hslot]
          exact fun heq => hfd (Int.ofNat.inj heq).symm
        simp [hne]
      · rw [Function.update_of_ne hv]
  · by_cases hfd : fd = f.slot w
    · subst hfd
      rw [hc.anfd]
      exact (h.nodup _).erase w
    · rw [hc.others fd hfd]
      exact h.nodup fd
  · rw [stop_active]
    by_cases hv : v = w
    · subst hv
      rw [Function.update_self]
      exact Nat.zero_le 1
    · rw [Function.update_of_ne hv]
      exact h.one v
  · rw [hc.fdOf]
    refine h.fd_nonneg v ?_
    intro hzero
    rw [stop_active] at hv
    by_cases hvw : v = w
    · rw [hvw, Function.update_self] at hv
      exact hv rfl
    · rw [Function.update_of_ne hvw] at hv
      exact hv hzero

/-- `ev_io_set` is for watchers that are not active. -/
theorem Ok.set (h : f.Ok) (hw : f.active w = 0) (fd : Int) (events : UInt32) :
    (f.set w fd events).Ok := by
  refine ⟨fun v fd' => ?_, h.nodup, h.one, fun v hv => ?_, h.changed, h.changed_nodup⟩
  · change v ∈ (f.anfds fd').head ↔ f.active v ≠ 0 ∧ Function.update f.fd w fd v = fd'
    by_cases hv : v = w
    · subst hv
      rw [h.listed]
      simp [hw]
    · rw [Function.update_of_ne hv, h.listed]
  · have hne : v ≠ w := fun heq => hv (heq ▸ hw)
    change 0 ≤ Function.update f.fd w fd v
    rw [Function.update_of_ne hne]
    exact h.fd_nonneg v hv

theorem Ok.modify (h : f.Ok) (w : κ) (events : UInt32) : (f.modify w events).Ok :=
  ⟨h.listed, h.nodup, h.one, h.fd_nonneg, h.changed, h.changed_nodup⟩

omit [DecidableEq κ] in
theorem Ok.close (h : f.Ok) (fd : Nat) : (f.close fd).Ok :=
  ⟨h.listed, h.nodup, h.one, h.fd_nonneg, h.changed, h.changed_nodup⟩

/-! ## The kernel -/

omit [DecidableEq κ] in
/-- What other watchers want does not depend on `w`. -/
theorem wanted_of_ne {f' : Fds κ} (hanfd : f'.anfds fd = f.anfds fd)
    (hevents : ∀ v ∈ (f.anfds fd).head, f'.events v = f.events v) : f'.wanted fd = f.wanted fd := by
  rw [wanted, hanfd]
  exact union_congr hevents

/-- A watcher is started that has been set since its descriptor was closed. -/
theorem InSync.start (h : f.InSync) (hok : f.Ok) (hw : f.active w = 0) (hfd : 0 ≤ f.fd w)
    (hstale : f.stale w = false) : (f.start w).InSync := by
  have hc := start_changed f w
  have hslot : f.fd w = f.slot w := (Int.toNat_of_nonneg hfd).symm
  have hnot : ∀ fd, w ∉ (f.anfds fd).head := fun fd hmem => ((hok.listed w fd).mp hmem).1 hw
  have hself : (f.start w).Told (f.slot w) := by
    by_cases hset : f.events w &&& evIoFdSet = 0
    · exact hc.told (h.known w _ hslot hstale hset)
    · exact hc.told_of_events hset
  have hevents : ∀ v, v ≠ w → (f.start w).events v = f.events v := fun v hv => by
    rw [start_events, Function.update_of_ne hv]
  refine ⟨fun fd hreify => ?_, fun fd => ?_, fun v fd hv hvs hve => ?_, fun v hv => ?_⟩
  · by_cases hfd' : fd = f.slot w
    · subst hfd'
      rw [hc.anfd] at hreify
      exact absurd hreify (reify_ne_zero _ _)
    · have hanfd := hc.others fd hfd'
      rw [hanfd] at hreify ⊢
      rw [h.wanted fd hreify]
      exact (wanted_of_ne hanfd fun v hv => hevents v fun heq => hnot fd (heq ▸ hv)).symm
  · by_cases hfd' : fd = f.slot w
    · exact .inl (hfd' ▸ hself)
    · refine (h.told fd).imp hc.told fun hempty => ?_
      rw [hc.others fd hfd']
      exact hempty
  · rw [hc.fdOf] at hv
    rw [hc.stale] at hvs
    by_cases hvw : v = w
    · subst hvw
      rw [hslot] at hv
      exact Int.ofNat.inj hv ▸ hself
    · rw [hevents v hvw] at hve
      exact hc.told (h.known v fd hv hvs hve)
  · rw [hc.stale]
    by_cases hvw : v = w
    · subst hvw
      rw [start_events, Function.update_self]
      exact ⟨hstale, and_not_and _ _⟩
    · rw [start_active, Function.update_of_ne hvw] at hv
      rw [hevents v hvw]
      exact h.active v hv

theorem InSync.stop (h : f.InSync) (hok : f.Ok) (hw : f.active w ≠ 0) : (f.stop w).InSync := by
  have hc := stop_changed f w
  have hslot := hok.slot_eq hw
  refine ⟨fun fd hreify => ?_, fun fd => ?_, fun v fd hv hvs hve => ?_, fun v hv => ?_⟩
  · by_cases hfd : fd = f.slot w
    · subst hfd
      rw [hc.anfd] at hreify
      exact absurd hreify (reify_ne_zero _ _)
    · have hanfd := hc.others fd hfd
      rw [hanfd] at hreify ⊢
      rw [h.wanted fd hreify]
      exact (wanted_of_ne hanfd fun v _ => by rw [stop_events]).symm
  · refine (h.told fd).imp hc.told fun hempty => ?_
    have hfd : fd ≠ f.slot w := by
      rintro rfl
      have hmem := (hok.listed w _).mpr ⟨hw, hslot⟩
      rw [hempty] at hmem
      cases hmem
    rw [hc.others fd hfd]
    exact hempty
  · rw [hc.fdOf] at hv
    rw [hc.stale] at hvs
    rw [stop_events] at hve
    exact hc.told (h.known v fd hv hvs hve)
  · rw [hc.stale, stop_events]
    refine h.active v fun hzero => hv ?_
    rw [stop_active]
    by_cases hvw : v = w
    · rw [hvw, Function.update_self]
    · rw [Function.update_of_ne hvw, hzero]

/-- An inactive watcher gets a new descriptor or other events. -/
theorem InSync.of_inactive {f' : Fds κ} (h : f.InSync) (hok : f.Ok) (hw : f.active w = 0)
    (hanfds : f'.anfds = f.anfds) (hkernel : f'.kernel = f.kernel)
    (hactive : f'.active = f.active)
    (hothers : ∀ v, v ≠ w → f'.fd v = f.fd v ∧ f'.events v = f.events v ∧ f'.stale v = f.stale v)
    (hself : ∀ fd : Nat, f'.fd w = fd → f'.stale w = false → f'.events w &&& evIoFdSet = 0 →
      f.Told fd) : f'.InSync := by
  have htold : ∀ fd, f.Told fd → f'.Told fd := fun fd ht => by
    rw [Told, hanfds, hkernel]
    exact ht
  refine ⟨fun fd hreify => ?_, fun fd => ?_, fun v fd hv hvs hve => ?_, fun v hv => ?_⟩
  · rw [hanfds] at hreify ⊢
    rw [h.wanted fd hreify]
    refine (wanted_of_ne (by rw [hanfds]) fun v hv => (hothers v ?_).2.1).symm
    rintro rfl
    exact ((hok.listed v fd).mp hv).1 hw
  · refine (h.told fd).imp (htold fd) fun hempty => ?_
    rw [hanfds]
    exact hempty
  · by_cases hvw : v = w
    · subst hvw
      exact htold fd (hself fd hv hvs hve)
    · obtain ⟨hfd, hevents, hstale⟩ := hothers v hvw
      rw [hfd] at hv
      rw [hstale] at hvs
      rw [hevents] at hve
      exact htold fd (h.known v fd hv hvs hve)
  · rw [hactive] at hv
    have hvw : v ≠ w := fun heq => hv (heq ▸ hw)
    obtain ⟨-, hevents, hstale⟩ := hothers v hvw
    rw [hevents, hstale]
    exact h.active v hv

theorem InSync.set (h : f.InSync) (hok : f.Ok) (hw : f.active w = 0) (fd : Int)
    (events : UInt32) : (f.set w fd events).InSync := by
  refine h.of_inactive hok hw rfl rfl rfl (fun v hv => ⟨?_, ?_, ?_⟩) fun fd' _ _ hzero => ?_
  · exact Function.update_of_ne hv ..
  · exact Function.update_of_ne hv ..
  · exact Function.update_of_ne hv ..
  · change Function.update f.events w (events ||| evIoFdSet) w &&& evIoFdSet = 0 at hzero
    rw [Function.update_self] at hzero
    exact absurd hzero (or_self_and events)

theorem InSync.modify (h : f.InSync) (hok : f.Ok) (hw : f.active w = 0) (events : UInt32) :
    (f.modify w events).InSync := by
  refine h.of_inactive hok hw rfl rfl rfl (fun v hv => ⟨rfl, ?_, rfl⟩) fun fd hfd hstale hzero => ?_
  · exact Function.update_of_ne hv ..
  · refine h.known w fd hfd hstale ?_
    change Function.update f.events w (f.events w &&& evIoFdSet ||| events) w &&& evIoFdSet = 0
      at hzero
    rw [Function.update_self] at hzero
    have hnat := congrArg UInt32.toNat hzero
    rw [UInt32.toNat_and, UInt32.toNat_or, UInt32.toNat_and, Nat.and_or_distrib_right,
      Nat.and_assoc, Nat.and_self] at hnat
    have hle : f.events w &&& evIoFdSet = 0 := by
      apply UInt32.toNat.inj
      rw [UInt32.toNat_and]
      exact (Nat.or_eq_zero_iff.mp hnat).1
    exact hle

omit [DecidableEq κ] in
/-- A descriptor is closed when no watcher is active on it. -/
theorem InSync.close (h : f.InSync) (hok : f.Ok) (hfd : ∀ w, f.active w ≠ 0 → f.fd w ≠ fd) :
    (f.close fd).InSync := by
  have hempty : (f.anfds fd).head = [] := by
    refine List.eq_nil_iff_forall_not_mem.mpr fun w hw => ?_
    obtain ⟨hactive, heq⟩ := (hok.listed w fd).mp hw
    exact hfd w hactive heq
  have hkernel : ∀ fd', fd' ≠ fd → (f.close fd).kernel fd' = f.kernel fd' := fun fd' hne =>
    Function.update_of_ne hne ..
  have htold : ∀ fd', fd' ≠ fd → f.Told fd' → (f.close fd).Told fd' := fun fd' hne ht => by
    rw [Told, hkernel fd' hne]
    exact ht
  have hstale : ∀ v, (f.close fd).stale v = false → f.stale v = false ∧ f.fd v ≠ fd := by
    intro v hv
    simpa [Fds.close, Bool.or_eq_false_iff] using hv
  refine ⟨fun fd' hreify => h.wanted fd' hreify, fun fd' => ?_, fun v fd' hv hvs hve => ?_,
    fun v hv => ?_⟩
  · by_cases hne : fd' = fd
    · exact .inr (hne ▸ hempty)
    · exact (h.told fd').imp (htold fd' hne) id
  · obtain ⟨hvs, hvfd⟩ := hstale v hvs
    have hne : fd' ≠ fd := by
      rintro rfl
      exact hvfd hv
    exact htold fd' hne (h.known v fd' hv hvs hve)
  · obtain ⟨hvs, hve⟩ := h.active v hv
    refine ⟨?_, hve⟩
    simp [Fds.close, hvs, hfd v hv]

/-! ## `fd_reify` -/

/-- What `fd_reify` does not touch. -/
structure Kept (f f' : Fds κ) : Prop where
  head : ∀ fd, (f'.anfds fd).head = (f.anfds fd).head
  active : f'.active = f.active
  fdOf : f'.fd = f.fd
  events : f'.events = f.events
  stale : f'.stale = f.stale
  fdchanges : f'.fdchanges = f.fdchanges

omit [DecidableEq κ] in
theorem Kept.wanted {f' : Fds κ} (h : Kept f f') (fd : Nat) : f'.wanted fd = f.wanted fd := by
  rw [Fds.wanted, h.head]
  exact union_congr fun v _ => by rw [h.events]

/-- What `fd_reify` does to a descriptor. -/
structure Reified (f f' : Fds κ) (fd : Nat) : Prop where
  kept : Kept f f'
  anfd : f'.anfds fd = ⟨(f.anfds fd).head, f.wanted fd, 0⟩
  kernel : f.wanted fd ≠ 0 → f'.kernel fd = f.wanted fd ∨
    (f.anfds fd).reify &&& ioFdSetFlag = 0 ∧ (f.anfds fd).events = f.wanted fd ∧
      f'.kernel fd = f.kernel fd
  others : ∀ fd', fd' ≠ fd → f'.anfds fd' = f.anfds fd' ∧ f'.kernel fd' = f.kernel fd'

section

omit [DecidableEq κ]

theorem reifyFd_reified (f : Fds κ) (fd : Nat) : Reified f (f.reifyFd fd) fd := by
  have hhead : ∀ (a : Anfd κ), a.head = (f.anfds fd).head → ∀ fd',
      (Function.update f.anfds fd a fd').head = (f.anfds fd').head := by
    intro a ha fd'
    by_cases hfd : fd' = fd
    · rw [hfd, Function.update_self, ha]
    · rw [Function.update_of_ne hfd]
  unfold reifyFd
  simp only [setAnfd, Function.update_self]
  generalize hflag : (if (f.anfds fd).events ≠ f.wanted fd then ioFdSetFlag
    else (f.anfds fd).reify) = oReify
  by_cases hset : oReify &&& ioFdSetFlag = 0
  · rw [if_neg (not_not.mpr hset)]
    refine ⟨⟨hhead _ rfl, rfl, rfl, rfl, rfl, rfl⟩, Function.update_self .., fun _ => .inr ?_, ?_⟩
    · subst hflag
      by_cases hevents : (f.anfds fd).events = f.wanted fd
      · rw [if_neg (not_not.mpr hevents)] at hset
        exact ⟨hset, hevents, rfl⟩
      · rw [if_pos hevents] at hset
        exact absurd hset (by decide)
    · exact fun fd' hne => ⟨Function.update_of_ne hne .., rfl⟩
  · rw [if_pos hset]
    unfold epollModify
    split
    · -- nothing is wanted any more, and the kernel does not hear of it
      rename_i hnone
      exact ⟨⟨hhead _ rfl, rfl, rfl, rfl, rfl, rfl⟩, Function.update_self ..,
        fun hwanted => absurd hnone hwanted, fun fd' hne => ⟨Function.update_of_ne hne .., rfl⟩⟩
    · refine ⟨⟨hhead _ rfl, rfl, rfl, rfl, rfl, rfl⟩, Function.update_self ..,
        fun _ => .inl (Function.update_self ..), fun fd' hne => ?_⟩
      exact ⟨Function.update_of_ne hne .., Function.update_of_ne hne ..⟩

/-- The descriptor is up to date then. -/
theorem Reified.kernel_eq {f' : Fds κ} (hr : Reified f f' fd) (h : f.InSync)
    (hwanted : f.wanted fd ≠ 0) : f'.kernel fd = f.wanted fd := by
  rcases hr.kernel hwanted with hkernel | ⟨hflag, hevents, hkernel⟩
  · exact hkernel
  · rw [hkernel]
    rcases h.told fd with (hset | hsame) | hempty
    · exact absurd hflag hset
    · rw [hsame (hevents ▸ hwanted), hevents]
    · exact absurd (by rw [Fds.wanted, hempty]; rfl) hwanted

theorem Reified.inSync {f' : Fds κ} (hr : Reified f f' fd) (h : f.InSync) : f'.InSync := by
  have hself : f'.Told fd := by
    refine .inr ?_
    rw [hr.anfd]
    exact hr.kernel_eq h
  have htold : ∀ fd', f.Told fd' → f'.Told fd' := fun fd' ht => by
    by_cases hfd : fd' = fd
    · exact hfd ▸ hself
    · rw [Told, (hr.others fd' hfd).1, (hr.others fd' hfd).2]
      exact ht
  refine ⟨fun fd' hreify => ?_, fun fd' => ?_, fun v fd' hv hvs hve => ?_, fun v hv => ?_⟩
  · rw [hr.kept.wanted]
    by_cases hfd : fd' = fd
    · rw [hfd, hr.anfd]
    · rw [(hr.others fd' hfd).1] at hreify ⊢
      exact h.wanted fd' hreify
  · by_cases hfd : fd' = fd
    · exact .inl (hfd ▸ hself)
    · refine (h.told fd').imp (htold fd') fun hempty => ?_
      rw [(hr.others fd' hfd).1]
      exact hempty
  · rw [hr.kept.fdOf] at hv
    rw [hr.kept.stale] at hvs
    rw [hr.kept.events] at hve
    exact htold fd' (h.known v fd' hv hvs hve)
  · rw [hr.kept.active] at hv
    rw [hr.kept.stale, hr.kept.events]
    exact h.active v hv

/-- The loop of `fd_reify`. -/
theorem foldl_reifyFd (l : List Nat) (f : Fds κ) :
    Kept f (l.foldl reifyFd f) ∧ (f.InSync → (l.foldl reifyFd f).InSync) ∧
      ∀ fd, ((l.foldl reifyFd f).anfds fd).reify =
        if fd ∈ l then 0 else (f.anfds fd).reify := by
  induction l generalizing f with
  | nil => exact ⟨⟨fun _ => rfl, rfl, rfl, rfl, rfl, rfl⟩, id, fun fd => by simp⟩
  | cons fd l ih =>
      have hr := reifyFd_reified f fd
      obtain ⟨hkept, hsync, hreify⟩ := ih (f.reifyFd fd)
      refine ⟨?_, fun h => hsync (hr.inSync h), fun fd' => ?_⟩
      · exact ⟨fun fd' => (hkept.head fd').trans (hr.kept.head fd'),
          hkept.active.trans hr.kept.active, hkept.fdOf.trans hr.kept.fdOf,
          hkept.events.trans hr.kept.events, hkept.stale.trans hr.kept.stale,
          hkept.fdchanges.trans hr.kept.fdchanges⟩
      · rw [List.foldl_cons, hreify]
        by_cases hfd : fd' = fd
        · subst hfd
          rw [hr.anfd]
          simp
        · rw [(hr.others fd' hfd).1]
          simp [hfd]

theorem reify_active (f : Fds κ) : f.reify.active = f.active :=
  (foldl_reifyFd f.fdchanges f).1.active

theorem reify_events (f : Fds κ) : f.reify.events = f.events :=
  (foldl_reifyFd f.fdchanges f).1.events

/-- No descriptor has a `reify` flag behind `fd_reify`. -/
theorem Ok.reify_eq_zero (h : f.Ok) (fd : Nat) : (f.reify.anfds fd).reify = 0 := by
  change ((f.fdchanges.foldl reifyFd f).anfds fd).reify = 0
  rw [(foldl_reifyFd f.fdchanges f).2.2 fd]
  split
  · rfl
  · rename_i hmem
    exact not_not.mp fun hne => hmem ((h.changed fd).mpr hne)

theorem Ok.reify (h : f.Ok) : f.reify.Ok := by
  have hkept := (foldl_reifyFd f.fdchanges f).1
  refine ⟨fun w fd => ?_, fun fd => ?_, fun w => ?_, fun w hw => ?_, fun fd => ?_,
    List.nodup_nil⟩
  · change w ∈ ((f.fdchanges.foldl reifyFd f).anfds fd).head ↔
      (f.fdchanges.foldl reifyFd f).active w ≠ 0 ∧ (f.fdchanges.foldl reifyFd f).fd w = fd
    rw [hkept.head, hkept.active, hkept.fdOf]
    exact h.listed w fd
  · change ((f.fdchanges.foldl reifyFd f).anfds fd).head.Nodup
    rw [hkept.head]
    exact h.nodup fd
  · change (f.fdchanges.foldl reifyFd f).active w ≤ 1
    rw [hkept.active]
    exact h.one w
  · change (f.fdchanges.foldl reifyFd f).active w ≠ 0 at hw
    change 0 ≤ (f.fdchanges.foldl reifyFd f).fd w
    rw [hkept.active] at hw
    rw [hkept.fdOf]
    exact h.fd_nonneg w hw
  · rw [h.reify_eq_zero]
    simp [Fds.reify]

theorem InSync.reify (h : f.InSync) : f.reify.InSync := by
  have hsync := (foldl_reifyFd f.fdchanges f).2.1 h
  exact ⟨hsync.wanted, hsync.told, hsync.known, hsync.active⟩

/-- The kernel has been asked for what is wanted of a descriptor that has no `reify`
flag. -/
theorem InSync.kernel_eq (h : f.InSync) (hreify : (f.anfds fd).reify = 0)
    (hwanted : f.wanted fd ≠ 0) : f.kernel fd = f.wanted fd := by
  have hevents := h.wanted fd hreify
  rcases h.told fd with (hflag | hsame) | hempty
  · rw [hreify] at hflag
    exact absurd rfl hflag
  · rw [hsame (hevents ▸ hwanted), hevents]
  · exact absurd (by rw [Fds.wanted, hempty]; rfl) hwanted

end

/-- The kernel has been asked for what is wanted, and no watcher waits for
`fd_reify`. -/
structure InStep (f : Fds κ) : Prop where
  kernel : ∀ fd, f.wanted fd ≠ 0 → f.kernel fd = f.wanted fd
  settled : ∀ fd, (f.anfds fd).reify ≠ 0 → (f.anfds fd).head = []

omit [DecidableEq κ] in
theorem InSync.inStep (h : f.InSync) (hok : f.Ok) : f.reify.InStep where
  kernel fd := h.reify.kernel_eq (hok.reify_eq_zero fd)
  settled fd hne := absurd (hok.reify_eq_zero fd) hne

/-- The watcher is active and wants an event of the descriptor. -/
def Wants (f : Fds κ) (w : κ) (fd : Nat) (event : UInt8) : Prop :=
  f.active w ≠ 0 ∧ f.fd w = fd ∧ (f.events w).toUInt8 &&& event ≠ 0

section

omit [DecidableEq κ]

/-- The events that are wanted are those that some active watcher wants. -/
theorem Ok.wanted_iff (hok : f.Ok) (fd : Nat) (event : UInt8) :
    f.wanted fd &&& event ≠ 0 ↔ ∃ w, f.Wants w fd event := by
  rw [wanted, union_and_ne_zero_iff]
  constructor
  · rintro ⟨w, hw, hevent⟩
    obtain ⟨hactive, hfd⟩ := (hok.listed w fd).mp hw
    exact ⟨w, hactive, hfd, hevent⟩
  · rintro ⟨w, hactive, hfd, hevent⟩
    exact ⟨w, (hok.listed w fd).mpr ⟨hactive, hfd⟩, hevent⟩

/-- When somebody wants something of a descriptor, the kernel has been asked for
exactly what is wanted of it. -/
theorem InStep.kernel_iff (h : f.InStep) (hok : f.Ok) {event : UInt8} (hw : f.Wants w fd event)
    (event' : UInt8) : f.kernel fd &&& event' ≠ 0 ↔ ∃ w, f.Wants w fd event' := by
  have hwanted : f.wanted fd ≠ 0 := by
    intro hzero
    refine (hok.wanted_iff fd event).mpr ⟨w, hw⟩ ?_
    rw [hzero, UInt8.zero_and]
  rw [h.kernel fd hwanted, hok.wanted_iff]

end

/-! ## `fd_kill` -/

/-- Watchers of `fd` have stopped. -/
structure Apart (f f' : Fds κ) (fd : Nat) : Prop where
  others : ∀ fd', fd' ≠ fd → f'.anfds fd' = f.anfds fd'
  kernel : f'.kernel = f.kernel
  events : f'.events = f.events
  fdOf : f'.fd = f.fd

section

omit [DecidableEq κ]

theorem Apart.refl (f : Fds κ) (fd : Nat) : Apart f f fd :=
  ⟨fun _ _ => rfl, rfl, rfl, rfl⟩

theorem Apart.trans {f' f'' : Fds κ} (h : Apart f f' fd) (h' : Apart f' f'' fd) : Apart f f'' fd :=
  ⟨fun fd' hne => (h'.others fd' hne).trans (h.others fd' hne), h'.kernel.trans h.kernel,
    h'.events.trans h.events, h'.fdOf.trans h.fdOf⟩

end

theorem Apart.stop (hw : f.slot w = fd) : Apart f (f.stop w) fd := by
  have hc := stop_changed f w
  rw [hw] at hc
  exact ⟨hc.others, hc.kernel, stop_events, hc.fdOf⟩

omit [DecidableEq κ] in
/-- Nothing is wanted of a descriptor that has been closed. -/
theorem InStep.close {f' : Fds κ} (h : f.InStep) (hapart : Apart f f' fd)
    (hempty : (f'.anfds fd).head = []) : (f'.close fd).InStep where
  kernel fd' hwanted := by
    have hclose : (f'.close fd).wanted fd' = f'.wanted fd' := rfl
    rw [hclose] at hwanted ⊢
    by_cases hne : fd' = fd
    · subst hne
      exact absurd (by rw [wanted, hempty]; rfl) hwanted
    · have hkernel : (f'.close fd).kernel fd' = f'.kernel fd' := Function.update_of_ne hne ..
      have hsame : f'.wanted fd' = f.wanted fd' :=
        wanted_of_ne (hapart.others fd' hne) fun v _ => by rw [hapart.events]
      rw [hsame] at hwanted ⊢
      rw [hkernel, hapart.kernel, h.kernel fd' hwanted]
  settled fd' hreify := by
    have hanfds : (f'.close fd).anfds = f'.anfds := rfl
    rw [hanfds] at hreify ⊢
    by_cases hne : fd' = fd
    · subst hne
      exact hempty
    · rw [hapart.others fd' hne] at hreify ⊢
      exact h.settled fd' hreify

end Fds
end Ev
end Cyan

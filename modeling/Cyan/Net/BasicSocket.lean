import Mathlib.Logic.Function.Basic
import Cyan.Base.Machine
import Cyan.Net.SocketOps

/-!
# Socket objects

This module embeds `basic_socket` as `basic_stream_socket` uses it: the constructors, the
move, `open`, `bind`, `close` and the destructor.

* An object has its `native_handle_` and, unless it has been moved from, an event watcher
  with a descriptor of its own.  The endpoints and the callbacks decide nothing here.
* `Act` is what runs on the objects of the process.  A member function names its object by
  the place where it lives, as `this` does.
* When a constructor throws, the members of the object go away but its destructor does not
  run.
* What leaves a destructor ends the process, and so does a null pointer that is followed.
-/

namespace Cyan
namespace Net

open Base

/-- `protocol_type` -/
structure Protocol where
  family : Int
  type : Int
  protocol : Int
  deriving DecidableEq, Repr

/-- `basic_stream_socket` -/
structure Socket where
  nativeHandle : Int
  /-- the descriptor of the event watcher, which a move takes away -/
  io : Option Int
  deriving DecidableEq, Repr

/-- The process: the world around it, and the live objects by their places. -/
structure Process where
  world : World
  sockets : Nat → Option Socket
  alive : Bool

/-- What runs in the process. -/
abbrev Act := EStateM Abort Process

namespace Process

/-- The object lives at `s`, in place of what was there. -/
def place (p : Process) (s : Nat) (o : Socket) : Process :=
  { p with sockets := Function.update p.sockets s (some o) }

/-- The object at `s` is gone. -/
def remove (p : Process) (s : Nat) : Process :=
  { p with sockets := Function.update p.sockets s none }

/-- The object at `s` changes. -/
def change (p : Process) (s : Nat) (f : Socket → Socket) : Process :=
  { p with sockets := Function.update p.sockets s ((p.sockets s).map f) }

@[simp] theorem place_sockets (p : Process) (s : Nat) (o : Socket) :
    (p.place s o).sockets s = some o :=
  Function.update_self ..

theorem place_of_ne {s t : Nat} (h : t ≠ s) (p : Process) (o : Socket) :
    (p.place s o).sockets t = p.sockets t :=
  Function.update_of_ne h ..

theorem place_comm {s t : Nat} (h : s ≠ t) (p : Process) (o o' : Socket) :
    (p.place s o).place t o' = (p.place t o').place s o := by
  rw [place, place, place, place, Function.update_comm h]

@[simp] theorem place_place (p : Process) (s : Nat) (o o' : Socket) :
    (p.place s o).place s o' = p.place s o' := by
  simp [place]

/-- Changing a live object puts the changed one in its place. -/
theorem change_eq_place {p : Process} {s : Nat} {o : Socket} (h : p.sockets s = some o)
    (f : Socket → Socket) : p.change s f = p.place s (f o) := by
  rw [change, h, place, Option.map_some]

end Process

/-- A function of `net::detail` runs in the process. -/
def detail {α : Type} (x : Prog α) : Act α := fun p =>
  match x p.world with
  | .ok a w => .ok a { p with world := w }
  | .error e w => .error e { p with world := w }

/-- `if (ec) throw std::system_error{ ec };` -/
def throwIf (ec : ErrorCode) : Act Unit := do
  if ec.isSet then throw (.systemError ec)

section Rules

variable {α : Type} {Q : α → Process → Prop} {E : Abort → Process → Prop} {p : Process}

@[simp] theorem ends_detail {x : Prog α} :
    Ends Q E (detail x p) ↔
      Ends (fun a w => Q a { p with world := w }) (fun e w => E e { p with world := w })
        (x p.world) := by
  unfold detail
  cases x p.world <;> rfl

@[simp] theorem ends_throwIf {Q : Unit → Process → Prop} {ec : ErrorCode} :
    Ends Q E (throwIf ec p) ↔
      (ec.isSet → E (.systemError ec) p) ∧ (¬ec.isSet → Q () p) := by
  unfold throwIf
  exact Ends.ite_iff

/-- Nothing has gone wrong. -/
theorem ends_throwIf_clear {Q : Unit → Process → Prop} (h : Q () p) :
    Ends Q E (throwIf .clear p) := by
  refine ends_throwIf.mpr ⟨fun hset => ?_, fun _ => h⟩
  cases hset

/-- An error is thrown. -/
theorem ends_throwIf_set {Q : Unit → Process → Prop} {ec : ErrorCode} (hset : ec.isSet)
    (h : E (.systemError ec) p) : Ends Q E (throwIf ec p) :=
  ends_throwIf.mpr ⟨fun _ => h, fun hclear => absurd hset hclear⟩

end Rules

namespace BasicSocket

/-! ## Members -/

/-- `native_handle_` -/
def nativeHandle (this : Nat) : Act Int := do
  return ((← get).sockets this).elim invalidSocket Socket.nativeHandle

/-- `native_handle_ = sock` -/
def setNativeHandle (this : Nat) (sock : Int) : Act Unit :=
  modify (·.change this fun o => { o with nativeHandle := sock })

/-- The event watcher of the object, which must not have been moved away. -/
def watcher (this : Nat) : Act Unit := do
  if (((← get).sockets this).bind Socket.io).isNone then throw .fault

/-- `base_io::set_file_descriptor` -/
def setFileDescriptor (this : Nat) (fd : Int) : Act Unit := do
  watcher this
  modify (·.change this fun o => { o with io := some fd })

/-- `base_io::set_callback`, which only the watcher sees. -/
def setCallback (this : Nat) : Act Unit :=
  watcher this

/-- `is_open` -/
def isOpen (this : Nat) : Act Bool := do
  return (← nativeHandle this) ≠ invalidSocket

/-- `open` -/
def openWith (this : Nat) (protocol : Protocol) : Act Unit := do
  let (sock, ec) ← detail (socket protocol.family protocol.type protocol.protocol)
  setNativeHandle this sock
  throwIf ec
  setFileDescriptor this sock

/-- `close`.  `base_io::stop` leaves the descriptor alone. -/
def close (this : Nat) : Act Unit := do
  if (← isOpen this) = false then return
  let (_, ec) ← detail (Net.close (← nativeHandle this))
  throwIf ec
  setNativeHandle this invalidSocket
  setFileDescriptor this invalidSocket

/-- `set_option` -/
def setOption (this : Nat) (option : SocketOption) (value : Int) : Act Unit := do
  let (_, ec) ← detail (setSocketOption (← nativeHandle this) option value)
  throwIf ec

/-- `get_option` -/
def getOption (this : Nat) (option : SocketOption) (value : Int) : Act Int := do
  let ((_, stored), ec) ← detail (getSocketOption (← nativeHandle this) option value)
  throwIf ec
  return stored

/-- `bind`, where all that counts of the endpoint is its protocol. -/
def bind (this : Nat) (protocol : Protocol) (reuseAddr : Bool) : Act Unit := do
  if (← isOpen this) = false then openWith this protocol
  setOption this .reuseAddress reuseAddr.toInt
  let (_, ec) ← detail (Net.bind (← nativeHandle this))
  throwIf ec

section Rules

variable {E : Abort → Process → Prop} {p : Process} {s : Nat} {o : Socket}

theorem ends_nativeHandle {Q : Int → Process → Prop} (h : p.sockets s = some o) :
    Ends Q E (nativeHandle s p) ↔ Q o.nativeHandle p := by
  simp [nativeHandle, h]

theorem ends_isOpen {Q : Bool → Process → Prop} (h : p.sockets s = some o) :
    Ends Q E (isOpen s p) ↔ Q (o.nativeHandle ≠ invalidSocket) p := by
  simp [isOpen, ends_nativeHandle h]

theorem ends_setNativeHandle {Q : Unit → Process → Prop} {sock : Int}
    (h : p.sockets s = some o) :
    Ends Q E (setNativeHandle s sock p) ↔ Q () (p.place s { o with nativeHandle := sock }) := by
  rw [setNativeHandle, Ends.modify_iff, Process.change_eq_place h]

theorem ends_watcher {Q : Unit → Process → Prop} (h : p.sockets s = some o) :
    Ends Q E (watcher s p) ↔ (o.io = none → E .fault p) ∧ (o.io ≠ none → Q () p) := by
  simp [watcher, h]

theorem ends_setFileDescriptor {Q : Unit → Process → Prop} {fd : Int}
    (h : p.sockets s = some o) :
    Ends Q E (setFileDescriptor s fd p) ↔ (o.io = none → E .fault p) ∧
      (o.io ≠ none → Q () (p.place s { o with io := some fd })) := by
  rw [setFileDescriptor, Ends.bind_iff, ends_watcher h, Ends.modify_iff,
    Process.change_eq_place h]

theorem ends_setOption {Q : Unit → Process → Prop} {option : SocketOption} {value : Int}
    (h : p.sockets s = some o)
    (hok : p.world.next (.setsockopt o.nativeHandle option value) = none →
      Q () { p with world := p.world.called (.setsockopt o.nativeHandle option value) })
    (herror : ∀ e : Errno, p.world.next (.setsockopt o.nativeHandle option value) = some e →
      E (.systemError ⟨e, .system⟩)
        { p with world := p.world.called (.setsockopt o.nativeHandle option value) }) :
    Ends Q E (setOption s option value p) := by
  rw [setOption, Ends.bind_iff, ends_nativeHandle h, Ends.bind_iff, ends_detail]
  refine ends_status (fun hnone => ?_) fun e he => ?_
  · exact ends_throwIf_clear (hok hnone)
  · exact ends_throwIf_set (isSet_errno e) (herror e he)

end Rules

/-! ## Construction and destruction -/

/-- The members come first, then the body of the constructor. -/
def construct (this : Nat) (sock : Int) (body : Act Unit) : Act Unit := do
  modify (·.place this ⟨sock, some (-1)⟩)
  try body
  catch e =>
    modify (·.remove this)
    throw e

theorem ends_construct {Q : Unit → Process → Prop} {E : Abort → Process → Prop} {p : Process}
    {s : Nat} {sock : Int} {body : Act Unit} :
    Ends Q E (construct s sock body p) ↔
      Ends Q (fun e p' => E e (p'.remove s)) (body (p.place s ⟨sock, some (-1)⟩)) := by
  simp [construct]

/-- `basic_stream_socket(loop_ref)` -/
def fromLoop (this : Nat) : Act Unit :=
  construct this invalidSocket (return)

/-- `basic_stream_socket(loop_ref, native_handle)` -/
def fromHandle (this : Nat) (sock : Int) : Act Unit :=
  construct this sock do
    setFileDescriptor this sock
    setCallback this

/-- `basic_stream_socket(loop_ref, protocol)` -/
def fromProtocol (this : Nat) (protocol : Protocol) : Act Unit :=
  construct this invalidSocket do
    openWith this protocol
    setCallback this

/-- `basic_stream_socket(loop_ref, endpoint)` -/
def fromEndpoint (this : Nat) (protocol : Protocol) : Act Unit :=
  construct this invalidSocket do
    bind this protocol true
    setCallback this

/-- `basic_stream_socket(basic_stream_socket&& other)` -/
def fromOther (this other : Nat) : Act Unit := do
  let o := ((← get).sockets other).getD ⟨invalidSocket, none⟩
  modify (·.change other fun o => { o with io := none })
  modify (·.place this o)
  setNativeHandle other invalidSocket
  setCallback this

/-- The new object is what `other` was, and `other` has nothing left. -/
theorem ends_fromOther {Q : Unit → Process → Prop} {E : Abort → Process → Prop} {p : Process}
    {s t : Nat} {o : Socket} (hst : s ≠ t) (hlive : p.sockets t = some o) :
    Ends Q E (fromOther s t p) ↔
      (o.io = none → E .fault ((p.place t ⟨invalidSocket, none⟩).place s o)) ∧
        (o.io ≠ none → Q () ((p.place t ⟨invalidSocket, none⟩).place s o)) := by
  have hother : ((p.place t { o with io := none }).place s o).sockets t =
      some { o with io := none } := by
    rw [Process.place_of_ne hst.symm, Process.place_sockets]
  have hmoved : ((p.place t { o with io := none }).place s o).place t ⟨invalidSocket, none⟩ =
      (p.place t ⟨invalidSocket, none⟩).place s o := by
    rw [Process.place_comm hst.symm, Process.place_place, Process.place_comm hst]
  rw [fromOther, Ends.bind_iff, Ends.get_iff, hlive, Ends.bind_iff, Ends.modify_iff,
    Process.change_eq_place hlive, Ends.bind_iff, Ends.modify_iff, Ends.bind_iff]
  refine (ends_setNativeHandle hother).trans ?_
  rw [hmoved]
  exact ends_watcher (Process.place_sockets ..)

/-- `~basic_stream_socket`: no exception leaves it. -/
def destroy (this : Nat) : Act Unit := do
  try close this
  catch
    | .systemError _ => throw .terminate
    | e => throw e
  modify (·.remove this)

end BasicSocket

/-! ## Runs -/

/-- What a program does with its sockets. -/
inductive SocketOp
  | fromLoop (this : Nat)
  | fromHandle (this : Nat) (sock : Int)
  | fromProtocol (this : Nat) (protocol : Protocol)
  | fromEndpoint (this : Nat) (protocol : Protocol)
  | fromOther (this other : Nat)
  | openWith (this : Nat) (protocol : Protocol)
  | bind (this : Nat) (protocol : Protocol) (reuseAddr : Bool)
  | close (this : Nat)
  | destroy (this : Nat)
  deriving DecidableEq, Repr

namespace SocketOp

/-- A constructor needs a free place, and any other function a live object. -/
def enabled (p : Process) : SocketOp → Bool
  | fromLoop this | fromHandle this _ | fromProtocol this _ | fromEndpoint this _ =>
      (p.sockets this).isNone
  | fromOther this other => (p.sockets this).isNone && (p.sockets other).isSome
  | openWith this _ | bind this _ _ | close this | destroy this => (p.sockets this).isSome

/-- A descriptor that is handed to a constructor and that no one has opened yet is one
that the caller has just obtained from the system. -/
def obtain (sock : Int) (p : Process) : Process :=
  if sock < 0 ∨ p.world.isOpen sock then p
  else { p with world := p.world.opened sock.toNat 0 }

/-- The member function. -/
def run : SocketOp → Act Unit
  | fromLoop this => BasicSocket.fromLoop this
  | fromHandle this sock => do
      modify (obtain sock)
      BasicSocket.fromHandle this sock
  | fromProtocol this protocol => BasicSocket.fromProtocol this protocol
  | fromEndpoint this protocol => BasicSocket.fromEndpoint this protocol
  | fromOther this other => BasicSocket.fromOther this other
  | openWith this protocol => BasicSocket.openWith this protocol
  | bind this protocol reuseAddr => BasicSocket.bind this protocol reuseAddr
  | close this => BasicSocket.close this
  | destroy this => BasicSocket.destroy this

end SocketOp

/-- The process behind an operation: the caller catches a `std::system_error`, and nothing
else lets the process live on. -/
def behind : EStateM.Result Abort Process Unit → Process
  | .ok _ p => p
  | .error (.systemError _) p => p
  | .error _ p => { p with alive := false }

/-- `close` reports no error. -/
def CloseSucceeds (w : World) : Prop :=
  ∀ sock n, (w.answer (.close sock) n).error = none

/-- A program that uses its sockets one operation at a time, in a world where `close`
succeeds. -/
def socketMachine : Machine Process SocketOp where
  start p := p.alive ∧ p.sockets = (fun _ => none) ∧ p.world.descriptors = [] ∧
    p.world.strayCloses = [] ∧ CloseSucceeds p.world
  step p op := if p.alive ∧ op.enabled p then some (behind (op.run p)) else none

/-- A new process in a world where calls fail as `error` says. -/
def newProcess (error : SysCall → Option Errno) : Process where
  world :=
    { hasNosigpipe := false
      answer := fun call _ => ⟨error call, 3, 2, 0, true⟩
      calls := []
      errno := 0
      descriptors := []
      strayCloses := [] }
  sockets _ := none
  alive := true

end Net
end Cyan

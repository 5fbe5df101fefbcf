import Cyan.Base.Ends

/-!
# System calls on sockets

What `net` uses of the operating system: system calls that succeed or fail, `errno`, and
the table of open descriptors.

* The world decides what each call answers.  A call that fails sets `errno` to a value
  other than zero, and one that succeeds leaves it alone.
* A descriptor that `socket` or `accept` hands out is one that is not open.
* `close` takes the descriptor out of the table when it succeeds.  Whether it does so too
  when it reports an error is up to the world.

The field `calls` numbers the system calls and records their errors, newest first.
`strayCloses` is there for the statements only.
-/

namespace Cyan
namespace Net

open Base

/-- The categories of error codes in use. -/
inductive Category
  | generic
  | system
  deriving DecidableEq, Repr

/-- `std::error_code` -/
structure ErrorCode where
  value : Nat
  category : Category
  deriving DecidableEq, Repr

/-- `std::error_code{}` -/
def ErrorCode.clear : ErrorCode := ⟨0, .system⟩

/-- `explicit operator bool` -/
def ErrorCode.isSet (ec : ErrorCode) : Bool := ec.value ≠ 0

/-- `std::make_error_code(std::errc::bad_file_descriptor)` -/
def badFileDescriptor : ErrorCode := ⟨9, .generic⟩

/-- What a failing call leaves in `errno`. -/
abbrev Errno := { code : Nat // code ≠ 0 }

theorem isSet_errno (e : Errno) : (⟨e, .system⟩ : ErrorCode).isSet :=
  decide_eq_true e.2

/-- The socket options in use. -/
inductive SocketOption
  /-- `SOL_SOCKET`, `SO_NOSIGPIPE` -/
  | nosigpipe
  /-- `IPPROTO_TCP`, `TCP_NODELAY` -/
  | nodelay
  /-- `SOL_SOCKET`, `SO_REUSEADDR` -/
  | reuseAddress
  /-- `SOL_SOCKET`, `SO_ERROR` -/
  | error
  deriving DecidableEq, Repr

/-- The system calls with those of their arguments that are values. -/
inductive SysCall
  | socket (af type protocol : Int)
  | accept (sock : Int)
  | setsockopt (sock : Int) (option : SocketOption) (value : Int)
  | getsockopt (sock : Int) (option : SocketOption)
  /-- `fcntl(sock, F_GETFL, 0)` -/
  | getfl (sock : Int)
  /-- `fcntl(sock, F_SETFL, flags)` -/
  | setfl (sock : Int) (flags : UInt32)
  | bind (sock : Int)
  | close (sock : Int)
  deriving DecidableEq, Repr

/-- What the world answers to a call. -/
structure Answer where
  error : Option Errno
  /-- the descriptor that `socket` and `accept` would hand out, and its status flags -/
  descriptor : Nat
  flags : UInt32
  /-- what `getsockopt` stores -/
  value : Int
  /-- whether a `close` that fails takes the descriptor out of the table -/
  released : Bool

/-- The process and the world around it. -/
structure World where
  /-- `SO_NOSIGPIPE` is defined -/
  hasNosigpipe : Bool
  /-- the answer to a call that comes after so many others -/
  answer : SysCall → Nat → Answer
  calls : List (SysCall × Option Errno)
  errno : Nat
  /-- the open descriptors with their status flags -/
  descriptors : List (Nat × UInt32)
  /-- the descriptors that `close` was called with and that were not open, newest first -/
  strayCloses : List Int

/-- What ends a program before it returns. -/
inductive Abort
  /-- `std::system_error{ ec }` -/
  | systemError (ec : ErrorCode)
  /-- `std::terminate` -/
  | terminate
  /-- a null pointer is followed -/
  | fault
  deriving DecidableEq, Repr

/-- A program of the process. -/
abbrev Prog := EStateM Abort World

/-- `detail::invalid_socket` -/
def invalidSocket : Int := -1

/-- `O_NONBLOCK` -/
def oNonblock : UInt32 := 0o4000

namespace World

/-- The descriptor is open. -/
def isOpen (w : World) (sock : Int) : Bool :=
  w.descriptors.any fun d => (d.1 : Int) = sock

/-- A descriptor that is not open, the proposed one if possible. -/
def fresh (w : World) (fd : Nat) : Nat :=
  if w.isOpen fd then (w.descriptors.map Prod.fst).max?.getD 0 + 1 else fd

/-- `sock` becomes the descriptor of a new socket. -/
def opened (w : World) (fd : Nat) (flags : UInt32) : World :=
  { w with descriptors := (fd, flags) :: w.descriptors }

/-- `close` is called with the descriptor. -/
def closing (w : World) (sock : Int) : World :=
  if sock < 0 ∨ w.isOpen sock then w else { w with strayCloses := sock :: w.strayCloses }

/-- The descriptor is taken out of the table. -/
def release (w : World) (sock : Int) : World :=
  { w with descriptors := w.descriptors.filter fun d => (d.1 : Int) ≠ sock }

/-- The status flags of the descriptor become `flags`. -/
def setFlags (w : World) (sock : Int) (flags : UInt32) : World :=
  { w with descriptors :=
      w.descriptors.map fun d => if (d.1 : Int) = sock then (d.1, flags) else d }

/-- The status flags of the descriptor. -/
def getFlags (w : World) (sock : Int) : Option UInt32 :=
  (w.descriptors.find? fun d => (d.1 : Int) = sock).map Prod.snd

/-- The call has been answered. -/
def answered (w : World) (call : SysCall) (error : Option Errno) : World :=
  { w with
    calls := (call, error) :: w.calls
    errno := error.elim w.errno Subtype.val }

end World

/-- A system call. -/
def sysCall (call : SysCall) : Prog Answer := do
  let w ← get
  let a := w.answer call w.calls.length
  set (w.answered call a.error)
  return a

/-- `::socket` and `::accept`. -/
def sysOpen (call : SysCall) : Prog Int := do
  let a ← sysCall call
  if a.error.isSome then return invalidSocket
  let w ← get
  set (w.opened (w.fresh a.descriptor) a.flags)
  return w.fresh a.descriptor

/-- A call that returns nothing but its status. -/
def sysStatus (call : SysCall) : Prog Int := do
  let a ← sysCall call
  return if a.error.isSome then -1 else 0

/-- `::fcntl(sock, F_GETFL, 0)`, with `none` for -1. -/
def sysGetfl (sock : Int) : Prog (Option UInt32) := do
  let a ← sysCall (.getfl sock)
  let w ← get
  return if a.error.isSome then none else some ((w.getFlags sock).getD a.flags)

/-- `::fcntl(sock, F_SETFL, flags)` -/
def sysSetfl (sock : Int) (flags : UInt32) : Prog Int := do
  let a ← sysCall (.setfl sock flags)
  if a.error.isSome then return -1
  modify (·.setFlags sock flags)
  return 0

/-- `::getsockopt`, with the value that it stores. -/
def sysGetsockopt (sock : Int) (option : SocketOption) (value : Int) : Prog (Int × Int) := do
  let a ← sysCall (.getsockopt sock option)
  return if a.error.isSome then (-1, value) else (0, a.value)

/-- `::close` -/
def sysClose (sock : Int) : Prog Int := do
  modify (·.closing sock)
  let a ← sysCall (.close sock)
  if a.error.isNone || a.released then modify (·.release sock)
  return if a.error.isSome then -1 else 0

/-! ## `errno` -/

/-- `clear_last_error()` -/
def clearLastError : Prog Unit :=
  modify fun w => { w with errno := 0 }

/-- `error_wrapper(val, err)` -/
def errorWrapper {α : Type} (val : α) : Prog (α × ErrorCode) := do
  return (val, ⟨(← get).errno, .system⟩)

/-- `clear_last_error(); return error_wrapper(call, ec);` -/
def wrapped {α : Type} (call : Prog α) : Prog (α × ErrorCode) := do
  clearLastError
  errorWrapper (← call)

/-! ## What the calls leave -/

namespace World

/-- The answer to the next call. -/
def reply (w : World) (call : SysCall) : Answer :=
  w.answer call w.calls.length

/-- The error that the next call reports. -/
def next (w : World) (call : SysCall) : Option Errno :=
  (w.reply call).error

/-- The descriptor that the next call hands out. -/
def offered (w : World) (call : SysCall) : Nat :=
  w.fresh (w.reply call).descriptor

/-- The world after `clear_last_error()` and a call. -/
def called (w : World) (call : SysCall) : World :=
  { w with errno := 0 }.answered call (w.next call)

/-- The world after `clear_last_error()` and a `close` that succeeds. -/
def closed (w : World) (sock : Int) : World :=
  ((w.closing sock).called (.close sock)).release sock

/-- The world behind calls that are made one after the other. -/
def after (w : World) (calls : List SysCall) : World :=
  calls.foldl called w

/-- The calls, made one after the other, succeed. -/
def Succeed (w : World) : List SysCall → Prop
  | [] => True
  | call :: calls => w.next call = none ∧ (w.called call).Succeed calls

@[simp] theorem called_answer (w : World) (call : SysCall) :
    (w.called call).answer = w.answer := rfl

@[simp] theorem called_calls (w : World) (call : SysCall) :
    (w.called call).calls = (call, w.next call) :: w.calls := rfl

@[simp] theorem called_descriptors (w : World) (call : SysCall) :
    (w.called call).descriptors = w.descriptors := rfl

theorem called_errno {w : World} {call : SysCall} (h : w.next call = none) :
    (w.called call).errno = 0 := by
  rw [called, h]
  rfl

theorem isOpen_eq_false {w : World} {fd : Nat} :
    w.isOpen fd = false ↔ ∀ d ∈ w.descriptors, d.1 ≠ fd := by
  rw [isOpen, List.any_eq_false]
  exact forall₂_congr fun _ _ => not_congr (decide_eq_true_iff.trans Int.natCast_inj)

/-- Closing what is open leaves no trace. -/
theorem closing_of_isOpen {w : World} {sock : Int} (h : sock < 0 ∨ w.isOpen sock) :
    w.closing sock = w := by
  rw [closing, if_pos h]

@[simp] theorem closing_answer (w : World) (sock : Int) :
    (w.closing sock).answer = w.answer := by
  unfold closing
  split <;> rfl

@[simp] theorem closing_calls (w : World) (sock : Int) :
    (w.closing sock).calls = w.calls := by
  unfold closing
  split <;> rfl

@[simp] theorem closing_descriptors (w : World) (sock : Int) :
    (w.closing sock).descriptors = w.descriptors := by
  unfold closing
  split <;> rfl

@[simp] theorem closing_next (w : World) (sock : Int) (call : SysCall) :
    (w.closing sock).next call = w.next call := by
  simp [next, reply]

/-- A descriptor that is handed out was not open. -/
theorem isOpen_fresh (w : World) (fd : Nat) : w.isOpen (w.fresh fd) = false := by
  unfold fresh
  split
  · rw [isOpen_eq_false]
    intro d hd
    have hle := List.le_max?_getD_of_mem (k := 0) (List.mem_map_of_mem (f := Prod.fst) hd)
    omega
  · rename_i hopen
    exact eq_false_of_ne_true hopen

end World

section Calls

variable {Q : Int × ErrorCode → World → Prop} {E : Abort → World → Prop} {w : World}

/-- A wrapped call that returns its status. -/
theorem ends_status {call : SysCall}
    (hok : w.next call = none → Q (0, .clear) (w.called call))
    (herror : ∀ e : Errno, w.next call = some e → Q (-1, ⟨e, .system⟩) (w.called call)) :
    Ends Q E (wrapped (sysStatus call) w) := by
  simp only [wrapped, sysStatus, sysCall, clearLastError, errorWrapper, Ends.bind_iff,
    Ends.modify_iff, Ends.get_iff, Ends.set_iff, Ends.pure_iff]
  show Q (if (w.next call).isSome then -1 else 0,
    ⟨(w.next call).elim 0 Subtype.val, .system⟩) (w.called call)
  cases he : w.next call with
  | none => exact hok he
  | some e => exact herror e he

/-- A wrapped call that makes a descriptor. -/
theorem ends_open {call : SysCall}
    (hok : w.next call = none →
      Q (w.offered call, .clear) ((w.called call).opened (w.offered call) (w.reply call).flags))
    (herror : ∀ e : Errno, w.next call = some e →
      Q (invalidSocket, ⟨e, .system⟩) (w.called call)) :
    Ends Q E (wrapped (sysOpen call) w) := by
  have hcode : (w.called call).errno = (w.next call).elim 0 Subtype.val := rfl
  simp only [wrapped, sysOpen, sysCall, clearLastError, errorWrapper, Ends.bind_iff,
    Ends.modify_iff, Ends.get_iff, Ends.set_iff, Ends.pure_iff, Ends.ite_iff]
  constructor
  · intro hsome
    obtain ⟨e, he⟩ := Option.isSome_iff_exists.mp hsome
    have he : w.next call = some e := he
    have hq := herror e he
    rw [he] at hcode
    show Q (invalidSocket, ⟨(w.called call).errno, .system⟩) (w.called call)
    rw [hcode]
    exact hq
  · intro hnone
    have he : w.next call = none := Option.not_isSome_iff_eq_none.mp hnone
    rw [he] at hcode
    show Q (_, ⟨(w.called call).errno, .system⟩) ((w.called call).opened _ _)
    rw [hcode]
    exact hok he

/-- `::close` when it succeeds, and when it reports an error. -/
theorem ends_sysClose {Q : Int → World → Prop} {sock : Int}
    (hok : w.next (.close sock) = none →
      Q 0 (((w.closing sock).answered (.close sock) none).release sock))
    (herror : ∀ e : Errno, w.next (.close sock) = some e →
      Q (-1) (if (w.reply (.close sock)).released then
        ((w.closing sock).answered (.close sock) (some e)).release sock
      else (w.closing sock).answered (.close sock) (some e))) :
    Ends Q E (sysClose sock w) := by
  simp only [sysClose, sysCall, Ends.bind_iff, Ends.get_iff, Ends.set_iff, Ends.pure_iff,
    Ends.ite_iff, Ends.modify_iff, World.closing_answer, World.closing_calls]
  show (((w.next (.close sock)).isNone || (w.reply (.close sock)).released) =
    true → Q (if (w.next (.close sock)).isSome then -1 else 0)
      (((w.closing sock).answered (.close sock) (w.next (.close sock))).release sock)) ∧
    (¬((w.next (.close sock)).isNone || (w.reply (.close sock)).released) =
      true → Q (if (w.next (.close sock)).isSome then -1 else 0)
        ((w.closing sock).answered (.close sock) (w.next (.close sock))))
  cases he : w.next (.close sock) with
  | none => exact ⟨fun _ => hok he, fun hnot => absurd rfl hnot⟩
  | some e =>
      have hq := herror e he
      cases hreleased : (w.reply (.close sock)).released with
      | true =>
          rw [hreleased] at hq
          exact ⟨fun _ => hq, fun hnot => absurd rfl hnot⟩
      | false =>
          rw [hreleased] at hq
          exact ⟨fun hyes => (by cases hyes), fun _ => hq⟩

/-- A wrapped `::close`. -/
theorem ends_wrapped_close {sock : Int}
    (hok : w.next (.close sock) = none → Q (0, .clear) (w.closed sock))
    (herror : ∀ e : Errno, w.next (.close sock) = some e →
      Q (-1, ⟨e, .system⟩) (if (w.reply (.close sock)).released then
        w.closed sock
      else (w.closing sock).called (.close sock))) :
    Ends Q E (wrapped (sysClose sock) w) := by
  have hclosing : ({ w with errno := 0 } : World).closing sock =
      { w.closing sock with errno := 0 } := by
    by_cases h : sock < 0 ∨ w.isOpen sock
    · rw [World.closing_of_isOpen h]
      exact World.closing_of_isOpen h
    · rw [World.closing, World.closing, if_neg h]
      exact if_neg h
  have hcalled : ∀ error, w.next (.close sock) = error →
      ({ w.closing sock with errno := 0 } : World).answered (.close sock) error =
        (w.closing sock).called (.close sock) := by
    intro error he
    rw [World.called, World.closing_next, he]
  simp only [wrapped, clearLastError, errorWrapper, Ends.bind_iff, Ends.modify_iff,
    Ends.get_iff, Ends.pure_iff]
  refine ends_sysClose (fun hnone => ?_) fun e he => ?_
  · have hnone : w.next (.close sock) = none := hnone
    rw [hclosing, hcalled none hnone]
    have hcode : (w.closed sock).errno = 0 :=
      World.called_errno ((w.closing_next sock _).trans hnone)
    show Q (0, ⟨(w.closed sock).errno, .system⟩) (w.closed sock)
    rw [hcode]
    exact hok hnone
  · have he : w.next (.close sock) = some e := he
    have hq := herror e he
    rw [hclosing, hcalled (some e) he]
    have hcode : ((w.closing sock).called (.close sock)).errno = e := by
      show ((w.closing sock).next (.close sock)).elim 0 Subtype.val = (e : Nat)
      rw [World.closing_next, he]
      rfl
    show Q (-1, ⟨(if (w.reply (.close sock)).released then w.closed sock
        else (w.closing sock).called (.close sock)).errno, .system⟩)
      (if (w.reply (.close sock)).released then w.closed sock
        else (w.closing sock).called (.close sock))
    cases hreleased : (w.reply (.close sock)).released with
    | true =>
        rw [hreleased] at hq
        exact hcode ▸ hq
    | false =>
        rw [hreleased] at hq
        exact hcode ▸ hq

/-- `F_SETFL` behind a call that has succeeded. -/
theorem ends_setfl {Q : Int × ErrorCode → World → Prop} {sock : Int} {flags : UInt32}
    (herrno : w.errno = 0)
    (hok : w.next (.setfl sock flags) = none →
      Q (0, .clear) ((w.answered (.setfl sock flags) none).setFlags sock flags))
    (herror : ∀ e : Errno, w.next (.setfl sock flags) = some e →
      Q (-1, ⟨e, .system⟩) (w.answered (.setfl sock flags) (some e))) :
    Ends Q E ((do errorWrapper (← sysSetfl sock flags)) w) := by
  simp only [sysSetfl, sysCall, errorWrapper, Ends.bind_iff, Ends.get_iff, Ends.set_iff,
    Ends.pure_iff, Ends.ite_iff, Ends.modify_iff]
  constructor
  · intro hsome
    obtain ⟨e, he⟩ := Option.isSome_iff_exists.mp hsome
    have he : w.next (.setfl sock flags) = some e := he
    have hq := herror e he
    show Q (-1, ⟨(w.answered (.setfl sock flags) (w.next (.setfl sock flags))).errno, .system⟩)
      (w.answered (.setfl sock flags) (w.next (.setfl sock flags)))
    rw [he]
    exact hq
  · intro hnone
    have he : w.next (.setfl sock flags) = none := Option.not_isSome_iff_eq_none.mp hnone
    have hq := hok he
    show Q (0, ⟨(w.answered (.setfl sock flags) (w.next (.setfl sock flags))).errno, .system⟩)
      ((w.answered (.setfl sock flags) (w.next (.setfl sock flags))).setFlags sock flags)
    rw [he]
    have hcode : (w.answered (.setfl sock flags) none).errno = 0 := herrno
    rw [hcode]
    exact hq

/-- A wrapped `F_GETFL`. -/
theorem ends_getfl {Q : Option UInt32 × ErrorCode → World → Prop} {sock : Int}
    (hok : w.next (.getfl sock) = none →
      Q (some ((w.getFlags sock).getD (w.reply (.getfl sock)).flags), .clear)
        (w.called (.getfl sock)))
    (herror : ∀ e : Errno, w.next (.getfl sock) = some e →
      Q (none, ⟨e, .system⟩) (w.called (.getfl sock))) :
    Ends Q E (wrapped (sysGetfl sock) w) := by
  simp only [wrapped, sysGetfl, sysCall, clearLastError, errorWrapper, Ends.bind_iff,
    Ends.modify_iff, Ends.get_iff, Ends.set_iff, Ends.pure_iff]
  show Q (if (w.next (.getfl sock)).isSome then none else
      some ((w.getFlags sock).getD (w.reply (.getfl sock)).flags),
    ⟨(w.next (.getfl sock)).elim 0 Subtype.val, .system⟩) (w.called (.getfl sock))
  cases he : w.next (.getfl sock) with
  | none => exact hok he
  | some e => exact herror e he

/-- A wrapped `::getsockopt`. -/
theorem ends_getsockopt {Q : (Int × Int) × ErrorCode → World → Prop} {sock : Int}
    {option : SocketOption} {value : Int}
    (hok : w.next (.getsockopt sock option) = none →
      Q ((0, (w.reply (.getsockopt sock option)).value), .clear)
        (w.called (.getsockopt sock option)))
    (herror : ∀ e : Errno, w.next (.getsockopt sock option) = some e →
      Q ((-1, value), ⟨e, .system⟩) (w.called (.getsockopt sock option))) :
    Ends Q E (wrapped (sysGetsockopt sock option value) w) := by
  simp only [wrapped, sysGetsockopt, sysCall, clearLastError, errorWrapper, Ends.bind_iff,
    Ends.modify_iff, Ends.get_iff, Ends.set_iff, Ends.pure_iff]
  show Q (if (w.next (.getsockopt sock option)).isSome then (-1, value) else
      (0, (w.reply (.getsockopt sock option)).value),
    ⟨(w.next (.getsockopt sock option)).elim 0 Subtype.val, .system⟩)
    (w.called (.getsockopt sock option))
  cases he : w.next (.getsockopt sock option) with
  | none => exact hok he
  | some e => exact herror e he

end Calls

end Net
end Cyan

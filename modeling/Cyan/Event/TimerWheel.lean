import Mathlib.Data.Rat.Defs
import Cyan.Base.Machine
import Cyan.Base.Multimap

/-!
# The timer wheel

This module embeds `event::timer_wheel`.  A request is an object that the map
`requests` and the multimap `time_hiearchy` share; `reset` changes its expiry and
leaves the key under which the multimap keeps it.

* The wheel belongs to one thread.  Its user calls `post`, `cancel`, `reset`,
  `start` and `stop` between two runs of `bookkeeper` or from inside a callback,
  which runs while `bookkeeper` is at `entry.second->process()`.
* Time is counted in nanoseconds and does not run backwards.  A timeout is any
  duration that `time_point` admits, so a whole number of nanoseconds.
* `ev_timer_again` activates a timer that is not active exactly when its `repeat` is not
  zero, and `timer.start()` does nothing else.  The resolution of a wheel is a duration of
  any kind, so a rational number of milliseconds.
* Objects are numbered in the order in which `post` makes them; the number stands
  for the `shared_ptr`, and for the callback.

The fields `posts` and `trace` number the requests and record what happened, newest
first; no other field depends on the trace.
-/

namespace Cyan
namespace Event

open Base

/-- `struct request` -/
structure Request where
  id : UInt64
  isCancelled : Bool
  /-- `std::chrono::milliseconds timeout` -/
  timeout : Int
  expiry : Int
  deriving DecidableEq, Repr

namespace TimerWheel

/-- What the trace records. -/
inductive Mark
  /-- `post` returns the id -/
  | post (r : Nat) (id : UInt64)
  /-- `cancel` returns normally -/
  | cancelled (id : UInt64)
  /-- `reset` returns normally -/
  | reset (id : UInt64)
  /-- `cancel` or `reset` throws `std::out_of_range` -/
  | threw (what : String)
  /-- a callback begins -/
  | started (r : Nat) (id : UInt64)
  /-- `bookkeeper` takes the request out of `requests` -/
  | retired (r : Nat) (id : UInt64)
  deriving DecidableEq, Repr

/-- Where `bookkeeper` stands, with its `now` and its iterator `i`. -/
inductive Pc
  | idle
  /-- the test of the loop, and the tests in its body -/
  | loop (now : Int) (i : Option Nat)
  /-- `entry.second->process()` -/
  | process (now : Int) (i : Nat)
  /-- `requests.erase(entry.second->id)` -/
  | eraseRequest (now : Int) (i : Nat)
  /-- `i = time_hiearchy.erase(i)` -/
  | eraseEntry (now : Int) (i : Nat)
  /-- `if (time_hiearchy.empty()) stop()` -/
  | finish
  deriving DecidableEq, Repr

/-- The request that is out of `requests` but still in `time_hiearchy`. -/
def Pc.retiring : Pc → Option Nat
  | .eraseEntry _ i => some i
  | _ => none

end TimerWheel

open TimerWheel

/-- `basic_timer_wheel_impl`, its clock, and where `bookkeeper` stands. -/
structure TimerWheel where
  /-- `request_id_` -/
  requestId : UInt64
  requests : List (UInt64 × Nat)
  timeHiearchy : List (Int × Nat)
  /-- the objects behind the `shared_ptr`s -/
  request : Nat → Request
  /-- how many objects `post` has made -/
  posts : Nat
  /-- `timer.is_active()` -/
  timerActive : Bool
  /-- `repeat` of the timer, in milliseconds -/
  timerRepeat : Int
  clock : Int
  pc : Pc
  trace : List Mark

namespace TimerWheel

/-- `std::chrono::duration_cast<std::chrono::milliseconds>`, which rounds towards
zero. -/
def toMilliseconds (timeout : Int) : Int :=
  timeout.tdiv 1000000

/-- The duration of a whole number of milliseconds. -/
def ofMilliseconds (timeout : Int) : Int :=
  timeout * 1000000

/-- `get_absolute_expiry` -/
def getAbsoluteExpiry (w : TimerWheel) (timeout : Int) : Int :=
  w.clock + timeout

/-- `timer.set_timeout(t)`, where `duration_cast` rounds towards zero. -/
def setTimeout (w : TimerWheel) (t : ℚ) : TimerWheel :=
  { w with timerRepeat := t.num.tdiv t.den }

/-- `timer.start()`, which calls `ev_timer_again`. -/
def timerStart (w : TimerWheel) : TimerWheel :=
  if w.timerRepeat ≠ 0 then { w with timerActive := true } else w

/-- `start()` -/
def start (w : TimerWheel) : TimerWheel :=
  if !w.requests.isEmpty && !w.timerActive then w.timerStart else w

/-- `stop()` -/
def stop (w : TimerWheel) : TimerWheel :=
  { w with timerActive := false }

/-- `requests.find(request_id)` -/
def find (w : TimerWheel) (id : UInt64) : Option Nat :=
  (w.requests.find? (·.1 = id)).map Prod.snd

/-- `requests.emplace(...)`, which does nothing when the id is taken. -/
def emplaceRequest (requests : List (UInt64 × Nat)) (id : UInt64) (r : Nat) :
    List (UInt64 × Nat) :=
  if requests.any (·.1 = id) then requests else (id, r) :: requests

/-- `post(cb, timeout)` -/
def post (w : TimerWheel) (timeout : Int) : TimerWheel :=
  let req : Request := {
    id := w.requestId
    isCancelled := false
    timeout := toMilliseconds timeout
    expiry := w.getAbsoluteExpiry timeout }
  start { w with
    -- `get_next_request_id()`
    requestId := w.requestId + 1
    request := Function.update w.request w.posts req
    requests := emplaceRequest w.requests req.id w.posts
    timeHiearchy := Multimap.emplace req.expiry w.posts w.timeHiearchy
    posts := w.posts + 1
    trace := .post w.posts req.id :: w.trace }

/-- Write to the object behind a `shared_ptr`. -/
def modify (w : TimerWheel) (r : Nat) (req : Request) : TimerWheel :=
  { w with request := Function.update w.request r req }

/-- `cancel(request_id)`, with the text of the exception it throws. -/
def cancel (w : TimerWheel) (id : UInt64) : TimerWheel × Option String :=
  match w.find id with
  | some r => (w.modify r { w.request r with isCancelled := true }, none)
  | none => (w, some "timer_wheel::cancel: request id not found")

/-- `reset(request_id)`, with the text of the exception it throws. -/
def reset (w : TimerWheel) (id : UInt64) : TimerWheel × Option String :=
  match w.find id with
  | some r =>
      let expiry := w.getAbsoluteExpiry (ofMilliseconds (w.request r).timeout)
      (w.modify r { w.request r with expiry := expiry }, none)
  | none => (w, some "timer_wheel::reset: request id not found")

/-- The timer calls `bookkeeper()`. -/
def beginBookkeeper (w : TimerWheel) : TimerWheel :=
  { w with pc := .loop w.clock (Multimap.first w.timeHiearchy) }

/-- One step of `bookkeeper()`. -/
def stepBookkeeper (w : TimerWheel) : Option TimerWheel :=
  match w.pc with
  | .idle => none
  | .loop _ none => some { w with pc := .finish }
  | .loop now (some i) =>
      (Multimap.find i w.timeHiearchy).map fun entry =>
        if (w.request i).expiry ≠ entry.1 then
          -- `i` goes with the request to its new place
          let erased := Multimap.erase i w.timeHiearchy
          { w with timeHiearchy := Multimap.emplace (w.request i).expiry i erased }
        else if entry.1 - now ≤ 0 then
          if !(w.request i).isCancelled then
            { w with
              pc := .process now i
              trace := .started i (w.request i).id :: w.trace }
          else { w with pc := .eraseRequest now i }
        else { w with pc := .finish }
  | .process now i => some { w with pc := .eraseRequest now i }
  | .eraseRequest now i =>
      some { w with
        requests := w.requests.eraseP (·.1 = (w.request i).id)
        pc := .eraseEntry now i
        trace := .retired i (w.request i).id :: w.trace }
  | .eraseEntry now i =>
      some { w with
        timeHiearchy := Multimap.erase i w.timeHiearchy
        pc := .loop now (Multimap.next i w.timeHiearchy) }
  | .finish =>
      some { (if w.timeHiearchy.isEmpty then w.stop else w) with pc := .idle }

/-- The user may call: `bookkeeper` does not run, or it runs a callback. -/
def callable (w : TimerWheel) : Bool :=
  match w.pc with
  | .idle => true
  | .process _ _ => true
  | _ => false

/-- What may happen next. -/
inductive Action
  | post (timeout : Int)
  | cancel (id : UInt64)
  | reset (id : UInt64)
  | start
  | stop
  /-- time passes -/
  | wait (d : Nat)
  /-- the timer fires -/
  | tick
  /-- the next step of `bookkeeper`, also the return of a callback -/
  | run
  deriving DecidableEq, Repr

/-- A call that may throw, with the mark of its normal return. -/
def record (result : TimerWheel × Option String) (returned : Mark) : TimerWheel :=
  { result.1 with trace := (result.2.elim returned .threw) :: result.1.trace }

/-- One step of the wheel and its user. -/
def step (w : TimerWheel) : Action → Option TimerWheel
  | .post timeout => if w.callable then some (w.post timeout) else none
  | .cancel id => if w.callable then some (record (w.cancel id) (.cancelled id)) else none
  | .reset id => if w.callable then some (record (w.reset id) (.reset id)) else none
  | .start => if w.callable then some w.start else none
  | .stop => if w.callable then some w.stop else none
  | .wait d => some { w with clock := w.clock + d }
  | .tick =>
      match w.pc with
      | .idle => if w.timerActive then some w.beginBookkeeper else none
      | _ => none
  | .run => w.stepBookkeeper

/-- `default_resolution`, in milliseconds -/
def defaultResolution : ℚ := 100

/-- A new wheel, also one of the default resolution. -/
def create (clock : Int) (res : ℚ := defaultResolution) : TimerWheel :=
  setTimeout {
    requestId := 0
    requests := []
    timeHiearchy := []
    request := fun _ => ⟨0, false, 0, 0⟩
    posts := 0
    timerActive := false
    timerRepeat := 0
    clock := clock
    pc := .idle
    trace := [] } res

/-- The wheel as a machine. -/
def machine : Machine TimerWheel Action where
  start w := ∃ clock res, w = create clock res
  step := step

end TimerWheel
end Event
end Cyan

import Mathlib.Data.Option.Basic

/-!
# The asynchronous event

This module embeds `event::async`: the `ev_async` watcher with its `sent` flag,
and the counter that `basic_async` keeps beside it.  What libev guarantees is
part of the definitions: `start` clears an earlier send, only a started watcher
with a set flag is delivered, and the flag is cleared in front of the callback
(`deliver`).
-/

namespace Cyan
namespace Event

/-- `basic_async` together with its watcher. -/
structure Async where
  /-- `ev_async_start` has run -/
  active : Bool
  /-- `ev_async::sent` -/
  sent : Bool
  /-- a callback is stored in the watcher's `data` -/
  callback : Bool
  /-- `count_` -/
  count : UInt32
  deriving DecidableEq, Repr

namespace Async

/-- `basic_async::basic_async`. -/
def create : Async where
  active := false
  sent := false
  callback := false
  count := 0

/-- `ev_async_start`. -/
def start (a : Async) : Async :=
  if a.active then a else { a with active := true, sent := false }

/-- `set_callback` with a callback. -/
def setCallback (a : Async) : Async :=
  { a with callback := true }

/-- `is_pending`, the flag itself. -/
def isPending (a : Async) : Bool :=
  a.sent

/-- A delivery is due. -/
def due (a : Async) : Bool :=
  a.active && a.sent

/-- The loop clears the flag and calls back. -/
def deliver (a : Async) : Async :=
  { a with sent := false }

/-- The steps of `send()`. -/
inductive Send
  /-- `count_.fetch_add(1)` -/
  | addCount
  /-- `if (is_pending()) return` -/
  | isPending
  /-- `if (auto loop = loop_ref_.lock())`, then `ev_async_send` -/
  | send
  deriving DecidableEq, Repr

/-- One step of `send()`, with the step that comes next, while the loop is
`alive` or not. -/
def stepSend (a : Async) (alive : Bool) : Send → Async × Option Send
  | .addCount => ({ a with count := a.count + 1 }, some .isPending)
  | .isPending => (a, if a.isPending then none else some .send)
  | .send => (if alive then { a with sent := true } else a, none)

/-- `count_.fetch_sub(1) > 1` of the callback, with the result of the
comparison. -/
def subCount (a : Async) : Async × Bool :=
  ({ a with count := a.count - 1 }, 1 < a.count)

/-- A step of `send` takes nothing back. -/
theorem stepSend_keeps (a : Async) (alive : Bool) (p : Send) :
    (a.stepSend alive p).1.active = a.active ∧
      (a.stepSend alive p).1.callback = a.callback ∧
      (a.sent = true → (a.stepSend alive p).1.sent = true) := by
  cases p with
  | addCount => exact ⟨rfl, rfl, id⟩
  | isPending => exact ⟨rfl, rfl, id⟩
  | send => cases alive <;> exact ⟨rfl, rfl, by simp [stepSend]⟩

/-- While the loop lives, `send` ends with the flag set. -/
theorem stepSend_done {a : Async} {p : Send} (h : (a.stepSend true p).2 = none) :
    (a.stepSend true p).1.sent = true := by
  cases p with
  | addCount => cases h
  | isPending =>
      by_contra hsent
      have hnext : (a.stepSend true .isPending).2 = some .send := if_neg hsent
      rw [hnext] at h
      cases h
  | send => rfl

end Async
end Event
end Cyan

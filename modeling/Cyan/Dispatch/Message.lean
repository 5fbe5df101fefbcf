import Mathlib.Logic.Function.Basic
import Mathlib.Data.Option.Basic

/-!
# Serial tokens and messages

This module embeds `serial_token` and `detail::message`.  The copies of a token
share their two counters, so the counters live in a store that is indexed by
the token, and a message refers to its token by name.

The field `op` of a message identifies the call that made it and never
influences a step.
-/

namespace Cyan
namespace Dispatch

variable {Token : Type*}

/-- `serial_token::serial_token_impl`. -/
structure SerialToken where
  currentSequence : UInt64
  executingSequence : UInt64
  deriving DecidableEq, Repr

namespace SerialToken

/-- `serial_token::try_acquire`. -/
def tryAcquire (token : SerialToken) (seq : UInt64) : Bool :=
  token.executingSequence = seq

/-- `serial_token::release`. -/
def release (token : SerialToken) : SerialToken :=
  { token with executingSequence := token.executingSequence + 1 }

/-- `serial_token::get_next_sequence`: the counters afterwards and the number
that was drawn. -/
def getNextSequence (token : SerialToken) : SerialToken × UInt64 :=
  ({ token with currentSequence := token.currentSequence + 1 },
    token.currentSequence)

end SerialToken

/-- `message::type_t`. -/
inductive MessageType
  | callable
  | payload
  | stop
  deriving DecidableEq, Repr

/-- `detail::message`; the timeout counts milliseconds. -/
structure Message (Token : Type*) where
  type : MessageType
  timeout : Int
  serialToken : Option Token
  sequence : UInt64
  op : Nat
  deriving DecidableEq, Repr

/-- `make_payload_message`. -/
def makePayloadMessage (timeout : Int) (op : Nat) : Message Token where
  type := .payload
  timeout := timeout
  serialToken := none
  sequence := 0
  op := op

/-- `make_callable_message`. -/
def makeCallableMessage (timeout : Int) (op : Nat) : Message Token where
  type := .callable
  timeout := timeout
  serialToken := none
  sequence := 0
  op := op

/-- `make_stop_message`. -/
def makeStopMessage (op : Nat) : Message Token where
  type := .stop
  timeout := 0
  serialToken := none
  sequence := 0
  op := op

namespace Message

variable [DecidableEq Token] (tokens : Token → SerialToken)

/-- `message::set_serial_token`: the counters afterwards and the message. -/
def setSerialToken (msg : Message Token) (token : Token) :
    (Token → SerialToken) × Message Token :=
  let drawn := (tokens token).getNextSequence
  (Function.update tokens token drawn.1,
    { msg with serialToken := some token, sequence := drawn.2 })

/-- `message::try_acquire`. -/
def tryAcquire (msg : Message Token) : Bool :=
  match msg.serialToken with
  | some token => (tokens token).tryAcquire msg.sequence
  | none => true

/-- `message::release`. -/
def release (msg : Message Token) : Token → SerialToken :=
  match msg.serialToken with
  | some token => Function.update tokens token (tokens token).release
  | none => tokens

end Message
end Dispatch
end Cyan

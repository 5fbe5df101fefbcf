import Mathlib.Data.List.Induction
import Cyan.Net.EventCallback

/-!
# Which events a stream socket asks for

This module embeds `set_readable_callback` and `set_writable_callback` of
`basic_stream_socket`, and the way from an event of the kernel to its `event_callback`.

* The watcher has a mask of events, next to a bit of its own that libev uses, and a callback
  for itself.  All constructors but the one from a loop alone make `event_callback` that callback.
* libev delivers to a watcher those of the events that are in its mask, if there are any.
* The callbacks of the user are names here, and what they do is arbitrary (`act`), except that they
  do not set the callbacks of this socket.

Both setters work on the bit of the read events.  So the mask has that bit after a call of either
of them with a callback, and loses it in a call without one, while the bit of the write events
never comes.
-/

namespace Cyan
namespace Net

open Base

/-- `EV__IOFDSET` -/
def ioFdSet : UInt32 := 0x80

/-- What a `basic_stream_socket` shows to the event loop. -/
structure StreamSocket (F : Type) where
  /-- `native_handle->events` -/
  events : UInt32
  /-- `native_handle->data` is the lambda that calls `event_callback` -/
  installed : Bool
  readableCallback : Option F
  writableCallback : Option F

namespace StreamSocket

variable {F : Type}

/-- `basic_stream_socket(loop_ref)`, on a watcher from `ev_io_init` -/
def fromLoop : StreamSocket F where
  events := ioFdSet
  installed := false
  readableCallback := none
  writableCallback := none

/-- The other constructors call `base_io::set_callback`. -/
def created : StreamSocket F :=
  { fromLoop with installed := true }

/-- `base_io::set_event_flags`, which is `ev_io_modify` -/
def setEventFlags (s : StreamSocket F) (ev : UInt32) : StreamSocket F :=
  { s with events := s.events &&& ioFdSet ||| ev }

/-- `base_io::get_event_flags` -/
def getEventFlags (s : StreamSocket F) : UInt32 :=
  s.events

/-- `set_readable_callback` -/
def setReadableCallback (s : StreamSocket F) : Option F → StreamSocket F
  | some callback =>
      { s.setEventFlags (s.getEventFlags ||| eventRead) with readableCallback := some callback }
  | none => s.setEventFlags (s.getEventFlags &&& ~~~eventRead)

/-- `set_writable_callback` -/
def setWritableCallback (s : StreamSocket F) : Option F → StreamSocket F
  | some callback =>
      { s.setEventFlags (s.getEventFlags ||| eventRead) with writableCallback := some callback }
  | none => s.setEventFlags (s.getEventFlags &&& ~~~eventRead)

section Events

variable (act : F → Process → Process) (this : Nat) (s : StreamSocket F) (revents : UInt32)

/-- `io_callback` -/
def ioCallback : Act Unit := do
  if s.installed then
    BasicSocket.eventCallback this (s.readableCallback.map act) (s.writableCallback.map act)
      revents

/-- `fd_event` for the watcher, and the invocation that it leads to. -/
def fdEvent : Act Unit := do
  if s.events &&& revents ≠ 0 then ioCallback act this s (s.events &&& revents)

end Events

/-! ## Sequences of calls -/

/-- A call of a setter. -/
inductive Call (F : Type)
  | readable (callback : Option F)
  | writable (callback : Option F)
  deriving DecidableEq, Repr

/-- The call with its callback. -/
def Call.run (s : StreamSocket F) : Call F → StreamSocket F
  | .readable callback => s.setReadableCallback callback
  | .writable callback => s.setWritableCallback callback

/-- The socket behind the calls. -/
def after (s : StreamSocket F) (calls : List (Call F)) : StreamSocket F :=
  calls.foldl Call.run s

/-- The callback of the last `set_readable_callback`, if it had one. -/
def lastReadable (calls : List (Call F)) : Option F :=
  calls.foldl (fun last call => match call with
    | .readable callback => callback
    | .writable _ => last) none

/-- The callback of the last `set_writable_callback`, if it had one. -/
def lastWritable (calls : List (Call F)) : Option F :=
  calls.foldl (fun last call => match call with
    | .readable _ => last
    | .writable callback => callback) none

def Call.isReadable : Call F → Bool
  | .readable _ => true
  | .writable _ => false

@[simp] theorem Call.isReadable_readable (callback : Option F) :
    (Call.readable callback).isReadable = true := rfl

@[simp] theorem Call.isReadable_writable (callback : Option F) :
    (Call.writable callback).isReadable = false := rfl

/-- The last call is one of `set_readable_callback`. -/
def EndsReadable (calls : List (Call F)) : Prop :=
  ∃ call ∈ calls.getLast?, call.isReadable = true

/-! ## What the mask is for -/

/-- The socket has no error for `event_callback` to find. -/
def Calm (p : Process) (this : Nat) : Prop :=
  let sock := (p.sockets this).elim invalidSocket Socket.nativeHandle
  p.world.next (.getsockopt sock .error) = none ∧
    (p.world.reply (.getsockopt sock .error)).value = 0

/-- What an event leads to when `callback` is set for `flag`. -/
def dispatch (act : F → Process → Process) (callback : Option F) (flag revents : UInt32)
    (p : Process) : Process :=
  if revents &&& flag ≠ 0 then (callback.map act).getD id p else p

/-- An event without an error runs what is set for it and nothing else, whether `event_callback`
has looked for errors or has not been called at all. -/
def Serves (s : StreamSocket F) (readable writable : Option F) : Prop :=
  ∀ act this p revents, revents &&& eventError = 0 → Calm p this →
    Ends
      (fun _ p' => ∃ q,
        (q = p ∨ q = p.asked ((p.sockets this).elim invalidSocket Socket.nativeHandle)) ∧
          p' = dispatch act writable eventWrite revents (dispatch act readable eventRead revents q))
      (fun _ _ => False) (fdEvent act this s revents p)

/-- The mask and the callbacks are those of the last calls of either setter, whatever the calls of
the other one have been. -/
structure Follows (s₀ : StreamSocket F) (calls : List (Call F)) : Prop where
  read : (s₀.after calls).events &&& eventRead ≠ 0 ↔ (lastReadable calls).isSome
  write : (s₀.after calls).events &&& eventWrite ≠ 0 ↔ (lastWritable calls).isSome
  serves : (s₀.after calls).Serves (lastReadable calls) (lastWritable calls)
  readApart : ((s₀.after calls).events &&& eventRead ≠ 0 ↔
      (s₀.after (calls.filter (·.isReadable))).events &&& eventRead ≠ 0) ∧
    (s₀.after calls).readableCallback = (s₀.after (calls.filter (·.isReadable))).readableCallback
  writeApart : ((s₀.after calls).events &&& eventWrite ≠ 0 ↔
      (s₀.after (calls.filter (!·.isReadable))).events &&& eventWrite ≠ 0) ∧
    (s₀.after calls).writableCallback = (s₀.after (calls.filter (!·.isReadable))).writableCallback

/-! ## What a call leaves -/

section Calls

variable (s : StreamSocket F) (call : Call F) (calls : List (Call F))

theorem and_or_right (a b c : UInt32) : (a ||| b) &&& c = a &&& c ||| b &&& c := by
  apply UInt32.toNat_inj.mp
  simp only [UInt32.toNat_and, UInt32.toNat_or]
  exact Nat.and_or_distrib_right ..

theorem or_and_self (a b : UInt32) : (a ||| b) &&& b = b := by
  apply UInt32.toNat_inj.mp
  simp only [UInt32.toNat_and, UInt32.toNat_or]
  refine Nat.eq_of_testBit_eq fun i => ?_
  rw [Nat.testBit_and, Nat.testBit_or]
  cases b.toNat.testBit i <;> simp

/-- The bit that libev keeps is none of the events. -/
theorem setEventFlags_and {flag : UInt32} (hflag : ioFdSet &&& flag = 0) (ev : UInt32) :
    (s.setEventFlags ev).events &&& flag = ev &&& flag := by
  show (s.events &&& ioFdSet ||| ev) &&& flag = ev &&& flag
  rw [and_or_right, UInt32.and_assoc, hflag, UInt32.and_zero, UInt32.zero_or]

/-- The callback that the call brings. -/
def Call.callback : Call F → Option F
  | .readable callback => callback
  | .writable callback => callback

/-- Either setter decides about the read events. -/
theorem run_read : (call.run s).events &&& eventRead ≠ 0 ↔ call.callback.isSome := by
  have hset : (s.setEventFlags (s.getEventFlags ||| eventRead)).events &&& eventRead ≠ 0 := by
    rw [setEventFlags_and s (by decide), or_and_self]
    decide
  have hclear : ¬(s.setEventFlags (s.getEventFlags &&& ~~~eventRead)).events &&& eventRead ≠ 0 := by
    rw [setEventFlags_and s (by decide), UInt32.and_assoc]
    exact not_not.mpr UInt32.and_zero
  rcases call with (_ | callback) | (_ | callback)
  · exact iff_of_false hclear Bool.false_ne_true
  · exact iff_of_true hset rfl
  · exact iff_of_false hclear Bool.false_ne_true
  · exact iff_of_true hset rfl

/-- Neither setter touches the write events. -/
theorem run_write : (call.run s).events &&& eventWrite = s.events &&& eventWrite := by
  have hset : (s.setEventFlags (s.getEventFlags ||| eventRead)).events &&& eventWrite =
      s.events &&& eventWrite := by
    rw [setEventFlags_and s (by decide), and_or_right]
    exact UInt32.or_zero
  have hclear : (s.setEventFlags (s.getEventFlags &&& ~~~eventRead)).events &&& eventWrite =
      s.events &&& eventWrite := by
    rw [setEventFlags_and s (by decide), UInt32.and_assoc]
    rfl
  rcases call with (_ | callback) | (_ | callback)
  · exact hclear
  · exact hset
  · exact hclear
  · exact hset

theorem run_installed : (call.run s).installed = s.installed := by
  rcases call with (_ | callback) | (_ | callback) <;> rfl

/-! ## What the calls leave -/

@[simp] theorem after_nil : s.after [] = s := rfl

@[simp] theorem after_concat : s.after (calls ++ [call]) = call.run (s.after calls) :=
  List.foldl_append

@[simp] theorem lastReadable_nil : lastReadable ([] : List (Call F)) = none := rfl

@[simp] theorem lastReadable_concat : lastReadable (calls ++ [call]) =
    match call with
    | .readable callback => callback
    | .writable _ => lastReadable calls :=
  List.foldl_append

@[simp] theorem lastWritable_nil : lastWritable ([] : List (Call F)) = none := rfl

@[simp] theorem lastWritable_concat : lastWritable (calls ++ [call]) =
    match call with
    | .readable _ => lastWritable calls
    | .writable callback => callback :=
  List.foldl_append

theorem endsReadable_concat : EndsReadable (calls ++ [call]) ↔ call.isReadable = true := by
  simp [EndsReadable]

theorem after_write : (s.after calls).events &&& eventWrite = s.events &&& eventWrite := by
  induction calls using List.reverseRecOn with
  | nil => rfl
  | append_singleton calls call ih => rw [after_concat, run_write, ih]

theorem after_installed : (s.after calls).installed = s.installed := by
  induction calls using List.reverseRecOn with
  | nil => rfl
  | append_singleton calls call ih => rw [after_concat, run_installed, ih]

/-- The last call of all decides about the read events. -/
theorem after_read (hempty : s.events &&& eventRead = 0) :
    (s.after calls).events &&& eventRead ≠ 0 ↔
      ∃ call ∈ calls.getLast?, call.callback.isSome := by
  rcases List.eq_nil_or_concat calls with rfl | ⟨calls, call, rfl⟩
  · simp [hempty]
  · rw [List.concat_eq_append, after_concat, run_read]
    simp

/-- A setter stores the callback that it is given, and the other one leaves it alone. -/
theorem run_readableCallback : (call.run s).readableCallback =
    match call with
    | .readable (some callback) => some callback
    | _ => s.readableCallback := by
  rcases call with (_ | callback) | (_ | callback) <;> rfl

theorem run_writableCallback : (call.run s).writableCallback =
    match call with
    | .writable (some callback) => some callback
    | _ => s.writableCallback := by
  rcases call with (_ | callback) | (_ | callback) <;> rfl

theorem after_readableCallback : (s.after calls).readableCallback =
    (s.after (calls.filter (·.isReadable))).readableCallback := by
  induction calls using List.reverseRecOn with
  | nil => rfl
  | append_singleton calls call ih =>
      rcases call with (_ | callback) | (_ | callback) <;>
        simp [List.filter_cons, run_readableCallback, ih]

theorem after_writableCallback : (s.after calls).writableCallback =
    (s.after (calls.filter (!·.isReadable))).writableCallback := by
  induction calls using List.reverseRecOn with
  | nil => rfl
  | append_singleton calls call ih =>
      rcases call with (_ | callback) | (_ | callback) <;>
        simp [run_writableCallback, ih]

theorem lastReadable_filter : lastReadable (calls.filter (·.isReadable)) = lastReadable calls := by
  induction calls using List.reverseRecOn with
  | nil => rfl
  | append_singleton calls call ih =>
      rcases call with callback | callback <;> simp [List.filter_cons, ih]

/-- On their own the calls of `set_readable_callback` do what they are for. -/
theorem after_filter_read (hempty : s.events &&& eventRead = 0) :
    (s.after (calls.filter (·.isReadable))).events &&& eventRead ≠ 0 ↔
      (lastReadable calls).isSome := by
  rw [after_read _ _ hempty, ← lastReadable_filter calls]
  have hall : ∀ call ∈ calls.filter (·.isReadable), call.isReadable = true :=
    fun call hcall => (List.mem_filter.mp hcall).2
  rcases List.eq_nil_or_concat (calls.filter (·.isReadable)) with hnil | ⟨init, call, hconcat⟩
  · simp [hnil]
  · rw [hconcat, List.concat_eq_append] at hall ⊢
    have hreadable := hall call (by simp)
    cases call with
    | readable callback => simp [Call.callback]
    | writable callback => cases hreadable

/-- The callback that was set last is the one that is stored. -/
theorem stored_of_lastReadable {callback : F} (h : lastReadable calls = some callback) :
    (s.after calls).readableCallback = some callback := by
  induction calls using List.reverseRecOn with
  | nil => cases h
  | append_singleton calls call ih =>
      rw [lastReadable_concat] at h
      rw [after_concat, run_readableCallback]
      rcases call with callback | (_ | callback)
      · subst h
        rfl
      · exact ih h
      · exact ih h

/-- Without a callback for the write events, the read events are right exactly if the last call
was not to clear the other ones. -/
theorem read_iff (hempty : s.events &&& eventRead = 0) (hnone : lastWritable calls = none) :
    ((s.after calls).events &&& eventRead ≠ 0 ↔ (lastReadable calls).isSome) ↔
      (lastReadable calls = none ∨ EndsReadable calls) := by
  rw [after_read s calls hempty]
  rcases List.eq_nil_or_concat calls with rfl | ⟨calls, call, rfl⟩
  · simp
  rw [List.concat_eq_append] at hnone ⊢
  rw [endsReadable_concat, lastReadable_concat]
  rw [lastWritable_concat] at hnone
  cases call with
  | readable callback => simp [Call.callback]
  | writable callback =>
      subst hnone
      simp [Call.callback]

end Calls

/-! ## What an event runs -/

section Events

variable {act : F → Process → Process} {this : Nat} {p : Process} {revents : UInt32}

/-- Without an error `event_callback` runs the callbacks for the bits that it is given. -/
theorem ends_eventCallback (readable writable : Option F) (hcalm : Calm p this)
    (herror : revents &&& eventError = 0) :
    Ends
      (fun _ p' => p' = dispatch act writable eventWrite revents
        (dispatch act readable eventRead revents
          (p.asked ((p.sockets this).elim invalidSocket Socket.nativeHandle))))
      (fun _ _ => False)
      (BasicSocket.eventCallback this (readable.map act) (writable.map act) revents p) := by
  obtain ⟨hnone, hzero⟩ := hcalm
  unfold BasicSocket.eventCallback
  rw [if_neg (not_not.mpr herror)]
  refine Ends.bind_iff.mpr (BasicSocket.ends_getError rfl (fun _ => ?_) fun hsome => ?_)
  · rw [if_neg (not_not.mpr hzero)]
    unfold dispatch
    split <;> split <;> rfl
  · exact absurd hnone hsome

/-- A mask with the bit of the read events lets them pass. -/
theorem masked_read {mask : UInt32} (hmask : mask &&& eventRead ≠ 0) :
    mask &&& revents &&& eventRead = revents &&& eventRead := by
  have hbit : mask &&& eventRead = eventRead := by
    have hnat : (mask &&& eventRead).toNat = mask.toNat % 2 := by
      rw [UInt32.toNat_and]
      exact Nat.and_one_is_mod _
    have hne : (mask &&& eventRead).toNat ≠ 0 := fun hzero => hmask (UInt32.toNat_inj.mp hzero)
    have hone : (mask &&& eventRead).toNat = 1 := by omega
    exact UInt32.toNat_inj.mp hone
  calc mask &&& revents &&& eventRead
      = revents &&& (mask &&& eventRead) := by rw [UInt32.and_comm mask, UInt32.and_assoc]
    _ = revents &&& eventRead := by rw [hbit]

theorem dispatch_none (flag : UInt32) : dispatch act (none : Option F) flag revents p = p := by
  unfold dispatch
  split <;> rfl

/-- What is not in the mask runs nothing. -/
theorem dispatch_masked {callback : Option F} {mask flag : UInt32} (hmask : mask &&& flag = 0) :
    dispatch act callback flag (mask &&& revents) p = p := by
  unfold dispatch
  rw [UInt32.and_comm mask, UInt32.and_assoc, hmask, UInt32.and_zero, if_neg (not_not.mpr rfl)]

/-- A callback that is stored for a bit of the mask is run for the event of this bit, and one that
is stored for no bit of the mask is not. -/
theorem serves_of_mask {s : StreamSocket F} {readable : Option F}
    (hread : s.events &&& eventRead ≠ 0 ↔ readable.isSome) (hwrite : s.events &&& eventWrite = 0)
    (hstored : ∀ callback, readable = some callback → s.readableCallback = some callback)
    (hinstalled : readable = none ∨ s.installed = true) : s.Serves readable none := by
  intro act this p revents herror hcalm
  simp only [dispatch_none]
  unfold fdEvent
  refine Ends.ite_iff.mpr ⟨fun hsome => ?_, fun hnothing => ⟨p, .inl rfl, ?_⟩⟩
  · refine Ends.ite_iff.mpr ⟨fun _ => ?_, fun hnot => ⟨p, .inl rfl, ?_⟩⟩
    · have hno : s.events &&& revents &&& eventError = 0 := by
        rw [UInt32.and_assoc, herror, UInt32.and_zero]
      refine (ends_eventCallback _ _ hcalm hno).mono (fun _ p' hp' => ⟨_, .inr rfl, ?_⟩)
        fun _ _ h => h
      rw [hp', dispatch_masked hwrite]
      cases readable with
      | none =>
          rw [dispatch_none]
          exact dispatch_masked (not_not.mp fun hbit => nomatch hread.mp hbit)
      | some callback =>
          unfold dispatch
          rw [hstored callback rfl, masked_read (hread.mpr rfl)]
    · rw [hinstalled.resolve_right hnot, dispatch_none]
  · -- nothing is delivered, so no callback is set for what has happened
    have hnothing : s.events &&& revents = 0 := not_not.mp hnothing
    unfold dispatch
    split
    · rename_i hevent
      cases readable with
      | none => rfl
      | some callback =>
          have hmask := hread.mpr rfl
          rw [← masked_read hmask, hnothing, UInt32.zero_and] at hevent
          exact absurd rfl hevent
    · rfl

/-- Without `event_callback` the watcher runs nothing. -/
theorem not_serves {s : StreamSocket F} {callback : F} {writable : Option F}
    (hbare : s.installed = false) : ¬s.Serves (some callback) writable := by
  intro hserves
  let act : F → Process → Process := fun _ p => { p with alive := false }
  have hnothing : ∀ p : Process, fdEvent act 0 s eventRead p = .ok () p := by
    intro p
    unfold fdEvent ioCallback
    rw [hbare]
    split <;> rfl
  have hends := hserves act 0 (newProcess fun _ => none) eventRead (by decide) ⟨rfl, rfl⟩
  rw [hnothing] at hends
  obtain ⟨q, -, hq⟩ := hends
  have halive : true = false := congrArg Process.alive hq
  cases halive

end Events

end StreamSocket

open StreamSocket

/-- The mask, the callbacks and what events run follow the last calls of the two setters if and
only if the last callback for the write events was empty and, unless the last one for the read
events was empty too, it was set by the last call of all, on a socket whose watcher calls
`event_callback`. -/
theorem mask_follows_iff {F : Type} (s₀ : StreamSocket F)
    (hempty : s₀.events &&& (eventRead ||| eventWrite) = 0) (calls : List (Call F)) :
    Follows s₀ calls ↔ lastWritable calls = none ∧
      (lastReadable calls = none ∨ s₀.installed = true ∧ EndsReadable calls) := by
  have hread : s₀.events &&& eventRead = 0 := by
    rw [← show (eventRead ||| eventWrite) &&& eventRead = eventRead from by decide,
      ← UInt32.and_assoc, hempty, UInt32.zero_and]
  have hwrite : s₀.events &&& eventWrite = 0 := by
    rw [← show (eventRead ||| eventWrite) &&& eventWrite = eventWrite from by decide,
      ← UInt32.and_assoc, hempty, UInt32.zero_and]
  constructor
  · intro h
    have hnone : lastWritable calls = none := by
      rw [← Option.not_isSome_iff_eq_none, ← h.write, after_write, hwrite]
      exact not_not.mpr rfl
    refine ⟨hnone, ?_⟩
    rcases (read_iff s₀ calls hread hnone).mp h.read with hempty | hends
    · exact .inl hempty
    · cases hlast : lastReadable calls with
      | none => exact .inl rfl
      | some callback =>
          refine .inr ⟨?_, hends⟩
          by_contra hbare
          have hserves := h.serves
          rw [hlast] at hserves
          refine not_serves ?_ hserves
          rw [after_installed]
          exact eq_false_of_ne_true hbare
  · rintro ⟨hnone, hlast⟩
    have hbits := (read_iff s₀ calls hread hnone).mpr (hlast.imp_right And.right)
    have hnowrite : (s₀.after calls).events &&& eventWrite = 0 := by
      rw [after_write, hwrite]
    exact {
      read := hbits
      write := by simp [hnowrite, hnone]
      serves := by
        rw [hnone]
        refine serves_of_mask hbits hnowrite (fun _ => stored_of_lastReadable s₀ calls) ?_
        rw [after_installed]
        exact hlast.imp_right And.left
      readApart := ⟨hbits.trans (after_filter_read s₀ calls hread).symm,
        after_readableCallback s₀ calls⟩
      writeApart := ⟨by rw [after_write, after_write], after_writableCallback s₀ calls⟩ }

/-- A callback for the read events, set behind a call that clears the other one. -/
theorem mask_follows_iff_readable :
    Follows (created : StreamSocket Nat) [.writable none, .readable (some 7)] :=
  (mask_follows_iff created (by decide) _).mpr ⟨rfl, .inr ⟨rfl, _, rfl, rfl⟩⟩

/-- A callback for the write events makes the mask ask for read events. -/
theorem write_not_asked_for :
    ((created : StreamSocket Nat).after [.writable (some 7)]).events &&& eventWrite = 0 ∧
      ((created : StreamSocket Nat).after [.writable (some 7)]).events &&& eventRead ≠ 0 ∧
        ¬∀ s₀ : StreamSocket Nat, s₀.events &&& (eventRead ||| eventWrite) = 0 →
          ∀ calls, Follows s₀ calls := by
  refine ⟨by decide, by decide, fun hall => ?_⟩
  have hwrite := (hall created (by decide) [.writable (some 7)]).write
  exact absurd (hwrite.mpr rfl) (by decide)

end Net
end Cyan

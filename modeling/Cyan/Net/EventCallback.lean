import Cyan.Net.BasicSocket

/-!
# What an I/O event can do

This module embeds `event_callback` of `basic_socket_acceptor` and of `basic_stream_socket`,
which a `noexcept` function of the event loop calls: what they throw ends the process.

* A callback of the user is a function on the process, since it returns normally.  It gets
  a connection by its place, and says whether it has taken it.
* `Quiet` lists the calls that have to succeed, in the order in which they are made, for
  `event_callback` to return.
-/

namespace Cyan
namespace Net

open Base

/-- `event_read` -/
def eventRead : UInt32 := 0x01

/-- `event_write` -/
def eventWrite : UInt32 := 0x02

/-- `event_error` -/
def eventError : UInt32 := 0x80000000

/-- The function returns. -/
def Returns (r : EStateM.Result Abort Process Unit) : Prop :=
  Ends (fun _ _ => True) (fun _ _ => False) r

namespace BasicSocket

/-- A local object is destroyed whichever way its scope is left. -/
def withLocal (s : Nat) (body : Act Unit) : Act Unit := do
  try body
  catch
    | .systemError ec =>
        destroy s
        throw (.systemError ec)
    | e => throw e
  destroy s

/-- `basic_stream_socket::event_callback` -/
def eventCallback (this : Nat) (readable writable : Option (Process → Process))
    (events : UInt32) : Act Unit := do
  if events &&& eventError ≠ 0 then
    close this
    return
  let error ← getOption this .error 0
  if error ≠ 0 then
    close this
    return
  if events &&& eventRead ≠ 0 then modify (readable.getD id)
  if events &&& eventWrite ≠ 0 then modify (writable.getD id)

end BasicSocket

/-- A connection callback of the user.  It does not know of the local variable that the
connection was moved from. -/
structure ConnectionCallback (socket : Nat) where
  /-- whether it takes the connection, and the process behind it -/
  run : Process → Bool × Process
  unaware : ∀ p, (run p).2.sockets socket = p.sockets socket

namespace SocketAcceptor

/-- `basic_socket_acceptor::accept`, into the local variable `socket`. -/
def accept (nativeHandle : Int) (socket : Nat) : Act Unit := do
  let (newSock, ec) ← detail (Net.accept nativeHandle)
  throwIf ec
  BasicSocket.fromHandle socket newSock

/-- The callback gets the connection in a `std::unique_ptr` and may leave it there. -/
def handOver {socket : Nat} (connection : Nat) (callback : ConnectionCallback socket) :
    Act Unit := do
  BasicSocket.fromOther connection socket
  let (taken, p) := callback.run (← get)
  set p
  if ¬taken then BasicSocket.destroy connection

/-- `basic_socket_acceptor::event_callback` -/
def eventCallback (nativeHandle : Int) {socket : Nat} (connection : Nat)
    (callback : Option (ConnectionCallback socket)) (events : UInt32) : Act Unit := do
  if events &&& eventError ≠ 0 then return
  if events &&& eventRead ≠ 0 then
    accept nativeHandle socket
    BasicSocket.withLocal socket do
      let error ← BasicSocket.getOption socket .error 0
      if error ≠ 0 then
        BasicSocket.close socket
        return
      match callback with
      | none => return
      | some callback => handOver connection callback

end SocketAcceptor

/-! ## What has to succeed -/

namespace World

/-- The calls of `socket` and `accept`, where `call` makes the socket. -/
def newSocketCalls (w : World) (call : SysCall) (stream : Bool) : List SysCall :=
  call :: ((if w.hasNosigpipe then [.setsockopt (w.offered call) .nosigpipe 1] else []) ++
    ((if stream then [.setsockopt (w.offered call) .nodelay 1] else []) ++
      [.getfl (w.offered call),
        .setfl (w.offered call) ((w.reply call).flags ||| oNonblock)]))

/-- The world behind these calls, with the new descriptor. -/
def withSocket (w : World) (call : SysCall) (stream : Bool) : World :=
  (w.after (w.newSocketCalls call stream)).opened (w.offered call)
    ((w.reply call).flags ||| oNonblock)

end World

/-- If the object has a descriptor, closing it succeeds. -/
def Closes (p : Process) (s : Nat) : Prop :=
  ∀ o, p.sockets s = some o → o.nativeHandle ≠ invalidSocket →
    p.world.next (.close o.nativeHandle) = none ∧ o.io ≠ none

/-- The process behind a `getsockopt` of `SO_ERROR`. -/
def Process.asked (p : Process) (sock : Int) : Process :=
  { p with world := p.world.called (.getsockopt sock .error) }

/-- `getsockopt` of `SO_ERROR` succeeds, and so does closing the object when there is a
pending error; without one the rest is quiet. -/
def Settled (p : Process) (s : Nat) (sock : Int) (rest : Prop) : Prop :=
  p.world.next (.getsockopt sock .error) = none ∧
    if (p.world.reply (.getsockopt sock .error)).value ≠ 0 then Closes (p.asked sock) s else rest

/-- What has to succeed for `basic_stream_socket::event_callback` to return. -/
def BasicSocket.Quiet (p : Process) (this : Nat) (events : UInt32) : Prop :=
  if events &&& eventError ≠ 0 then Closes p this
  else Settled p this ((p.sockets this).elim invalidSocket Socket.nativeHandle) True

namespace SocketAcceptor

/-- The process behind `accept`: `socket` has the new descriptor. -/
def accepted (p : Process) (nativeHandle : Int) (socket : Nat) : Process :=
  let fd := p.world.offered (.accept nativeHandle)
  ({ p with world := p.world.withSocket (.accept nativeHandle) true }).place socket ⟨fd, some fd⟩

/-- The process that the connection callback finds: the descriptor of `socket` is that of
`connection` now. -/
def handed (p : Process) (fd socket connection : Nat) : Process :=
  (p.place socket ⟨invalidSocket, none⟩).place connection ⟨fd, some fd⟩

/-- A connection that the callback does not take can be closed. -/
def LeavesClosable {socket : Nat} (callback : ConnectionCallback socket) (connection : Nat)
    (p : Process) : Prop :=
  (callback.run p).1 = false → Closes (callback.run p).2 connection

/-- What has to succeed behind `accept`. -/
def QuietBehind (p : Process) (fd : Nat) {socket : Nat} (connection : Nat)
    (callback : Option (ConnectionCallback socket)) : Prop :=
  Settled p socket fd
    (match callback with
    | none => Closes (p.asked fd) socket
    | some callback =>
        LeavesClosable callback connection (handed (p.asked fd) fd socket connection))

/-- What has to succeed for `basic_socket_acceptor::event_callback` to return. -/
def Quiet (p : Process) (nativeHandle : Int) {socket : Nat} (connection : Nat)
    (callback : Option (ConnectionCallback socket)) (events : UInt32) : Prop :=
  events &&& eventError = 0 → events &&& eventRead ≠ 0 →
    nativeHandle ≠ invalidSocket ∧
      p.world.Succeed (p.world.newSocketCalls (.accept nativeHandle) true) ∧
        QuietBehind (accepted p nativeHandle socket) (p.world.offered (.accept nativeHandle))
          connection callback

end SocketAcceptor

/-! ## `accept` call by call -/

/-- What the steps behind a new socket leave, by the calls that they make. -/
def Verdict (w : World) (fd : Nat) (flags : UInt32) (calls : List SysCall)
    (r : Int × ErrorCode) (w' : World) : Prop :=
  (w.Succeed calls ∧ r = (↑fd, .clear) ∧ w' = (w.after calls).opened fd flags) ∨
    (¬w.Succeed calls ∧ r.2.isSet)

section Calls

variable {w : World} {fd : Nat} {flags flags' : UInt32} {call : SysCall}
  {calls : List SysCall} {r : Int × ErrorCode} {w' : World} {E : Abort → World → Prop}

/-- One more call in front, which succeeds. -/
theorem Verdict.cons (h : Verdict (w.called call) fd flags calls r w')
    (hnone : w.next call = none) : Verdict w fd flags (call :: calls) r w' := by
  rcases h with ⟨hall, hr, hw⟩ | ⟨hnot, hset⟩
  · exact .inl ⟨⟨hnone, hall⟩, hr, hw⟩
  · exact .inr ⟨fun hall => hnot hall.2, hset⟩

/-- A call fails. -/
theorem Verdict.error {e : Errno} (he : w.next call = some e) :
    Verdict w fd flags (call :: calls) (invalidSocket, ⟨e, .system⟩) w' :=
  .inr ⟨fun hall => (nomatch he.symm.trans hall.1), isSet_errno e⟩

/-- Whatever `close` says, the error stays. -/
theorem ends_orClose_failed {Q : Int × ErrorCode → World → Prop} {sock : Int} {ec : ErrorCode}
    {rest : Prog (Int × ErrorCode)} (h : ∀ w', Q (invalidSocket, ec) w') :
    Ends Q E (orClose sock (-1, ec) rest w) := by
  have htrue : ((-1 : Int), ec).1 = -1 := rfl
  rw [orClose, if_pos htrue]
  exact Ends.bind_iff.mpr (Ends.map_iff.mpr (ends_sysClose (fun _ => h _) fun _ _ => h _))

theorem verdict_configure {applies : Bool} {option : SocketOption}
    {rest : Prog (Int × ErrorCode)}
    (hrest : ∀ v, v = w ∨ v = w.called (.setsockopt fd option 1) →
      Ends (Verdict v fd flags' calls) E (rest (v.opened fd flags))) :
    Ends (Verdict w fd flags'
        ((if applies then [.setsockopt fd option 1] else []) ++ calls)) E
      (configure applies fd option rest (w.opened fd flags)) := by
  cases applies with
  | false => exact hrest w (.inl rfl)
  | true =>
      rw [configure, if_pos rfl]
      refine Ends.bind_iff.mpr (ends_status (fun hnone => ?_) fun e he => ?_)
      · rw [orClose_ok]
        exact (hrest _ (.inr rfl)).mono (fun _ _ hv => hv.cons hnone) fun _ _ he => he
      · exact ends_orClose_failed fun _ => Verdict.error he

theorem World.getFlags_opened (w : World) (fd : Nat) (flags : UInt32) :
    (w.opened fd flags).getFlags fd = some flags := by
  simp [getFlags, opened]

/-- With a cleared `errno` a call that succeeds is a wrapped one. -/
theorem World.answered_none (herrno : w.errno = 0) (hnone : w.next call = none) :
    w.answered call none = w.called call := by
  rw [called, hnone, answered, answered, herrno]

theorem World.setFlags_opened (hnew : w.isOpen fd = false) :
    (w.opened fd flags).setFlags fd flags' = w.opened fd flags' := by
  have htable : ((w.opened fd flags).setFlags fd flags').descriptors =
      (fd, flags') :: w.descriptors := setFlags_new hnew rfl
  rw [setFlags, opened, opened]
  exact congrArg (fun d => { w with descriptors := d }) htable

theorem verdict_finishSocket (hnew : w.isOpen fd = false) :
    Ends (Verdict w fd (flags ||| oNonblock)
        [.getfl fd, .setfl fd (flags ||| oNonblock)]) E
      (finishSocket fd (w.opened fd flags)) := by
  rw [finishSocket, socketSetNonBlocking, if_neg (natCast_ne_invalidSocket fd)]
  refine Ends.bind_iff.mpr (Ends.bind_iff.mpr (ends_getfl (fun hnone => ?_) fun e he => ?_))
  · rw [World.getFlags_opened]
    refine ends_setfl (World.called_errno hnone) (fun hset => ?_) fun e he => ?_
    · rw [orClose_ok]
      have hnone : w.next (.getfl fd) = none := hnone
      refine Verdict.cons (Verdict.cons (.inl ⟨trivial, rfl, ?_⟩) hset) hnone
      have hset : (w.called (.getfl fd)).next (.setfl fd (flags ||| oNonblock)) = none := hset
      show (((w.called (.getfl fd)).answered (.setfl fd (flags ||| oNonblock)) none).opened fd
        flags).setFlags fd (flags ||| oNonblock) = _
      rw [World.answered_none (World.called_errno hnone) hset]
      exact World.setFlags_opened hnew
    · have hnone : w.next (.getfl fd) = none := hnone
      exact ends_orClose_failed fun _ => Verdict.cons (Verdict.error he) hnone
  · exact ends_orClose_failed fun _ => Verdict.error he

theorem verdict_newSocket (w : World) (call : SysCall) (stream : Bool) :
    Ends (Verdict w (w.offered call) ((w.reply call).flags ||| oNonblock)
      (w.newSocketCalls call stream)) E (newSocket call stream w) := by
  refine Ends.bind_iff.mpr (ends_open (fun hnone => ?_) fun e he => ?_)
  · refine Ends.ite_iff.mpr ⟨fun heq => absurd heq (natCast_ne_invalidSocket _), fun _ => ?_⟩
    have hnew : ∀ v : World, v.descriptors = w.descriptors → v.isOpen (w.offered call) = false := by
      intro v hv
      rw [World.isOpen, hv]
      exact w.isOpen_fresh _
    refine Ends.mono ?_ (fun _ _ hv => Verdict.cons hv hnone) fun _ _ he => he
    refine verdict_configure fun v hv => verdict_configure fun v' hv' => ?_
    refine verdict_finishSocket (hnew v' ?_)
    rcases hv' with rfl | rfl <;> rcases hv with rfl | rfl <;> rfl
  · exact Ends.ite_iff.mpr ⟨fun _ => Verdict.error he, fun hne => absurd rfl hne⟩

end Calls

/-! ## Objects -/

/-- The run returns if and only if `c` holds. -/
def Decides (c : Prop) (r : EStateM.Result Abort Process Unit) : Prop :=
  Ends (fun _ _ => c) (fun _ _ => ¬c) r

theorem Decides.returns_iff {c : Prop} {r : EStateM.Result Abort Process Unit}
    (h : Decides c r) : Returns r ↔ c := by
  cases r with
  | ok _ p => exact iff_of_true trivial h
  | error e p => exact iff_of_false id h

theorem Decides.congr {c d : Prop} {r : EStateM.Result Abort Process Unit} (hiff : c ↔ d)
    (h : Decides d r) : Decides c r :=
  h.mono (fun _ _ => hiff.mpr) fun _ _ hnot hc => hnot (hiff.mp hc)

theorem Closes.of_invalid {p : Process} {s : Nat} {o : Socket} (hlive : p.sockets s = some o)
    (hinvalid : o.nativeHandle = invalidSocket) : Closes p s := by
  intro o' ho' hvalid
  rw [hlive] at ho'
  cases ho'
  exact absurd hinvalid hvalid

namespace BasicSocket

variable {p : Process} {s : Nat} {o : Socket}

/-- `close` returns if closing succeeds, and then there is nothing left to close. -/
theorem close_closes (p : Process) (s : Nat) :
    Ends (fun _ p' => Closes p s ∧ Closes p' s ∧ ∀ t, t ≠ s → p'.sockets t = p.sockets t)
      (fun _ _ => ¬Closes p s) (close s p) := by
  cases hlive : p.sockets s with
  | none =>
      have hcloses : Closes p s := fun o ho =>
        absurd (hlive.symm.trans ho) (Option.some_ne_none o).symm
      simp only [close, isOpen, nativeHandle, Ends.bind_iff, Ends.get_iff, Ends.pure_iff, hlive]
      exact Ends.ite_iff.mpr ⟨fun _ => ⟨hcloses, hcloses, fun _ _ => rfl⟩,
        fun hopen => absurd rfl hopen⟩
  | some o =>
      rw [close, Ends.bind_iff, ends_isOpen hlive]
      refine Ends.ite_iff.mpr ⟨fun hshut => ?_, fun hopen => ?_⟩
      · have hcloses : Closes p s := .of_invalid hlive (by simpa using hshut)
        exact ⟨hcloses, hcloses, fun _ _ => rfl⟩
      have hvalid : o.nativeHandle ≠ invalidSocket := by
        simpa using hopen
      rw [Ends.bind_iff, ends_nativeHandle hlive, Ends.bind_iff, ends_detail, Net.close,
        if_neg hvalid]
      refine ends_wrapped_close (fun hnone => ?_) fun e he => ?_
      · have hlive' : ∀ w, ({ p with world := w } : Process).sockets s = some o := fun _ => hlive
        refine Ends.bind_iff.mpr (ends_throwIf_clear ?_)
        rw [Ends.bind_iff, ends_setNativeHandle (hlive' _)]
        refine (ends_setFileDescriptor (Process.place_sockets ..)).mpr
          ⟨fun hio => ?_, fun hio => ?_⟩
        · exact fun hcloses => (hcloses o hlive hvalid).2 hio
        · refine ⟨fun o' ho' _ => ?_, .of_invalid (Process.place_sockets ..) rfl, fun t ht => ?_⟩
          · rw [hlive] at ho'
            cases ho'
            exact ⟨hnone, hio⟩
          · rw [Process.place_of_ne ht, Process.place_of_ne ht]
      · refine Ends.bind_iff.mpr (ends_throwIf_set (isSet_errno e) fun hcloses => ?_)
        exact Option.some_ne_none e (he.symm.trans (hcloses o hlive hvalid).1)

/-- So does the destructor, and what it throws ends the process. -/
theorem destroy_closes (p : Process) (s : Nat) :
    Ends (fun _ p' => Closes p s ∧ ∀ t, t ≠ s → p'.sockets t = p.sockets t)
      (fun _ _ => ¬Closes p s) (destroy s p) := by
  rw [destroy, Ends.bind_iff, Ends.tryCatch_iff]
  refine (close_closes p s).mono (fun _ p' hq => ⟨hq.1, fun t ht => ?_⟩) fun e p' hnot => ?_
  · exact (Function.update_of_ne ht ..).trans (hq.2.2 t ht)
  · cases e <;> exact hnot

/-- A local object adds its own destruction. -/
theorem decides_withLocal {c : Prop} {body : Act Unit}
    (h : Ends (fun _ p' => Closes p' s ↔ c) (fun _ _ => ¬c) (body p)) :
    Decides c (withLocal s body p) := by
  rw [Decides, withLocal, Ends.bind_iff, Ends.tryCatch_iff]
  refine h.mono (fun _ p' hiff => ?_) fun e p' hnot => ?_
  · exact (destroy_closes p' s).mono (fun _ _ hq => hiff.mp hq.1)
      fun _ _ hno hc => hno (hiff.mpr hc)
  · cases e with
    | systemError ec =>
        refine Ends.bind_iff.mpr ?_
        cases destroy s p' <;> exact hnot
    | terminate => exact hnot
    | fault => exact hnot

/-- `get_option(SO_ERROR)` and what becomes of a pending error. -/
theorem ends_getError {Q : Int → Process → Prop} {E : Abort → Process → Prop} {sock : Int}
    (hsock : (p.sockets s).elim invalidSocket Socket.nativeHandle = sock)
    (hok : p.world.next (.getsockopt sock .error) = none →
      Q (p.world.reply (.getsockopt sock .error)).value (p.asked sock))
    (herror : p.world.next (.getsockopt sock .error) ≠ none →
      ∀ ec, E (.systemError ec) (p.asked sock)) :
    Ends Q E (getOption s .error 0 p) := by
  subst hsock
  rw [getOption, Ends.bind_iff, nativeHandle, Ends.bind_iff, Ends.get_iff, Ends.pure_iff,
    Ends.bind_iff, ends_detail]
  refine ends_getsockopt (fun hnone => ?_) fun e he => ?_
  · exact Ends.bind_iff.mpr (ends_throwIf_clear (hok hnone))
  · refine Ends.bind_iff.mpr (ends_throwIf_set (isSet_errno e) ?_)
    exact herror (fun hnone => Option.some_ne_none e (he.symm.trans hnone)) _

/-- The conditional behind `get_option`. -/
theorem Settled.iff_error {rest : Prop} {sock : Int}
    (hnone : p.world.next (.getsockopt sock .error) = none)
    (herror : (p.world.reply (.getsockopt sock .error)).value ≠ 0) :
    Settled p s sock rest ↔ Closes (p.asked sock) s := by
  rw [Settled, if_pos herror]
  exact and_iff_right hnone

theorem Settled.iff_rest {rest : Prop} {sock : Int}
    (hnone : p.world.next (.getsockopt sock .error) = none)
    (hzero : ¬(p.world.reply (.getsockopt sock .error)).value ≠ 0) :
    Settled p s sock rest ↔ rest := by
  rw [Settled, if_neg hzero]
  exact and_iff_right hnone

theorem eventCallback_decides (p : Process) (this : Nat)
    (readable writable : Option (Process → Process)) (events : UInt32) :
    Decides (Quiet p this events) (eventCallback this readable writable events p) := by
  unfold Decides eventCallback Quiet
  by_cases herrorEvent : events &&& eventError ≠ 0
  · simp only [if_pos herrorEvent, Ends.bind_iff]
    exact (close_closes p this).mono (fun _ _ hq => hq.1) fun _ _ hnot => hnot
  · simp only [if_neg herrorEvent]
    refine Ends.bind_iff.mpr (ends_getError rfl (fun hnone => ?_) fun hsome _ hsettled => ?_)
    · refine Ends.ite_iff.mpr ⟨fun herror => ?_, fun hzero => ?_⟩
      · simp only [Settled.iff_error hnone herror, Ends.bind_iff]
        exact (close_closes _ this).mono (fun _ _ hq => hq.1) fun _ _ hnot => hnot
      · simp only [Settled.iff_rest hnone hzero]
        -- from here on nothing is left that could throw
        simp
    · exact hsome hsettled.1

end BasicSocket

namespace SocketAcceptor

variable {p : Process} {socket connection fd : Nat}

/-- The connection callback, and what becomes of a connection that it leaves. -/
theorem ends_handOver (hne : connection ≠ socket) (hlive : p.sockets socket = some ⟨fd, some fd⟩)
    (callback : ConnectionCallback socket) :
    Ends
      (fun _ p' => Closes p' socket ∧
        LeavesClosable callback connection (handed p fd socket connection))
      (fun _ _ => ¬LeavesClosable callback connection (handed p fd socket connection))
      (handOver connection callback p) := by
  have hmoved : (callback.run (handed p fd socket connection)).2.sockets socket =
      some ⟨invalidSocket, none⟩ := by
    rw [callback.unaware, handed, Process.place_of_ne hne.symm, Process.place_sockets]
  rw [handOver, Ends.bind_iff]
  refine (BasicSocket.ends_fromOther hne hlive).mpr ⟨fun hio => (nomatch hio), fun _ => ?_⟩
  rw [Ends.bind_iff, Ends.get_iff]
  simp only [Ends.bind_iff, Ends.set_iff]
  refine Ends.ite_iff.mpr ⟨fun hleft => ?_, fun htaken => ?_⟩
  · have hleft : (callback.run (handed p fd socket connection)).1 = false :=
      eq_false_of_ne_true hleft
    refine (BasicSocket.destroy_closes _ connection).mono (fun _ p' hq => ⟨?_, fun _ => hq.1⟩)
      fun _ _ hnot hall => hnot (hall hleft)
    exact .of_invalid ((hq.2 socket hne.symm).trans hmoved) rfl
  · refine ⟨.of_invalid hmoved rfl, fun hleft => ?_⟩
    exact absurd (Bool.eq_false_iff.mp hleft) htaken

/-- What happens behind `accept`. -/
theorem behind_decides (hne : connection ≠ socket)
    (hlive : p.sockets socket = some ⟨fd, some fd⟩)
    (callback : Option (ConnectionCallback socket)) :
    Decides (QuietBehind p fd connection callback) (BasicSocket.withLocal socket (do
      let error ← BasicSocket.getOption socket .error 0
      if error ≠ 0 then
        BasicSocket.close socket
        return
      match callback with
      | none => return
      | some callback => handOver connection callback) p) := by
  refine BasicSocket.decides_withLocal (Ends.bind_iff.mpr ?_)
  have hsock : (p.sockets socket).elim invalidSocket Socket.nativeHandle = fd := by
    rw [hlive]
    rfl
  refine BasicSocket.ends_getError hsock (fun hnone => ?_) fun hsome _ hsettled => ?_
  · refine Ends.ite_iff.mpr ⟨fun herror => ?_, fun hzero => ?_⟩
    · simp only [QuietBehind, BasicSocket.Settled.iff_error hnone herror, Ends.bind_iff]
      exact (BasicSocket.close_closes _ socket).mono (fun _ _ hq => iff_of_true hq.2.1 hq.1)
        fun _ _ hnot => hnot
    · simp only [QuietBehind, BasicSocket.Settled.iff_rest hnone hzero]
      cases callback with
      | none => exact Iff.rfl
      | some callback =>
          have hlive' : (p.asked fd).sockets socket = some ⟨fd, some fd⟩ := hlive
          exact (ends_handOver hne hlive' callback).mono (fun _ _ hq => iff_of_true hq.1 hq.2)
            fun _ _ hnot => hnot
  · exact hsome hsettled.1

/-- `accept` gives the local variable the new descriptor if its calls succeed. -/
theorem ends_accept (p : Process) (nativeHandle : Int) (socket : Nat) :
    Ends
      (fun _ p' => nativeHandle ≠ invalidSocket ∧
        p.world.Succeed (p.world.newSocketCalls (.accept nativeHandle) true) ∧
          p' = accepted p nativeHandle socket)
      (fun _ _ => ¬(nativeHandle ≠ invalidSocket ∧
        p.world.Succeed (p.world.newSocketCalls (.accept nativeHandle) true)))
      (accept nativeHandle socket p) := by
  rw [accept, Ends.bind_iff, ends_detail, Net.accept]
  refine Ends.ite_iff.mpr ⟨fun hinvalid => ?_, fun hvalid => ?_⟩
  · have hset : badFileDescriptor.isSet := rfl
    refine Ends.pure_iff.mpr (Ends.bind_iff.mpr (ends_throwIf_set hset fun h => ?_))
    exact h.1 hinvalid
  · refine (verdict_newSocket (E := fun _ _ => False) p.world _ true).mono ?_
      fun _ _ hthrow => False.elim hthrow
    rintro ⟨sock, ec⟩ w (⟨hsucceed, hr, rfl⟩ | ⟨hfails, hset⟩)
    · cases hr
      refine Ends.bind_iff.mpr (ends_throwIf_clear ?_)
      rw [BasicSocket.fromHandle, BasicSocket.ends_construct, Ends.bind_iff]
      refine (BasicSocket.ends_setFileDescriptor (Process.place_sockets ..)).mpr
        ⟨fun hio => (by cases hio), fun _ => ?_⟩
      rw [Process.place_place]
      refine (BasicSocket.ends_watcher (Process.place_sockets ..)).mpr
        ⟨fun hio => (by cases hio), fun _ => ⟨hvalid, hsucceed, rfl⟩⟩
    · exact Ends.bind_iff.mpr (ends_throwIf_set hset fun h => hfails h.2)

theorem eventCallback_decides (hne : connection ≠ socket) (p : Process) (nativeHandle : Int)
    (callback : Option (ConnectionCallback socket)) (events : UInt32) :
    Decides (Quiet p nativeHandle connection callback events)
      (eventCallback nativeHandle connection callback events p) := by
  unfold eventCallback
  by_cases herrorEvent : events &&& eventError ≠ 0
  · rw [if_pos herrorEvent]
    exact fun hzero => absurd hzero herrorEvent
  rw [if_neg herrorEvent]
  by_cases hread : events &&& eventRead ≠ 0
  · refine Decides.congr
      ⟨fun h => h (not_ne_iff.mp herrorEvent) hread, fun h _ _ => h⟩ ?_
    rw [if_pos hread]
    refine Ends.bind_iff.mpr ((ends_accept p nativeHandle socket).mono ?_ ?_)
    · rintro - q ⟨hvalid, hsucceed, rfl⟩
      refine Decides.congr ((and_iff_right hvalid).trans (and_iff_right hsucceed)) ?_
      exact behind_decides hne (Process.place_sockets ..) callback
    · exact fun _ _ hfails hquiet => hfails ⟨hquiet.1, hquiet.2.1⟩
  · rw [if_neg hread]
    exact fun _ hyes => absurd hyes hread

end SocketAcceptor

/-- `event_callback` returns if and only if the calls that it depends on succeed. -/
theorem callback_returns_iff {socket connection : Nat} (hne : connection ≠ socket) :
    (∀ p nativeHandle (callback : Option (ConnectionCallback socket)) events,
      Returns (SocketAcceptor.eventCallback nativeHandle connection callback events p) ↔
        SocketAcceptor.Quiet p nativeHandle connection callback events) ∧
      ∀ p this readable writable events,
        Returns (BasicSocket.eventCallback this readable writable events p) ↔
          BasicSocket.Quiet p this events := by
  refine ⟨fun p nativeHandle callback events => ?_, fun p this readable writable events => ?_⟩
  · exact (SocketAcceptor.eventCallback_decides hne p nativeHandle callback events).returns_iff
  · exact (BasicSocket.eventCallback_decides p this readable writable events).returns_iff

/-- A connection arrives, and the callback takes it. -/
theorem callback_returns_iff_accepting : ∃ callback : ConnectionCallback 0,
    SocketAcceptor.Quiet (newProcess fun _ => none) 5 1 (some callback) eventRead ∧
      Returns (SocketAcceptor.eventCallback 5 1 (some callback) eventRead
        (newProcess fun _ => none)) := by
  have hne : (1 : Nat) ≠ 0 := by
    decide
  have hquiet : SocketAcceptor.Quiet (newProcess fun _ => none) 5 1
      (some (⟨fun p => (true, p), fun _ => rfl⟩ : ConnectionCallback 0)) eventRead := by
    refine fun _ _ => ⟨by decide, ⟨rfl, rfl, rfl, rfl, trivial⟩, rfl, ?_⟩
    exact fun hleft => nomatch hleft
  exact ⟨_, hquiet, ((callback_returns_iff hne).1 _ _ _ _).mpr hquiet⟩

/-- The client resets before it is accepted. -/
theorem reset_connection : ¬∀ p nativeHandle (callback : Option (ConnectionCallback 0)) events,
    Returns (SocketAcceptor.eventCallback nativeHandle 1 callback events p) := by
  intro hall
  let aborted : SysCall → Option Errno
    | .accept _ => some ⟨103, by decide⟩
    | _ => none
  exact hall (newProcess aborted) 5 none eventRead

end Net
end Cyan

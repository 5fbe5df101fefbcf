import Cyan.Net.Kernel

/-!
# Socket operations

This module embeds the functions of `net::detail` that make, configure and close sockets.
A function that reports through `std::error_code& ec` returns the code with its result; each
of them assigns it on every path.

`AllOrNothing` says what `socket` and `accept` leave: an open descriptor that does not
block, or no descriptor and the error of the first call that failed.
-/

namespace Cyan
namespace Net

open Base

/-- `SOCK_STREAM` -/
def sockStream : Int := 1

/-- `set_socket_option` -/
def setSocketOption (sock : Int) (option : SocketOption) (value : Int) :
    Prog (Int × ErrorCode) :=
  wrapped (sysStatus (.setsockopt sock option value))

/-- `get_socket_option`, with the value of the option afterwards. -/
def getSocketOption (sock : Int) (option : SocketOption) (value : Int) :
    Prog ((Int × Int) × ErrorCode) :=
  wrapped (sysGetsockopt sock option value)

/-- `socket_set_non_blocking` -/
def socketSetNonBlocking (sock : Int) (onoff : Bool) : Prog (Int × ErrorCode) := do
  if sock = invalidSocket then return (sock, badFileDescriptor)
  let (flags, ec) ← wrapped (sysGetfl sock)
  match flags with
  | none => return (-1, ec)
  | some flags =>
      -- `errno` is as `F_GETFL` has left it
      errorWrapper (← sysSetfl sock (if onoff then flags ||| oNonblock else flags &&& ~~~oNonblock))

/-- `if (result == -1) { ::close(sock); return invalid_socket; }` -/
def orClose (sock : Int) (result : Int × ErrorCode) (rest : Prog (Int × ErrorCode)) :
    Prog (Int × ErrorCode) := do
  if result.1 = -1 then
    discard (sysClose sock)
    return (invalidSocket, result.2)
  else rest

/-- A socket option of a new socket, where it applies. -/
def configure (applies : Bool) (sock : Int) (option : SocketOption)
    (rest : Prog (Int × ErrorCode)) : Prog (Int × ErrorCode) := do
  if applies then orClose sock (← setSocketOption sock option 1) rest
  else rest

/-- The last step: the new socket does not block. -/
def finishSocket (sock : Int) : Prog (Int × ErrorCode) := do
  orClose sock (← socketSetNonBlocking sock true) (return (sock, .clear))

/-- What `socket` and `accept` have in common: the call that makes the socket, and the
steps that configure it. -/
def newSocket (call : SysCall) (stream : Bool) : Prog (Int × ErrorCode) := do
  let (sock, ec) ← wrapped (sysOpen call)
  if sock = invalidSocket then return (sock, ec)
  configure (← get).hasNosigpipe sock .nosigpipe <|
    configure stream sock .nodelay (finishSocket sock)

/-- `detail::socket` -/
def socket (af type protocol : Int) : Prog (Int × ErrorCode) :=
  newSocket (.socket af type protocol) (type = sockStream)

/-- `detail::accept` -/
def accept (sock : Int) : Prog (Int × ErrorCode) := do
  if sock = invalidSocket then return (-1, badFileDescriptor)
  newSocket (.accept sock) true

/-- `detail::bind` -/
def bind (sock : Int) : Prog (Int × ErrorCode) := do
  if sock = invalidSocket then return (-1, badFileDescriptor)
  wrapped (sysStatus (.bind sock))

/-- `detail::close` -/
def close (sock : Int) : Prog (Int × ErrorCode) := do
  if sock = invalidSocket then return (-1, badFileDescriptor)
  wrapped (sysClose sock)

/-! ## All or nothing -/

/-- No call has failed since `w₀`. -/
def NoError (w₀ w : World) : Prop :=
  ∃ since, w.calls = since ++ w₀.calls ∧ ∀ c ∈ since, c.2 = none

/-- The first call that has failed since `w₀` has left `e` in `errno`. -/
def FirstError (w₀ w : World) (e : Errno) : Prop :=
  ∃ later call since, w.calls = later ++ (call, some e) :: since ++ w₀.calls ∧
    ∀ c ∈ since, c.2 = none

/-- The world answers as before, and nothing was closed that was not open. -/
structure SameRest (w₀ w : World) : Prop where
  answer : w.answer = w₀.answer
  strayCloses : w.strayCloses = w₀.strayCloses

/-- What `socket` and `accept` leave. -/
inductive AllOrNothing (w₀ : World) : Int × ErrorCode → World → Prop
  /-- a new descriptor that does not block, and no error -/
  | opened {w : World} (fd : Nat) (flags : UInt32) (hnew : w₀.isOpen fd = false)
      (htable : w.descriptors = (fd, flags) :: w₀.descriptors)
      (hflags : flags &&& oNonblock ≠ 0) (hrest : SameRest w₀ w) :
      AllOrNothing w₀ (fd, .clear) w
  /-- no descriptor, and the error of the first call that failed -/
  | failed {w : World} (e : Errno) (hfirst : FirstError w₀ w e)
      (htable : w.descriptors = w₀.descriptors) (hrest : SameRest w₀ w) :
      AllOrNothing w₀ (invalidSocket, ⟨e, .system⟩) w

/-- `close` takes the descriptor out of the table also when it reports an error, as
`close(2)` says of Linux. -/
def CloseReleases (w : World) : Prop :=
  ∀ sock n, (w.answer (.close sock) n).error ≠ none →
    (w.answer (.close sock) n).released = true

theorem NoError.refl (w : World) : NoError w w :=
  ⟨[], rfl, fun _ hc => nomatch hc⟩

/-- One more call, which succeeds. -/
theorem NoError.cons {w₀ w w' : World} {call : SysCall} {e : Option Errno} (h : NoError w₀ w)
    (hcalls : w'.calls = (call, e) :: w.calls) (he : e = none) : NoError w₀ w' := by
  subst he
  obtain ⟨since, hsince, hnone⟩ := h
  refine ⟨(call, none) :: since, by rw [hcalls, hsince]; rfl, ?_⟩
  rintro c (_ | ⟨_, hc⟩)
  · rfl
  · exact hnone c hc

/-- One more call, which fails. -/
theorem NoError.firstError {w₀ w w' : World} {call : SysCall} {e : Option Errno} {code : Errno}
    (h : NoError w₀ w) (hcalls : w'.calls = (call, e) :: w.calls) (he : e = some code) :
    FirstError w₀ w' code := by
  subst he
  obtain ⟨since, hsince, hnone⟩ := h
  exact ⟨[], call, since, by rw [hcalls, hsince]; rfl, hnone⟩

/-- Later calls do not change what failed first. -/
theorem FirstError.cons {w₀ w w' : World} {c : SysCall × Option Errno} {e : Errno}
    (h : FirstError w₀ w e) (hcalls : w'.calls = c :: w.calls) : FirstError w₀ w' e := by
  obtain ⟨later, call, since, hsince, hnone⟩ := h
  exact ⟨c :: later, call, since, by rw [hcalls, hsince]; rfl, hnone⟩

/-- The new descriptor `fd` is open, and no call has failed. -/
structure Opening (w₀ w : World) (fd : Nat) : Prop where
  noError : NoError w₀ w
  new : w₀.isOpen fd = false
  table : ∃ flags, w.descriptors = (fd, flags) :: w₀.descriptors
  rest : SameRest w₀ w

theorem natCast_ne_invalidSocket (fd : Nat) : (fd : Int) ≠ invalidSocket := by
  unfold invalidSocket
  omega

section Steps

variable {w₀ w : World} {fd : Nat} {E : Abort → World → Prop}

/-- Taking the new descriptor out leaves the table as it was. -/
theorem release_new {flags : UInt32} (hnew : w₀.isOpen fd = false)
    (htable : w.descriptors = (fd, flags) :: w₀.descriptors) :
    (w.release fd).descriptors = w₀.descriptors := by
  show w.descriptors.filter _ = _
  rw [htable, List.filter_cons_of_neg (by simp)]
  refine List.filter_eq_self.mpr fun d hd => ?_
  have hne := World.isOpen_eq_false.mp hnew d hd
  simp only [decide_eq_true_eq, ne_eq, Int.natCast_inj]
  exact hne

/-- A step behind the new descriptor has failed, so it is closed again. -/
theorem ends_orClose_error {w' : World} {e : Errno} (h : Opening w₀ w fd)
    (hfirst : FirstError w₀ w' e) (hdescriptors : w'.descriptors = w.descriptors)
    (hrest : SameRest w₀ w') (hclose : CloseReleases w₀)
    (rest : Prog (Int × ErrorCode)) :
    Ends (AllOrNothing w₀) E (orClose fd (-1, ⟨e, .system⟩) rest w') := by
  obtain ⟨flags, htable⟩ := h.table
  have htrue : ((-1 : Int), (⟨e, .system⟩ : ErrorCode)).1 = -1 := rfl
  have htable : w'.descriptors = (fd, flags) :: w₀.descriptors := hdescriptors.trans htable
  have hopen : w'.isOpen fd := by
    simp [World.isOpen, htable]
  have hsame : w'.closing fd = w' := World.closing_of_isOpen (.inr hopen)
  rw [orClose, if_pos htrue]
  refine Ends.bind_iff.mpr (Ends.map_iff.mpr (ends_sysClose (fun _ => ?_) fun e' he' => ?_))
  · rw [hsame]
    exact .failed e (hfirst.cons rfl) (release_new h.new htable) ⟨hrest.answer, hrest.strayCloses⟩
  · have hreleased : (w'.reply (.close fd)).released = true := by
      rw [World.reply, hrest.answer]
      refine hclose fd _ ?_
      rw [← hrest.answer]
      exact fun hnone => Option.some_ne_none e' (he'.symm.trans hnone)
    rw [if_pos hreleased, hsame]
    exact .failed e (hfirst.cons rfl) (release_new h.new htable) ⟨hrest.answer, hrest.strayCloses⟩

/-- A step behind the new descriptor has succeeded. -/
theorem orClose_ok (rest : Prog (Int × ErrorCode)) :
    orClose fd (0, .clear) rest = rest := by
  have hfalse : ¬((0 : Int), ErrorCode.clear).1 = -1 := by decide
  rw [orClose, if_neg hfalse]

theorem ends_configure {applies : Bool} {option : SocketOption} {rest : Prog (Int × ErrorCode)}
    (h : Opening w₀ w fd) (hclose : CloseReleases w₀)
    (hrest : ∀ w', Opening w₀ w' fd → Ends (AllOrNothing w₀) E (rest w')) :
    Ends (AllOrNothing w₀) E (configure applies fd option rest w) := by
  obtain ⟨flags, htable⟩ := h.table
  rw [configure]
  refine Ends.ite_iff.mpr ⟨fun _ => Ends.bind_iff.mpr (ends_status (fun hok => ?_) fun e he => ?_),
    fun _ => hrest w h⟩
  · rw [orClose_ok]
    exact hrest _ ⟨h.noError.cons rfl hok, h.new, ⟨flags, htable⟩,
      h.rest.answer, h.rest.strayCloses⟩
  · have hfirst : FirstError w₀ (w.called (.setsockopt fd option 1)) e :=
      h.noError.firstError rfl he
    exact ends_orClose_error h hfirst rfl ⟨h.rest.answer, h.rest.strayCloses⟩ hclose rest

/-- Of the two status words the later one is left. -/
theorem setFlags_new {flags flags' : UInt32} (hnew : w₀.isOpen fd = false)
    (htable : w.descriptors = (fd, flags) :: w₀.descriptors) :
    (w.setFlags fd flags').descriptors = (fd, flags') :: w₀.descriptors := by
  show w.descriptors.map _ = _
  rw [htable, List.map_cons, if_pos rfl]
  refine congrArg _ ((List.map_congr_left fun d hd => ?_).trans (List.map_id _))
  have hne := World.isOpen_eq_false.mp hnew d hd
  rw [if_neg fun heq => hne (Int.natCast_inj.mp heq), id]

theorem nonblock_ne_zero (flags : UInt32) : (flags ||| oNonblock) &&& oNonblock ≠ 0 := by
  have hbit : (flags ||| oNonblock) &&& oNonblock = oNonblock := by
    refine UInt32.eq_of_toBitVec_eq (BitVec.eq_of_getLsbD_eq fun i hi => ?_)
    simp only [UInt32.toBitVec_and, UInt32.toBitVec_or, BitVec.getLsbD_and, BitVec.getLsbD_or]
    cases (flags.toBitVec.getLsbD i) <;> cases oNonblock.toBitVec.getLsbD i <;> rfl
  rw [hbit]
  decide

theorem ends_finishSocket (h : Opening w₀ w fd) (hclose : CloseReleases w₀) :
    Ends (AllOrNothing w₀) E (finishSocket fd w) := by
  obtain ⟨flags, htable⟩ := h.table
  rw [finishSocket, socketSetNonBlocking, if_neg (natCast_ne_invalidSocket fd)]
  refine Ends.bind_iff.mpr (Ends.bind_iff.mpr (ends_getfl (fun hok => ?_) fun e he => ?_))
  · generalize (w.getFlags fd).getD (w.reply (.getfl fd)).flags = old
    refine ends_setfl (World.called_errno hok) (fun hset => ?_) fun e he => ?_
    · rw [orClose_ok]
      exact .opened fd _ h.new (setFlags_new h.new htable) (nonblock_ne_zero old)
        ⟨h.rest.answer, h.rest.strayCloses⟩
    · have hnone : NoError w₀ (w.called (.getfl fd)) := h.noError.cons rfl hok
      have hfirst : FirstError w₀ ((w.called (.getfl fd)).answered
          (.setfl fd (old ||| oNonblock)) (some e)) e := hnone.firstError rfl rfl
      exact ends_orClose_error h hfirst rfl ⟨h.rest.answer, h.rest.strayCloses⟩ hclose _
  · have hfirst : FirstError w₀ (w.called (.getfl fd)) e := h.noError.firstError rfl he
    exact ends_orClose_error h hfirst rfl ⟨h.rest.answer, h.rest.strayCloses⟩ hclose _

theorem ends_newSocket (w : World) (hclose : CloseReleases w) (call : SysCall)
    (stream : Bool) : Ends (AllOrNothing w) E (newSocket call stream w) := by
  refine Ends.bind_iff.mpr (ends_open (fun hok => ?_) fun e he => ?_)
  · have hopening : Opening w ((w.called call).opened (w.offered call) (w.reply call).flags)
        (w.offered call) :=
      ⟨(NoError.refl w).cons rfl hok, w.isOpen_fresh _, ⟨_, rfl⟩, ⟨rfl, rfl⟩⟩
    refine Ends.ite_iff.mpr ⟨fun heq => absurd heq (natCast_ne_invalidSocket _), fun _ => ?_⟩
    exact ends_configure hopening hclose fun w₁ h₁ => ends_configure h₁ hclose fun w₂ h₂ =>
      ends_finishSocket h₂ hclose
  · refine Ends.ite_iff.mpr ⟨fun _ => ?_, fun hne => absurd rfl hne⟩
    exact .failed e ((NoError.refl w).firstError rfl he) rfl ⟨rfl, rfl⟩

end Steps

/-- `socket` and `accept` end with an open descriptor that does not block and no error, or
with no descriptor and the error of the first call that failed; `accept` refuses the
invalid socket. -/
theorem all_or_nothing (w : World) (hclose : CloseReleases w) :
    (∀ af type protocol, Ends (AllOrNothing w) (fun _ _ => False) (socket af type protocol w)) ∧
      (∀ sock, sock ≠ invalidSocket →
        Ends (AllOrNothing w) (fun _ _ => False) (accept sock w)) ∧
      accept invalidSocket w = .ok (invalidSocket, badFileDescriptor) w := by
  refine ⟨fun af type protocol => ends_newSocket w hclose _ _, fun sock hsock => ?_, rfl⟩
  rw [accept, if_neg hsock]
  exact ends_newSocket w hclose _ _

/-- A world that refuses `TCP_NODELAY`, and reports an error when the socket is closed. -/
def refusing : World where
  hasNosigpipe := false
  answer call _ :=
    match call with
    | .setsockopt _ _ _ => ⟨some ⟨22, by decide⟩, 0, 0, 0, true⟩
    | .close _ => ⟨some ⟨5, by decide⟩, 0, 0, 0, true⟩
    | _ => ⟨none, 3, 2, 0, true⟩
  calls := []
  errno := 0
  descriptors := []
  strayCloses := []

theorem all_or_nothing_refusing : ∃ w, socket 2 sockStream 6 refusing =
    .ok (invalidSocket, ⟨22, .system⟩) w ∧
      AllOrNothing refusing (invalidSocket, ⟨22, .system⟩) w := by
  have hclose : CloseReleases refusing := fun _ _ _ => rfl
  exact ⟨_, rfl, (all_or_nothing refusing hclose).1 2 sockStream 6⟩

end Net
end Cyan

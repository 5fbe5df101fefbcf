import Cyan.Base.Turns
import Cyan.Dispatch.Custody

/-!
# Tasks of a serial token run one after another

A token counts the numbers it has drawn and the tasks that have been released.
`try_acquire` compares a task's number with the second counter.

* `SerialOrder` says what the token is for: one task at a time, in the order in
  which the numbers were drawn.
* `Serving` is the invariant that ties the counters, the trace and the places of
  the messages together.
* `serial_order` holds for every run with fewer than `2 ^ 64` tasks of the token.
-/

namespace Cyan
namespace Dispatch

open Base

variable {H C Token : Type*} [DecidableEq H] [DecidableEq C] [DecidableEq Token]
variable {s s' : State H C Token} {a : Action H C Token} {msg : Message Token}
  {p q : Place H C} {token : Token}

/-! ## What the trace says about a token -/

/-- The tasks of the token that caller `c` has posted. -/
def posts (c : C) (token : Token) (tr : List (Mark H C Token)) : List Nat :=
  tr.filterMap fun
    | .call d op _ tok => if d = c ∧ tok = some token then some op else none
    | _ => none

/-- The tasks of caller `c` that have drawn a sequence number of the token. -/
def drawsBy (c : C) (token : Token) (tr : List (Mark H C Token)) : List Nat :=
  tr.filterMap fun
    | .draw d op tok => if d = c ∧ tok = token then some op else none
    | _ => none

/-- The identity of a task of the token. -/
def Message.ofToken (token : Token) (msg : Message Token) : Option Nat :=
  if msg.serialToken = some token then some msg.op else none

/-- The tasks of the token that have started. -/
def starts (token : Token) (tr : List (Mark H C Token)) : List Nat :=
  tr.filterMap fun
    | .started msg _ => msg.ofToken token
    | _ => none

/-- The tasks of the token whose callable has ended. -/
def ends (token : Token) (tr : List (Mark H C Token)) : List Nat :=
  tr.filterMap fun
    | .ended msg _ _ => msg.ofToken token
    | _ => none

/-- The tasks of the token that have been released. -/
def releases (token : Token) (tr : List (Mark H C Token)) : List Nat :=
  tr.filterMap fun
    | .released msg _ => msg.ofToken token
    | _ => none

/-- The task may start: the tasks that have ended are the ones that drew before
it, and whatever its caller posted before it with the same token has ended. -/
structure InTurn (token : Token) (msg : Message Token) (tr : List (Mark H C Token)) :
    Prop where
  turn : ∃ later, draws token tr = later ++ msg.op :: ends token tr
  program : ∀ c later earlier, posts c token tr = later ++ msg.op :: earlier →
    ∀ op ∈ earlier, op ∈ ends token tr

/-- The tasks of the token run one after another and in order. -/
structure SerialOrder (token : Token) (s : State H C Token) : Prop where
  /-- at most one task is between its `try_acquire` and its `release` -/
  exclusive : ∀ g h k l m n, k.Taken → l.Taken → m ∈ contents s (.spot g k) →
    n ∈ contents s (.spot h l) → m.serialToken = some token →
    n.serialToken = some token → g = h ∧ m = n
  /-- no task runs twice -/
  once : (starts token s.trace).Nodup
  /-- a task starts when its turn has come -/
  order : ∀ msg h l, (.started msg h :: l) <:+ s.trace →
    msg.serialToken = some token → InTurn token msg l

/-! ## Silent marks -/

/-- The mark says nothing about the token. -/
def Mark.Silent (token : Token) : Mark H C Token → Prop
  | .draw _ _ tok => tok ≠ token
  | .started msg _ => msg.serialToken ≠ some token
  | .ended msg _ _ => msg.serialToken ≠ some token
  | .released msg _ => msg.serialToken ≠ some token
  | _ => True

/-- Every start in the trace was in turn. -/
def Orderly (token : Token) : List (Mark H C Token) → Prop
  | [] => True
  | .started msg _ :: tr =>
      (msg.serialToken = some token → InTurn token msg tr) ∧ Orderly token tr
  | _ :: tr => Orderly token tr

section

omit [DecidableEq H]

theorem Orderly.tail {e : Mark H C Token} {tr : List (Mark H C Token)}
    (h : Orderly token (e :: tr)) : Orderly token tr := by
  cases e with
  | started msg h' => exact h.2
  | _ => exact h

theorem Orderly.inTurn {tr l : List (Mark H C Token)} {h : H}
    (horderly : Orderly token tr) (hsuffix : (.started msg h :: l) <:+ tr)
    (htoken : msg.serialToken = some token) : InTurn token msg l := by
  induction tr with
  | nil => exact absurd (List.suffix_nil.mp hsuffix) (List.cons_ne_nil _ _)
  | cons e tr ih =>
      rcases List.suffix_cons_iff.mp hsuffix with heq | hsuffix
      · cases heq
        exact horderly.1 htoken
      · exact ih horderly.tail hsuffix

end

/-- What the trace says about the token. -/
structure SameMarks (token : Token) (tr tr' : List (Mark H C Token)) : Prop where
  draws : draws token tr' = draws token tr
  starts : starts token tr' = starts token tr
  ends : ends token tr' = ends token tr
  releases : releases token tr' = releases token tr
  orderly : Orderly token tr → Orderly token tr'

section

omit [DecidableEq H]

theorem SameMarks.cons {e : Mark H C Token} (h : e.Silent token)
    (tr : List (Mark H C Token)) : SameMarks token tr (e :: tr) := by
  cases e with
  | draw c op tok =>
      exact ⟨by simp [Dispatch.draws, show tok ≠ token from h], rfl, rfl, rfl, id⟩
  | started msg g =>
      have hnone : msg.ofToken token = none := if_neg h
      exact ⟨rfl, by simp [Dispatch.starts, hnone], rfl, rfl,
        fun horderly => ⟨fun htoken => absurd htoken h, horderly⟩⟩
  | ended msg g threw =>
      have hnone : msg.ofToken token = none := if_neg h
      exact ⟨rfl, rfl, by simp [Dispatch.ends, hnone], rfl, id⟩
  | released msg g =>
      have hnone : msg.ofToken token = none := if_neg h
      exact ⟨rfl, rfl, rfl, by simp [Dispatch.releases, hnone], id⟩
  | _ => exact ⟨rfl, rfl, rfl, rfl, id⟩

theorem SameMarks.append {es tr : List (Mark H C Token)}
    (h : ∀ e ∈ es, e.Silent token) : SameMarks token tr (es ++ tr) := by
  induction es with
  | nil => exact ⟨rfl, rfl, rfl, rfl, id⟩
  | cons e es ih =>
      have hcons := SameMarks.cons (h e (List.mem_cons_self ..)) (es ++ tr)
      have hrest := ih fun e' he' => h e' (List.mem_cons_of_mem _ he')
      exact ⟨hcons.draws.trans hrest.draws, hcons.starts.trans hrest.starts,
        hcons.ends.trans hrest.ends, hcons.releases.trans hrest.releases,
        fun horderly => hcons.orderly (hrest.orderly horderly)⟩

end

/-! ## The order of one caller's posts -/

/-- The task that a call has posted and that has not drawn its number yet. -/
def Call.toDraw (token : Token) : Call Token → List Nat
  | .setSerialToken msg tok => if tok = token then [msg.op] else []
  | _ => []

/-- A caller draws for its tasks in the order in which it posts them. -/
def Program (s : State H C Token) : Prop :=
  ∀ c token, posts c token s.trace =
    (s.callers c).elim [] (fun x => x.2.toDraw token) ++ drawsBy c token s.trace

/-- The mark is neither a call nor a draw. -/
def Mark.Unposted : Mark H C Token → Prop
  | .call _ _ _ _ => False
  | .draw _ _ _ => False
  | _ => True

section

omit [DecidableEq H]

theorem posts_append {c : C} {es tr : List (Mark H C Token)}
    (h : ∀ e ∈ es, e.Unposted) : posts c token (es ++ tr) = posts c token tr :=
  filterMap_skip (fun e he => by
    have hunposted := h e he
    cases e <;> first | rfl | exact hunposted.elim) tr

theorem drawsBy_append {c : C} {es tr : List (Mark H C Token)}
    (h : ∀ e ∈ es, e.Unposted) : drawsBy c token (es ++ tr) = drawsBy c token tr :=
  filterMap_skip (fun e he => by
    have hunposted := h e he
    cases e <;> first | rfl | exact hunposted.elim) tr

end

section

omit [DecidableEq H] [DecidableEq C]

/-- Steps of threads post nothing. -/
theorem ThreadMove.unposted {h : H} {tokens : Token → SerialToken}
    {t : HandlerThread Token} {o : Outcome H C Token} (hmove : ThreadMove h tokens t o) :
    ∀ e ∈ o.marks, e.Unposted := by
  cases hmove <;> intro e he <;> first
    | (cases he; done)
    | (rcases List.mem_cons.mp he with rfl | he
       · trivial
       · first
         | (cases he; done)
         | (rw [List.mem_singleton.mp he]; trivial))

/-- A step of a call posts nothing, and it draws only for the message it holds. -/
theorem CallMove.posted {h : H} {tokens : Token → SerialToken} {t : HandlerThread Token}
    {o : Outcome H C Token} {c : C} {n : Nat} {call : Call Token}
    (hmove : CallMove h tokens t c n call o) :
    (∃ msg tok, call = .setSerialToken msg tok ∧ o.marks = [.draw c msg.op tok] ∧
        ∀ token, o.next.elim [] (Call.toDraw token) = []) ∨
      ((∀ e ∈ o.marks, e.Unposted) ∧ ∀ token,
        o.next.elim [] (Call.toDraw token) = call.toDraw token) := by
  cases hmove with
  | draw msg tok => exact .inl ⟨msg, tok, rfl, rfl, fun _ => rfl⟩
  | enqueue e e' hnext =>
      refine .inr ⟨fun e'' he => ?_, fun _ => rfl⟩
      cases e <;> first | (cases he; done) | (rw [List.mem_singleton.mp he]; trivial)
  | _ =>
      refine .inr ⟨fun e he => ?_, fun _ => rfl⟩
      first | (cases he; done) | (rw [List.mem_singleton.mp he]; trivial)

end

section

omit [DecidableEq H]

/-- What the mark of a new call adds to the posts. -/
theorem opens_posts {n : Nat} {h : H} {c : C} {call : Call Token} {e : Mark H C Token}
    (hopens : a.opens n = some (c, h, call, e)) (b : C) (token : Token)
    (tr : List (Mark H C Token)) :
    posts b token (e :: tr) =
      (if c = b then call.toDraw token else []) ++ posts b token tr ∧
    drawsBy b token (e :: tr) = drawsBy b token tr := by
  cases a with
  | send d g timeout =>
      cases hopens
      exact ⟨by simp [posts, Call.toDraw], rfl⟩
  | post d g timeout =>
      cases hopens
      exact ⟨by simp [posts, Call.toDraw], rfl⟩
  | postSerial d g tok =>
      cases hopens
      refine ⟨?_, rfl⟩
      by_cases hcb : c = b <;> by_cases htok : tok = token <;>
        simp [posts, Call.toDraw, makeCallableMessage, hcb, htok]
  | stop d g safe =>
      cases hopens
      exact ⟨by simp [posts, Call.toDraw], rfl⟩
  | call d => cases hopens
  | thread g choice => cases hopens

theorem drawsBy_draw (b c : C) (op : Nat) (tok token : Token)
    (tr : List (Mark H C Token)) :
    drawsBy b token (.draw c op tok :: tr) =
      (if c = b ∧ tok = token then [op] else []) ++ drawsBy b token tr := by
  by_cases h : c = b ∧ tok = token <;> simp [drawsBy, h]

end

theorem Program.step (hprogram : Program s) (hstep : Dispatch.step s a = some s') :
    Program s' := by
  intro b token
  have hold := hprogram b token
  cases step_move hstep with
  | thread h choice o hmove =>
      show posts b token (o.marks ++ s.trace) = _ ++ drawsBy b token (o.marks ++ s.trace)
      rw [posts_append hmove.unposted, drawsBy_append hmove.unposted]
      exact hold
  | opens _ c h call e hopens hidle =>
      obtain ⟨hposts, hdraws⟩ := opens_posts hopens b token s.trace
      show posts b token (e :: s.trace) =
        (Function.update s.callers c (some (h, call)) b).elim [] _ ++
          drawsBy b token (e :: s.trace)
      rw [hposts, hdraws, hold]
      by_cases hcb : c = b
      · subst hcb
        rw [hidle, Function.update_self, if_pos rfl]
        rfl
      · rw [Function.update_of_ne (Ne.symm hcb), if_neg hcb]
        rfl
  | call c h call o hcall hmove =>
      show posts b token (o.marks ++ s.trace) =
        (Function.update s.callers c (o.next.map (h, ·)) b).elim [] _ ++
          drawsBy b token (o.marks ++ s.trace)
      have hself : ∀ x : Option (Call Token), (x.map (h, ·)).elim []
          (fun y : H × Call Token => y.2.toDraw token) = x.elim [] (Call.toDraw token) := by
        rintro (_ | x) <;> rfl
      rcases hmove.posted with ⟨msg, tok, rfl, hmarks, hnext⟩ | ⟨hunposted, hnext⟩
      · rw [hmarks]
        show posts b token s.trace = _ ++ drawsBy b token (.draw c msg.op tok :: s.trace)
        rw [drawsBy_draw, hold]
        by_cases hcb : c = b
        · subst hcb
          rw [hcall, Function.update_self, hself, hnext]
          by_cases htok : tok = token <;> simp [Call.toDraw, htok]
        · rw [Function.update_of_ne (Ne.symm hcb)]
          simp [hcb]
      · rw [posts_append hunposted, drawsBy_append hunposted, hold]
        by_cases hcb : c = b
        · subst hcb
          rw [hcall, Function.update_self, hself, hnext]
          rfl
        · rw [Function.update_of_ne (Ne.symm hcb)]

theorem reachable_program (hreach : machine.Reachable s) : Program s :=
  hreach.invariant (I := Program) (fun _ hs => by rw [hs]; intro c token; rfl)
    fun _ _ _ hprogram _ hstep => hprogram.step hstep

omit [DecidableEq H] in
theorem drawsBy_sublist (c : C) (token : Token) (tr : List (Mark H C Token)) :
    (drawsBy c token tr).Sublist (draws token tr) := by
  induction tr with
  | nil => exact .slnil
  | cons e tr ih =>
      cases e with
      | draw d op tok =>
          by_cases htok : tok = token
          · by_cases hd : d = c <;> simp [drawsBy, draws, htok, hd] <;> first
              | exact ih
              | exact ih.cons op
          · simp only [drawsBy, draws, List.filterMap_cons, htok, and_false, if_false]
            exact ih
      | _ => exact ih

/-! ## The invariant -/

/-- The counters of the token, the trace, and the places of its tasks. -/
structure Serving (token : Token) (s : State H C Token) : Prop where
  current : (s.tokens token).currentSequence = .ofNat (draws token s.trace).length
  executing : (s.tokens token).executingSequence = .ofNat (releases token s.trace).length
  served : releases token s.trace <:+ draws token s.trace
  /-- a task carries the number it has drawn, and its turn is not over -/
  waiting : ∀ p, ∀ msg ∈ contents s p, msg.serialToken = some token →
    ∃ n, Turn (draws token s.trace) msg.op n ∧ (releases token s.trace).length ≤ n ∧
      msg.sequence = .ofNat n
  /-- it is the turn of a task that has acquired the token -/
  taken : ∀ h k, k.Taken → ∀ msg ∈ contents s (.spot h k), msg.serialToken = some token →
    Turn (draws token s.trace) msg.op (releases token s.trace).length
  running : ∀ h, ∀ msg ∈ contents s (.spot h .running), msg.serialToken = some token →
    starts token s.trace = msg.op :: releases token s.trace ∧
      ends token s.trace = releases token s.trace
  ended : ∀ h, ∀ msg ∈ contents s (.spot h .ended), msg.serialToken = some token →
    starts token s.trace = msg.op :: releases token s.trace ∧
      ends token s.trace = msg.op :: releases token s.trace
  free : (∀ h k, k.Begun → ∀ msg ∈ contents s (.spot h k), msg.serialToken ≠ some token) →
    starts token s.trace = releases token s.trace ∧
      ends token s.trace = releases token s.trace
  orderly : Orderly token s.trace

section

omit [DecidableEq H]

/-- Steps that say nothing about the token and leave its tasks at the places that
matter. -/
theorem Serving.frame (hserving : Serving token s)
    (htokens : s'.tokens token = s.tokens token)
    (hmarks : SameMarks token s.trace s'.trace)
    (hfrom : ∀ p, ∀ msg ∈ contents s' p, msg.serialToken = some token →
      ∃ q, msg ∈ contents s q)
    (htaken : ∀ h k, k.Taken → ∀ msg ∈ contents s' (.spot h k),
      msg.serialToken = some token → msg ∈ contents s (.spot h k))
    (hbegun : ∀ h k, k.Begun → ∀ msg ∈ contents s (.spot h k),
      msg.serialToken = some token → msg ∈ contents s' (.spot h k)) :
    Serving token s' where
  current := by rw [htokens, hmarks.draws, hserving.current]
  executing := by rw [htokens, hmarks.releases, hserving.executing]
  served := by
    rw [hmarks.draws, hmarks.releases]
    exact hserving.served
  waiting p msg hmsg htoken := by
    obtain ⟨q, hq⟩ := hfrom p msg hmsg htoken
    rw [hmarks.draws, hmarks.releases]
    exact hserving.waiting q msg hq htoken
  taken h k hk msg hmsg htoken := by
    rw [hmarks.draws, hmarks.releases]
    exact hserving.taken h k hk msg (htaken h k hk msg hmsg htoken) htoken
  running h msg hmsg htoken := by
    rw [hmarks.starts, hmarks.ends, hmarks.releases]
    exact hserving.running h msg (htaken h .running trivial msg hmsg htoken) htoken
  ended h msg hmsg htoken := by
    rw [hmarks.starts, hmarks.ends, hmarks.releases]
    exact hserving.ended h msg (htaken h .ended trivial msg hmsg htoken) htoken
  free hfree := by
    rw [hmarks.starts, hmarks.ends, hmarks.releases]
    exact hserving.free fun h k hk msg hmsg htoken =>
      hfree h k hk msg (hbegun h k hk msg hmsg htoken) htoken
  orderly := hmarks.orderly hserving.orderly

/-- At most one task of the token is between `try_acquire` and `release`. -/
theorem Serving.exclusive (hserving : Serving token s) (hcustody : Custody s) {g h : H}
    {k l : Spot} {m n : Message Token} (hk : k.Taken) (hl : l.Taken)
    (hm : m ∈ contents s (.spot g k)) (hn : n ∈ contents s (.spot h l))
    (hmtoken : m.serialToken = some token) (hntoken : n.serialToken = some token) :
    Place.spot (C := C) g k = .spot h l ∧ m = n :=
  hcustody.sole.eq_of_key_eq hm hn ((hserving.taken g k hk m hm hmtoken).item_unique
    (hserving.taken h l hl n hn hntoken))

end

/-! ## One lemma for each way a message moves -/

section

omit [DecidableEq H]

/-- A message moves, and the places that matter see no task of the token. -/
theorem Serving.of_went (hserving : Serving token s)
    (htokens : s'.tokens token = s.tokens token)
    (hmarks : SameMarks token s.trace s'.trace)
    (hwent : Went (contents s) (contents s') p q msg)
    (hp : ∀ h k, k.Begun → p = .spot h k → msg.serialToken ≠ some token)
    (hq : ∀ h k, k.Taken → q = .spot h k → msg.serialToken ≠ some token) :
    Serving token s' := by
  refine hserving.frame htokens hmarks (fun r z hz _ => ?_) (fun h k hk z hz htoken => ?_)
    fun h k hk z hz htoken => ?_
  · rcases hwent.mem_before_or_eq hz with hold | ⟨-, rfl⟩
    · exact ⟨r, hold⟩
    · exact ⟨p, hwent.mem_source⟩
  · rcases hwent.mem_before_or_eq hz with hold | ⟨heq, rfl⟩
    · exact hold
    · exact absurd htoken (hq h k hk heq.symm)
  · rcases hwent.mem_after_or_eq hz with hstays | ⟨heq, rfl⟩
    · exact hstays
    · exact absurd htoken (hp h k hk heq.symm)

/-- A message leaves that is not a task of the token the user's code runs. -/
theorem Serving.of_gone (hserving : Serving token s)
    (htokens : s'.tokens token = s.tokens token)
    (hmarks : SameMarks token s.trace s'.trace)
    (hgone : Gone (contents s) (contents s') p msg)
    (hp : ∀ h k, k.Begun → p = .spot h k → msg.serialToken ≠ some token) :
    Serving token s' := by
  refine hserving.frame htokens hmarks (fun r z hz _ => ⟨r, hgone.mem_before hz⟩)
    (fun h k _ z hz _ => hgone.mem_before hz) fun h k hk z hz htoken => ?_
  rcases hgone.mem_after_or_eq hz with hstays | ⟨heq, rfl⟩
  · exact hstays
  · exact absurd htoken (hp h k hk heq.symm)

end

/-- `set_serial_token` of this token. -/
theorem Serving.draw (hserving : Serving token s) {c : C}
    (hbecame : Became (contents s) (contents s') (.caller c) msg
      (msg.setSerialToken s.tokens token).2)
    (htokens : s'.tokens = (msg.setSerialToken s.tokens token).1)
    (htrace : s'.trace = .draw c msg.op token :: s.trace) : Serving token s' := by
  have hdraws : draws token s'.trace = msg.op :: draws token s.trace := by
    rw [htrace]
    simp [draws]
  have hstarts : starts token s'.trace = starts token s.trace := by rw [htrace]; rfl
  have hends : ends token s'.trace = ends token s.trace := by rw [htrace]; rfl
  have hreleases : releases token s'.trace = releases token s.trace := by rw [htrace]; rfl
  have hspot : ∀ h k, contents s' (.spot h k) = contents s (.spot h k) := fun h k =>
    hbecame.others _ fun heq => by cases heq
  have hcounters : s'.tokens token = ⟨(s.tokens token).currentSequence + 1,
      (s.tokens token).executingSequence⟩ := by
    rw [htokens]
    exact Function.update_self ..
  constructor
  · rw [hcounters, hdraws, hserving.current, List.length_cons, UInt64.ofNat_add]
    rfl
  · rw [hcounters, hreleases, hserving.executing]
  · -- the new number is behind all numbers that have been served
    rw [hdraws, hreleases]
    exact hserving.served.trans (List.suffix_cons ..)
  · intro r z hz htoken
    rw [hdraws, hreleases]
    by_cases hr : r = .caller c
    · rw [hr, hbecame.after, List.mem_singleton] at hz
      subst hz
      exact ⟨_, .newest _ _, hserving.served.length_le, hserving.current⟩
    · rw [hbecame.others r hr] at hz
      obtain ⟨n, hturn, hle, hseq⟩ := hserving.waiting r z hz htoken
      exact ⟨n, hturn.cons _, hle, hseq⟩
  · intro h k hk z hz htoken
    rw [hdraws, hreleases]
    exact (hserving.taken h k hk z (hspot h k ▸ hz) htoken).cons _
  · intro h z hz htoken
    rw [hstarts, hends, hreleases]
    exact hserving.running h z (hspot h .running ▸ hz) htoken
  · intro h z hz htoken
    rw [hstarts, hends, hreleases]
    exact hserving.ended h z (hspot h .ended ▸ hz) htoken
  · intro hfree
    rw [hstarts, hends, hreleases]
    exact hserving.free fun h k hk z hz => hfree h k hk z (hspot h k ▸ hz)
  · rw [htrace]
    exact hserving.orderly

section

omit [DecidableEq H]

/-- A task of this token passes `try_acquire`: its number is the one that is
served, so its turn has come. -/
theorem Serving.acquire (hserving : Serving token s) {h : H}
    (hwithin : (draws token s.trace).length < (releases token s.trace).length + 2 ^ 64)
    (hwent : Went (contents s) (contents s') (.spot h .held) (.spot h .acquired) msg)
    (htoken : msg.serialToken = some token) (hacquire : msg.tryAcquire s.tokens = true)
    (htokens : s'.tokens = s.tokens) (htrace : s'.trace = s.trace) : Serving token s' := by
  obtain ⟨n, hturn, hle, hseq⟩ := hserving.waiting _ msg hwent.mem_source htoken
  have hequal : (s.tokens token).executingSequence = msg.sequence := by
    rw [Message.tryAcquire, htoken] at hacquire
    exact of_decide_eq_true hacquire
  -- the wrapped numbers agree, and they are too close to agree by wrapping
  have hnow : n = (releases token s.trace).length := by
    refine ofNat_apart ?_ ?_ ?_
    · have := hturn.lt
      omega
    · omega
    · rw [← hserving.executing, hequal, hseq]
  subst hnow
  have hbefore : ∀ h' k, k ≠ .acquired → ∀ z ∈ contents s' (.spot h' k),
      z ∈ contents s (.spot h' k) := by
    intro h' k hk z hz
    rcases hwent.mem_before_or_eq hz with hold | ⟨heq, -⟩
    · exact hold
    · cases heq
      exact absurd rfl hk
  have hafter : ∀ h' k, k ≠ .held → ∀ z ∈ contents s (.spot h' k),
      z ∈ contents s' (.spot h' k) := by
    intro h' k hk z hz
    rcases hwent.mem_after_or_eq hz with hstays | ⟨heq, -⟩
    · exact hstays
    · cases heq
      exact absurd rfl hk
  constructor
  · rw [htokens, htrace, hserving.current]
  · rw [htokens, htrace, hserving.executing]
  · rw [htrace]
    exact hserving.served
  · intro r z hz hztoken
    rw [htrace]
    rcases hwent.mem_before_or_eq hz with hold | ⟨-, rfl⟩
    · exact hserving.waiting r z hold hztoken
    · exact ⟨_, hturn, hle, hseq⟩
  · intro h' k hk z hz hztoken
    rw [htrace]
    rcases hwent.mem_before_or_eq hz with hold | ⟨-, rfl⟩
    · exact hserving.taken h' k hk z hold hztoken
    · exact hturn
  · intro h' z hz hztoken
    rw [htrace]
    exact hserving.running h' z (hbefore h' .running (by decide) z hz) hztoken
  · intro h' z hz hztoken
    rw [htrace]
    exact hserving.ended h' z (hbefore h' .ended (by decide) z hz) hztoken
  · intro hfree
    rw [htrace]
    refine hserving.free fun h' k hk z hz => hfree h' k hk z (hafter h' k ?_ z hz)
    rintro rfl
    exact hk
  · rw [htrace]
    exact hserving.orderly

/-- Behind a task that has drawn, a caller has drawn for all its posts. -/
theorem Program.drawn (hprogram : Program s) (hcustody : Custody s) {c : C} {op : Nat}
    {later earlier : List Nat} (hposts : posts c token s.trace = later ++ op :: earlier)
    (hop : op ∈ draws token s.trace) :
    ∃ later', drawsBy c token s.trace = later' ++ op :: earlier := by
  have hpending := hprogram c token
  rw [hposts] at hpending
  cases hcall : s.callers c with
  | none =>
      rw [hcall] at hpending
      exact ⟨later, hpending.symm⟩
  | some x =>
      obtain ⟨h, call⟩ := x
      rw [hcall] at hpending
      cases call with
      | setSerialToken old tok =>
          by_cases htok : tok = token
          · -- the post in progress has not drawn yet, so it is not `op`
            have hold : old ∈ contents s (.caller c) := by
              rw [contents_caller hcall]
              exact List.mem_singleton_self old
            have hnone := (hcustody.prepared.toDraw c h old tok hcall).2.2
            have hundrawn := hcustody.undrawn _ old hold hnone token
            rw [Option.elim_some, Call.toDraw, if_pos htok] at hpending
            cases later with
            | nil =>
                cases hpending
                exact absurd hop hundrawn
            | cons y later' => exact ⟨later', (List.cons.inj hpending).2.symm⟩
          · rw [Option.elim_some, Call.toDraw, if_neg htok] at hpending
            exact ⟨later, hpending.symm⟩
      | _ => exact ⟨later, hpending.symm⟩

/-- A task whose turn it is may start when no other one is running. -/
theorem Serving.inTurn (hserving : Serving token s) (hcustody : Custody s)
    (hprogram : Program s)
    (hturn : Turn (draws token s.trace) msg.op (releases token s.trace).length)
    (hends : ends token s.trace = releases token s.trace) : InTurn token msg s.trace := by
  obtain ⟨later, hsplit⟩ := hturn.next hserving.served
  -- what the caller posted before has drawn before, so it is among the ended ones
  refine ⟨⟨later, by rw [hends, hsplit]⟩, fun c later' earlier hposts op hop => ?_⟩
  obtain ⟨later'', hdrawn⟩ := hprogram.drawn hcustody hposts hturn.mem
  have hsub := drawsBy_sublist c token s.trace
  have hnodup := hcustody.drawnOnce token
  rw [hdrawn, hsplit] at hsub
  rw [hsplit] at hnodup
  rw [hends]
  exact behind_of_sublist hsub hnodup op hop

/-- The user's code of a task of this token begins. -/
theorem Serving.begin (hserving : Serving token s) (hcustody : Custody s)
    (hprogram : Program s) {h : H}
    (hwent : Went (contents s) (contents s') (.spot h .acquired) (.spot h .running) msg)
    (htoken : msg.serialToken = some token) (htokens : s'.tokens = s.tokens)
    (htrace : s'.trace = .started msg h :: s.trace) : Serving token s' := by
  -- nobody else has acquired the token
  have halone : ∀ h' k, k.Begun → ∀ z ∈ contents s (.spot h' k),
      z.serialToken ≠ some token := by
    intro h' k hk z hz hztoken
    have htaken : k.Taken := by cases k <;> trivial
    have heq := (hserving.exclusive hcustody htaken (l := .acquired) trivial hz hwent.mem_source
      hztoken htoken).1
    cases heq
    exact hk
  obtain ⟨hstarted, hended⟩ := hserving.free halone
  have hturn := hserving.taken h .acquired trivial msg hwent.mem_source htoken
  have hdraws : draws token s'.trace = draws token s.trace := by rw [htrace]; rfl
  have hends : ends token s'.trace = ends token s.trace := by rw [htrace]; rfl
  have hreleases : releases token s'.trace = releases token s.trace := by rw [htrace]; rfl
  have hstarts : starts token s'.trace = msg.op :: starts token s.trace := by
    rw [htrace]
    simp [starts, Message.ofToken, htoken]
  constructor
  · rw [htokens, hdraws, hserving.current]
  · rw [htokens, hreleases, hserving.executing]
  · rw [hdraws, hreleases]
    exact hserving.served
  · intro r z hz hztoken
    rw [hdraws, hreleases]
    rcases hwent.mem_before_or_eq hz with hold | ⟨-, rfl⟩
    · exact hserving.waiting r z hold hztoken
    · exact hserving.waiting _ z hwent.mem_source hztoken
  · intro h' k hk z hz hztoken
    rw [hdraws, hreleases]
    rcases hwent.mem_before_or_eq hz with hold | ⟨-, rfl⟩
    · exact hserving.taken h' k hk z hold hztoken
    · exact hturn
  · intro h' z hz hztoken
    rw [hstarts, hends, hreleases, hstarted, hended]
    rcases hwent.mem_before_or_eq hz with hold | ⟨-, rfl⟩
    · exact absurd hztoken (halone h' .running trivial z hold)
    · exact ⟨rfl, rfl⟩
  · intro h' z hz hztoken
    rcases hwent.mem_before_or_eq hz with hold | ⟨heq, -⟩
    · exact absurd hztoken (halone h' .ended trivial z hold)
    · cases heq
  · intro hfree
    exact absurd htoken (hfree h .running trivial msg hwent.mem_target)
  · rw [htrace]
    exact ⟨fun _ => hserving.inTurn hcustody hprogram hturn hended, hserving.orderly⟩

/-- The callable of a task of this token ends. -/
theorem Serving.finish (hserving : Serving token s) (hcustody' : Custody s') {h : H}
    {threw : Bool}
    (hwent : Went (contents s) (contents s') (.spot h .running) (.spot h .ended) msg)
    (htoken : msg.serialToken = some token) (htokens : s'.tokens = s.tokens)
    (htrace : s'.trace = .ended msg h threw :: s.trace) : Serving token s' := by
  obtain ⟨hstarted, hended⟩ := hserving.running h msg hwent.mem_source htoken
  have hdraws : draws token s'.trace = draws token s.trace := by rw [htrace]; rfl
  have hstarts : starts token s'.trace = starts token s.trace := by rw [htrace]; rfl
  have hreleases : releases token s'.trace = releases token s.trace := by rw [htrace]; rfl
  have hends : ends token s'.trace = msg.op :: ends token s.trace := by
    rw [htrace]
    simp [ends, Message.ofToken, htoken]
  have htaken : ∀ h' k, k.Taken → ∀ z ∈ contents s' (.spot h' k),
      z.serialToken = some token →
        Turn (draws token s'.trace) z.op (releases token s'.trace).length := by
    intro h' k hk z hz hztoken
    rw [hdraws, hreleases]
    rcases hwent.mem_before_or_eq hz with hold | ⟨-, rfl⟩
    · exact hserving.taken h' k hk z hold hztoken
    · exact hserving.taken h .running trivial z hwent.mem_source hztoken
  constructor
  · rw [htokens, hdraws, hserving.current]
  · rw [htokens, hreleases, hserving.executing]
  · rw [hdraws, hreleases]
    exact hserving.served
  · intro r z hz hztoken
    rw [hdraws, hreleases]
    rcases hwent.mem_before_or_eq hz with hold | ⟨-, rfl⟩
    · exact hserving.waiting r z hold hztoken
    · exact hserving.waiting _ z hwent.mem_source hztoken
  · exact htaken
  · intro h' z hz hztoken
    -- only one task has acquired the token, and it is at `ended` now
    have hsame := (htaken h' .running trivial z hz hztoken).item_unique
      (htaken h .ended trivial msg hwent.mem_target htoken)
    cases (hcustody'.sole.eq_of_key_eq hz hwent.mem_target hsame).1
  · intro h' z hz hztoken
    rw [hstarts, hends, hreleases, hstarted, hended]
    have hsame := (htaken h' .ended trivial z hz hztoken).item_unique
      (htaken h .ended trivial msg hwent.mem_target htoken)
    rw [hsame]
    exact ⟨rfl, rfl⟩
  · intro hfree
    exact absurd htoken (hfree h .ended trivial msg hwent.mem_target)
  · rw [htrace]
    exact hserving.orderly

/-- A task of this token is released, and the next turn begins. -/
theorem Serving.release (hserving : Serving token s) (hcustody : Custody s) {h : H}
    (hgone : Gone (contents s) (contents s') (.spot h .ended) msg)
    (htoken : msg.serialToken = some token) (htokens : s'.tokens = msg.release s.tokens)
    (htrace : s'.trace = .processed msg h :: .released msg h :: s.trace) :
    Serving token s' := by
  obtain ⟨hstarted, hended⟩ := hserving.ended h msg hgone.mem_source htoken
  have hturn := hserving.taken h .ended trivial msg hgone.mem_source htoken
  have hdraws : draws token s'.trace = draws token s.trace := by rw [htrace]; rfl
  have hstarts : starts token s'.trace = starts token s.trace := by rw [htrace]; rfl
  have hends : ends token s'.trace = ends token s.trace := by rw [htrace]; rfl
  have hreleases : releases token s'.trace = msg.op :: releases token s.trace := by
    rw [htrace]
    simp [releases, Message.ofToken, htoken]
  have hcounters : s'.tokens token = ⟨(s.tokens token).currentSequence,
      (s.tokens token).executingSequence + 1⟩ := by
    rw [htokens, Message.release, htoken]
    exact Function.update_self ..
  -- nobody else has acquired the token
  have halone : ∀ h' k, k.Taken → ∀ z ∈ contents s' (.spot h' k),
      z.serialToken ≠ some token := by
    intro h' k hk z hz hztoken
    have hsame := (hserving.taken h' k hk z (hgone.mem_before hz) hztoken).item_unique hturn
    exact hcustody.sole.key_ne_of_gone hgone hz hsame
  constructor
  · rw [hcounters, hdraws, hserving.current]
  · rw [hcounters, hreleases, hserving.executing, List.length_cons, UInt64.ofNat_add]
    rfl
  · obtain ⟨later, hsplit⟩ := hturn.next hserving.served
    rw [hdraws, hreleases, hsplit]
    exact List.suffix_append ..
  · intro r z hz hztoken
    obtain ⟨n, hzturn, hle, hseq⟩ := hserving.waiting r z (hgone.mem_before hz) hztoken
    rw [hdraws, hreleases, List.length_cons]
    refine ⟨n, hzturn, ?_, hseq⟩
    have hne : n ≠ (releases token s.trace).length := by
      rintro rfl
      exact hcustody.sole.key_ne_of_gone hgone hz (hzturn.item_unique hturn)
    omega
  · intro h' k hk z hz hztoken
    exact absurd hztoken (halone h' k hk z hz)
  · intro h' z hz hztoken
    exact absurd hztoken (halone h' .running trivial z hz)
  · intro h' z hz hztoken
    exact absurd hztoken (halone h' .ended trivial z hz)
  · intro _
    rw [hstarts, hends, hreleases]
    exact ⟨hstarted, hended⟩
  · rw [htrace]
    exact hserving.orderly

end

omit [DecidableEq H] [DecidableEq C] [DecidableEq Token] in
theorem Mark.Plain.silent {e : Mark H C Token} (h : e.Plain) : e.Silent token := by
  cases e <;> trivial

section

omit [DecidableEq H] [DecidableEq C]

/-- Only tasks without a timeout carry a token, so none expires. -/
theorem Custody.untimed (hcustody : Custody s) {h : H}
    (hmsg : msg ∈ contents s (.spot h .timerWheel)) : msg.serialToken ≠ some token := by
  intro htoken
  have hserial := hcustody.serial _ msg hmsg (htoken ▸ Option.some_ne_none token)
  exact hserial.2 (hcustody.wheel h msg hmsg)

theorem Custody.callable (hcustody : Custody s) (hmsg : msg ∈ contents s p)
    (htype : msg.type ≠ .callable) : msg.serialToken ≠ some token := by
  intro htoken
  exact htype (hcustody.serial _ msg hmsg (htoken ▸ Option.some_ne_none token)).1

end

omit [DecidableEq H] in
/-- One lemma for the moves of messages. -/
theorem Serving.passage (hserving : Serving token s) (hcustody : Custody s)
    (hcustody' : Custody s') (hprogram : Program s)
    (hwithin : (draws token s.trace).length < (releases token s.trace).length + 2 ^ 64)
    {es : List (Mark H C Token)} (hwent : Went (contents s) (contents s') p q msg)
    (hpass : Passage s a es p q msg) (htokens : s'.tokens = s.tokens)
    (htrace : s'.trace = es ++ s.trace) : Serving token s' := by
  have htokens' := congrFun htokens token
  by_cases htoken : msg.serialToken = some token
  · cases hpass with
    | acquire h _ _ hacquire =>
        exact hserving.acquire hwithin hwent htoken hacquire htokens htrace
    | begin h _ => exact hserving.begin hcustody hprogram hwent htoken htokens htrace
    | finish h _ threw => exact hserving.finish hcustody' hwent htoken htokens htrace
    | expire h _ => exact absurd htoken (hcustody.untimed hwent.mem_source)
    | _ =>
        -- the message stays in front of `try_acquire`
        refine hserving.of_went htokens' (htrace ▸ .append ?_) hwent ?_ ?_
        · intro e he
          first
            | (cases he; done)
            | (rw [List.mem_singleton.mp he]; trivial)
        · intro h' k hk heq
          first
            | (cases heq; exact hk.elim)
            | cases heq
        · intro h' k hk heq
          cases heq
          exact hk.elim
  · refine hserving.of_went htokens' (htrace ▸ .append ?_) hwent (fun _ _ _ _ => htoken)
      fun _ _ _ _ => htoken
    intro e he
    cases hpass <;> first
      | (cases he; done)
      | (rw [List.mem_singleton.mp he]; first | exact htoken | trivial)

omit [DecidableEq H] in
/-- One lemma for the messages that leave. -/
theorem Serving.exit (hserving : Serving token s) (hcustody : Custody s)
    {es : List (Mark H C Token)} {tokens : Token → SerialToken}
    (hgone : Gone (contents s) (contents s') p msg) (hexit : Exit s a es tokens p msg)
    (htokens : s'.tokens = tokens) (htrace : s'.trace = es ++ s.trace) :
    Serving token s' := by
  cases hexit with
  | refusePost c h _ _ _ _ =>
      refine hserving.of_gone (congrFun htokens token) (htrace ▸ .append ?_) hgone
        fun h' k _ heq => nomatch heq
      intro e he
      rw [List.mem_singleton.mp he]
      trivial
  | refuse h choice d _ _ _ _ =>
      refine hserving.of_gone (congrFun htokens token) (htrace ▸ .append ?_) hgone ?_
      · intro e he
        cases he
      · intro h' k hk heq
        cases heq
        exact hk.elim
  | stopLoop h _ htype =>
      have hother : msg.serialToken ≠ some token :=
        hcustody.callable hgone.mem_source (by rw [htype]; decide)
      refine hserving.of_gone (congrFun htokens token) (htrace ▸ .append ?_) hgone
        fun _ _ _ _ => hother
      intro e he
      rw [List.mem_singleton.mp he]
      trivial
  | finishPayload h _ threw htype =>
      have hother : msg.serialToken ≠ some token := hcustody.callable hgone.mem_source htype
      refine hserving.of_gone (congrFun htokens token) (htrace ▸ .append ?_) hgone
        fun _ _ _ _ => hother
      intro e he
      rcases List.mem_cons.mp he with rfl | he
      · trivial
      · rw [List.mem_singleton.mp he]
        exact hother
  | release h _ =>
      by_cases htoken : msg.serialToken = some token
      · exact hserving.release hcustody hgone htoken htokens htrace
      · have hsame : s'.tokens token = s.tokens token := by
          rw [htokens, Message.release]
          cases hserial : msg.serialToken with
          | none => rfl
          | some tok =>
              have hne : token ≠ tok := fun heq => htoken (heq ▸ hserial)
              exact Function.update_of_ne hne ..
        refine hserving.of_gone hsame (htrace ▸ .append ?_) hgone fun _ _ _ _ => htoken
        intro e he
        rcases List.mem_cons.mp he with rfl | he
        · trivial
        · rw [List.mem_singleton.mp he]
          exact htoken

theorem Serving.step (hserving : Serving token s) (hcustody : Custody s)
    (hprogram : Program s)
    (hwithin : (draws token s.trace).length < (releases token s.trace).length + 2 ^ 64)
    (hstep : Dispatch.step s a = some s') : Serving token s' := by
  cases step_flow hstep with
  | stay es hsame hplain htokens htrace =>
      refine hserving.frame (congrFun htokens token)
        (htrace ▸ .append fun e he => (hplain e he).silent) ?_ ?_ ?_
      · exact fun r z hz _ => ⟨r, hsame r ▸ hz⟩
      · exact fun h k _ z hz _ => hsame _ ▸ hz
      · exact fun h k _ z hz _ => (hsame _).symm ▸ hz
  | come c new e hcome _ hnone _ hplain htokens htrace =>
      have hold : ∀ r, ∀ z ∈ contents s' r, z.serialToken = some token →
          z ∈ contents s r := by
        intro r z hz htoken
        rcases hcome.mem_before_or_eq hz with hold | ⟨-, rfl⟩
        · exact hold
        · rw [hnone] at htoken
          cases htoken
      refine hserving.frame (congrFun htokens token)
        (htrace ▸ .append fun e' he' => ?_) ?_ ?_ ?_
      · rw [List.mem_singleton.mp he']
        exact hplain.silent
      · exact fun r z hz htoken => ⟨r, hold r z hz htoken⟩
      · exact fun h k _ z hz htoken => hold _ z hz htoken
      · exact fun h k _ z hz _ => hcome.mem_after hz
  | draw c h old tok _ _ hbecame htokens htrace =>
      by_cases htok : tok = token
      · subst htok
        exact hserving.draw hbecame htokens htrace
      · have hspot : ∀ h k, contents s' (.spot h k) = contents s (.spot h k) :=
          fun h k => hbecame.others _ fun heq => by cases heq
        refine hserving.frame ?_ (htrace ▸ .append fun e he => ?_) ?_ ?_ ?_
        · rw [htokens]
          exact Function.update_of_ne (Ne.symm htok) ..
        · rw [List.mem_singleton.mp he]
          exact htok
        · intro r z hz htoken
          by_cases hr : r = .caller c
          · rw [hr, hbecame.after, List.mem_singleton] at hz
            rw [hz] at htoken
            cases htoken
            exact absurd rfl htok
          · exact ⟨r, hbecame.others r hr ▸ hz⟩
        · exact fun h k _ z hz _ => hspot h k ▸ hz
        · exact fun h k _ z hz _ => (hspot h k).symm ▸ hz
  | went es p q msg hwent hpass htokens htrace =>
      exact hserving.passage hcustody (hcustody.step hstep) hprogram hwithin hwent hpass
        htokens htrace
  | gone es tokens p msg hgone hexit htokens htrace =>
      exact hserving.exit hcustody hgone hexit htokens htrace

section

omit [DecidableEq H]

theorem Serving.initial (token : Token) :
    Serving token (Dispatch.initial : State H C Token) where
  current := rfl
  executing := rfl
  served := List.suffix_rfl
  waiting p msg hmsg := by
    rw [contents_initial] at hmsg
    cases hmsg
  taken h k _ msg hmsg := by
    rw [contents_initial] at hmsg
    cases hmsg
  running h msg hmsg := nomatch hmsg
  ended h msg hmsg := nomatch hmsg
  free _ := ⟨rfl, rfl⟩
  orderly := trivial

/-- Tasks have started in the order in which they drew their numbers. -/
theorem Serving.started (hserving : Serving token s) :
    starts token s.trace <:+ draws token s.trace := by
  by_cases hfree : ∀ h k, k.Begun → ∀ msg ∈ contents s (.spot h k),
      msg.serialToken ≠ some token
  · rw [(hserving.free hfree).1]
    exact hserving.served
  · simp only [not_forall, not_not] at hfree
    obtain ⟨h, k, hk, msg, hmsg, htoken⟩ := hfree
    have hstarts : starts token s.trace = msg.op :: releases token s.trace := by
      cases k with
      | running => exact (hserving.running h msg hmsg htoken).1
      | ended => exact (hserving.ended h msg hmsg htoken).1
      | _ => exact hk.elim
    have htaken : k.Taken := by cases k <;> trivial
    obtain ⟨later, hsplit⟩ := (hserving.taken h k htaken msg hmsg htoken).next hserving.served
    rw [hstarts, hsplit]
    exact List.suffix_append ..

end

/-! ## The result -/

/-- A token never draws fewer numbers. -/
theorem draws_mono (token : Token) (hstep : Dispatch.step s a = some s') :
    (draws token s.trace).length ≤ (draws token s'.trace).length := by
  obtain ⟨es, htrace⟩ := (step_flow hstep).trace
  rw [htrace, draws_append, List.length_append]
  omega

theorem reachable_serving (hreach : machine.Reachable s)
    (hdraws : (draws token s.trace).length < 2 ^ 64) : Serving token s := by
  induction hreach with
  | start hs => exact hs ▸ Serving.initial token
  | step hbefore _ hstep ih =>
      -- a run that ends within the bound was within it all along
      have hmono := draws_mono token hstep
      exact (ih (by omega)).step (reachable_custody hbefore) (reachable_program hbefore)
        (by omega) hstep

/-- Tasks of a serial token run one at a time, each at most once, in the order in
which they drew their numbers, and in particular in the order in which a caller
posted them. -/
theorem serial_order (hreach : machine.Reachable s)
    (hdraws : (draws token s.trace).length < 2 ^ 64) : SerialOrder token s := by
  have hserving := reachable_serving hreach hdraws
  have hcustody := reachable_custody hreach
  refine ⟨fun g h k l m n hk hl hm hn hmtoken hntoken => ?_, ?_, ?_⟩
  · obtain ⟨hplace, hsame⟩ := hserving.exclusive hcustody hk hl hm hn hmtoken hntoken
    cases hplace
    exact ⟨rfl, hsame⟩
  · exact hserving.started.sublist.nodup (hcustody.drawnOnce token)
  · exact fun msg h l hsuffix htoken => hserving.orderly.inTurn hsuffix htoken

/-- Two tasks of one token on two threads: the second thread puts its task back
until the first one has been released. -/
def twoTasks : List (Action Bool Unit Unit) :=
  List.flatten [
    [.postSerial () false ()], List.replicate 4 (.call ()),
    [.postSerial () true ()], List.replicate 4 (.call ()),
    List.replicate 7 (.thread false .run), List.replicate 8 (.thread true .run),
    List.replicate 2 (.thread false .run),
    [.thread false (.finish true), .thread false .run],
    List.replicate 9 (.thread true .run),
    [.thread true (.finish false), .thread true .run]]

theorem serial_order_run :
    ∃ s : State Bool Unit Unit, machine.exec initial twoTasks = some s ∧
      starts () s.trace = [4, 0] ∧ SerialOrder () s := by
  obtain ⟨s, hrun, hstarts, hdraws⟩ : ∃ s : State Bool Unit Unit,
      machine.exec initial twoTasks = some s ∧ starts () s.trace = [4, 0] ∧
        (draws () s.trace).length < 2 ^ 64 := ⟨_, rfl, rfl, by decide⟩
  exact ⟨s, hrun, hstarts, serial_order (.of_exec rfl hrun) hdraws⟩

end Dispatch
end Cyan

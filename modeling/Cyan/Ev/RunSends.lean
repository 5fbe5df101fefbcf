import Cyan.Base.Headcount
import Cyan.Base.Tally
import Cyan.Ev.RunCalls
import Cyan.Ev.RunWake

/-!
# No call without a send

Every call of the callback of an async watcher answers a call of `ev_async_send`
of its own.  Several sends may be answered by one call, but none is answered twice
(`State.calls_le_sends`).  A send that has not been answered is with the thread that
makes it, in `sent`, or in the queue (`State.owed`).
-/

namespace Cyan
namespace Ev

open Base

variable {Thread ι T : Type*} [DecidableEq Thread] [DecidableEq ι]
variable [LinearOrder T] [Add T] [Sub T] [Zero T]

namespace Loop

variable {l l' : Loop ι T} {w v : ι}

instance : Decidable (l.Hailed w) :=
  inferInstanceAs (Decidable (_ ∧ _))

/-- The sends to `w` that the loop has to answer: one in `sent`, and one in the queue. -/
def owed (l : Loop ι T) (w : ι) : Nat :=
  (decide (l.Hailed w)).toNat + (decide (l.queue.pending (.async w) ≠ 0)).toNat

theorem decide_toNat_le {P Q : Prop} [Decidable P] [Decidable Q] (h : P → Q) :
    (decide P).toNat ≤ (decide Q).toNat := by
  by_cases hP : P
  · simp [hP, h hP]
  · simp [hP]

omit [DecidableEq ι] [LinearOrder T] [Add T] [Sub T] [Zero T] in
theorem owed_le (hhailed : l'.Hailed w → l.Hailed w)
    (hpending : l'.queue.pending (.async w) ≠ 0 → l.queue.pending (.async w) ≠ 0) :
    l'.owed w ≤ l.owed w :=
  Nat.add_le_add (decide_toNat_le hhailed) (decide_toNat_le hpending)

omit [LinearOrder T] [Add T] [Sub T] [Zero T] in
/-- `pipecb` moves a send from `sent` to the queue. -/
theorem pipecbStep_owed (hv : l.asyncs.active v ≠ 0) (w : ι) :
    (l.pipecbStep v).owed w ≤ l.owed w := by
  by_cases hsent : l.sent v = true
  · have hstep : l.pipecbStep v =
        { l with sent := Function.update l.sent v false }.feedEvent (.async v) evAsync :=
      if_pos hsent
    by_cases hwv : w = v
    · subst hwv
      have hbefore : l.Hailed w := ⟨hv, hsent⟩
      have hafter : ¬(l.pipecbStep w).Hailed w := fun h => by
        have hset : (l.pipecbStep w).sent w = true := h.2
        rw [hstep] at hset
        change Function.update l.sent w false w = true at hset
        rw [Function.update_self] at hset
        cases hset
      have hle := Bool.toNat_le (decide ((l.pipecbStep w).queue.pending (.async w) ≠ 0))
      rw [owed, owed, decide_eq_true hbefore, decide_eq_false hafter, Bool.toNat_true,
        Bool.toNat_false]
      omega
    · rw [hstep]
      refine owed_le (fun h => ⟨h.1, ?_⟩) fun h => ?_
      · have hset : Function.update l.sent v false w = true := h.2
        rwa [Function.update_of_ne hwv] at hset
      · have hne : Watcher.async w ≠ (.async v : Watcher ι) := fun heq => hwv (by cases heq; rfl)
        change (l.queue.feedEvent (.async v) evAsync).pending (.async w) ≠ 0 at h
        rwa [Queue.feedEvent_pending_of_ne hne] at h
  · have hstep : l.pipecbStep v = l := if_neg hsent
    rw [hstep]

end Loop

namespace State

variable {s s' s₀ : State Thread ι T} {cfg : Config T} {eventfd : Bool} {a : Action Thread ι T}
variable {as : List (Action Thread ι T)} {w v : ι} {t : Thread} {p : Send} {now : T}

/-- The callback of the async watcher `w` begins. -/
def callsAsync (w : ι) (s : State Thread ι T) : Action Thread ι T → State Thread ι T → Bool
  | .next _, s' =>
      match s.pc, s'.pc with
      | .invoke _, .callback (.async v) _ _ => v = w
      | _, _ => false
  | _, _ => false

/-- A thread calls `ev_async_send` for `w`. -/
def sendsAsync (w : ι) (_ : State Thread ι T) : Action Thread ι T → State Thread ι T → Bool
  | .send _ v, _ => v = w
  | _, _ => false

/-- A thread has called `ev_async_send` for `w`, and has not set `sent`. -/
def beginsSend (w : ι) : Option (ι × Send) → Bool
  | some (v, .sent) => v = w
  | _ => false

/-- The sends that the callback of `w` may still answer. -/
noncomputable def owed (s : State Thread ι T) (w : ι) : Nat :=
  headcount (beginsSend w) s.sending + s.loop.owed w

/-- Finitely many threads call `ev_async_send` at a time. -/
theorem beginsSend_finite (h : Reachable cfg eventfd s) (w : ι) :
    (standing (beginsSend w) s.sending).Finite := by
  refine (Machine.ReachableUnder.invariant
    (I := fun s => s.Inv ∧ (standing (beginsSend w) s.sending).Finite) (fun s hs => ?_)
    (fun s a s' hI ha hstep => ⟨hI.1.step ha hstep, ?_⟩) h).2
  · obtain ⟨garbage, mnNow, rfl⟩ := hs
    refine ⟨.init garbage mnNow, ?_⟩
    rw [standing_eq_empty fun _ => rfl]
    exact Set.finite_empty
  · cases hI.1.shares ha hstep with
    | quiet hq =>
        rw [hq.sending]
        exact hI.2
    | send v ht => exact standing_update_finite hI.2 _ _
    | thread ht => exact standing_update_finite hI.2 _ _
    | @pipecb q next now hpc =>
        have hsending : (s.stepPipecb eventfd next q).sending = s.sending := by
          unfold stepPipecb
          split <;> rfl
        rw [hsending]
        exact hI.2

/-- The callback has been pending. -/
theorem pending_of_callsAsync (hinv : s.Inv) (hstep : s.step cfg eventfd a = some s')
    (hcalls : callsAsync w s a s' = true) :
    s.loop.queue.pending (.async w) ≠ 0 ∧ s'.loop.queue.pending (.async w) = 0 := by
  cases a with
  | next now =>
      unfold callsAsync at hcalls
      dsimp only at hcalls
      split at hcalls
      · rename_i next v events next' hpc hpc'
        have hv : v = w := of_decide_eq_true hcalls
        subst hv
        obtain ⟨q, htake, hloop⟩ := begins_inv hpc hstep (.inl ⟨next', hpc'⟩)
        refine ⟨hinv.ok.manned.sound.pending_of_mem
          (List.mem_map_of_mem (Queue.mem_agenda_of_takePending htake)), ?_⟩
        rw [hloop]
        exact (Queue.takePending_pending htake).2.2 _ rfl
      · cases hcalls
  | _ => cases hcalls

/-- A step that the threads do not notice calls back only who has been pending. -/
theorem Inv.owed_quiet (hinv : s.Inv) (ha : s.Allowed a) (hstep : s.step cfg eventfd a = some s')
    (hq : Quiet s a s') : (callsAsync w s a s').toNat + s'.owed w ≤ s.owed w := by
  have hhailed := Loop.decide_toNat_le (hq.sent w)
  unfold owed Loop.owed
  rw [hq.sending]
  by_cases hcalls : callsAsync w s a s' = true
  · obtain ⟨hbefore, hafter⟩ := pending_of_callsAsync hinv hstep hcalls
    rw [hcalls, decide_eq_true hbefore, decide_eq_false (not_not.mpr hafter), Bool.toNat_true,
      Bool.toNat_false]
    omega
  · have hpending := Loop.decide_toNat_le (P := s'.loop.queue.pending (.async w) ≠ 0)
      (Q := s.loop.queue.pending (.async w) ≠ 0) fun hafter hbefore => by
        cases hinv.rises ha hstep hbefore hafter with
        | async hpc hsent =>
            have hpipes := hq.pipes
            rw [hpc] at hpipes
            cases hpipes
    rw [Bool.eq_false_of_not_eq_true hcalls, Bool.toNat_false]
    omega

omit [DecidableEq Thread] [Add T] [Sub T] [Zero T] in
theorem Inv.owed_pipecb {q : PipePc ι} {next : Next} (hinv : s.Inv)
    (hpc : s.pc = .pipecb q next) : (s.stepPipecb eventfd next q).owed w ≤ s.owed w := by
  cases q with
  | scan ws =>
      cases ws with
      | nil => exact le_rfl
      | cons v ws =>
          have hstage := hinv.stage
          unfold Stage at hstage
          rw [hpc] at hstage
          exact Nat.add_le_add_left (Loop.pipecbStep_owed (hstage v List.mem_cons_self) w) _
  | _ => exact le_rfl

section

omit [LinearOrder T] [Add T] [Sub T] [Zero T]

/-- A thread sets `sent` once in a call of `ev_async_send`. -/
theorem owed_thread (hfin : (standing (beginsSend w) s.sending).Finite)
    (ht : s.sending t = some (v, p)) :
    owed { s with
      loop := (stepSend s.loop v p).1
      sending := Function.update s.sending t ((stepSend s.loop v p).2.map (v, ·)) } w ≤
        s.owed w := by
  have hmoved := headcount_update hfin t ((stepSend s.loop v p).2.map (v, ·))
  rw [ht] at hmoved
  have hnone : beginsSend w ((stepSend s.loop v p).2.map (v, ·)) = false := by
    cases p <;> simp only [stepSend] <;> (try split) <;> rfl
  rw [hnone, Bool.toNat_false, Nat.add_zero] at hmoved
  unfold owed
  dsimp only
  cases p with
  | sent =>
      have hself : beginsSend w (some (v, Send.sent)) = decide (v = w) := rfl
      rw [hself] at hmoved
      by_cases hvw : v = w
      · have hle : (stepSend s.loop v .sent).1.owed w ≤ s.loop.owed w + 1 := by
          have hone := Bool.toNat_le (decide ((stepSend s.loop v .sent).1.Hailed w))
          unfold Loop.owed at *
          change _ + (decide (s.loop.queue.pending (.async w) ≠ 0)).toNat ≤ _
          omega
        rw [decide_eq_true hvw, Bool.toNat_true] at hmoved
        omega
      · have hle : (stepSend s.loop v .sent).1.owed w ≤ s.loop.owed w := by
          refine Loop.owed_le (fun h => ⟨h.1, ?_⟩) id
          have hset : Function.update s.loop.sent v true w = true := h.2
          rwa [Function.update_of_ne (Ne.symm hvw)] at hset
        rw [decide_eq_false hvw, Bool.toNat_false] at hmoved
        omega
  | _ =>
      refine Nat.add_le_add ?_ (Loop.owed_le id id)
      exact Nat.le_of_eq hmoved

/-- A call of `ev_async_send` begins. -/
theorem owed_send (hfin : (standing (beginsSend w) s.sending).Finite) (ht : s.sending t = none) :
    owed { s with sending := Function.update s.sending t (some (v, .sent)) } w =
      s.owed w + (sendsAsync w s (.send t v) s').toNat := by
  have hmoved := headcount_update hfin t (some (v, Send.sent))
  rw [ht] at hmoved
  have hnone : beginsSend w (none : Option (ι × Send)) = false := rfl
  have hself : beginsSend w (some (v, Send.sent)) = sendsAsync w s (.send t v) s' := rfl
  rw [hnone, hself, Bool.toNat_false, Nat.add_zero] at hmoved
  unfold owed
  dsimp only
  omega

end

/-- A call of the callback is paid for by what is owed, which a send adds to. -/
theorem owed_step (h : Reachable cfg eventfd s) (ha : s.Allowed a)
    (hstep : s.step cfg eventfd a = some s') (w : ι) :
    (callsAsync w s a s').toNat + s'.owed w ≤ s.owed w + (sendsAsync w s a s').toNat := by
  have hinv := Inv.of_reachable h
  have hfin := beginsSend_finite h w
  have hnot : s.pc.pipes = true ∨ (∀ now, a ≠ .next now) → callsAsync w s a s' = false := by
    intro hnot
    cases a with
    | next now =>
        have hpipes := hnot.resolve_right fun hne => hne now rfl
        unfold callsAsync
        dsimp only
        split
        · rename_i hpc _
          rw [hpc] at hpipes
          cases hpipes
        · rfl
    | _ => rfl
  cases hinv.shares ha hstep with
  | quiet hq => exact (hinv.owed_quiet ha hstep hq).trans (Nat.le_add_right ..)
  | send v ht =>
      rw [hnot (.inr fun _ h => by cases h), Bool.toNat_false, Nat.zero_add]
      exact Nat.le_of_eq (owed_send hfin ht)
  | thread ht =>
      rw [hnot (.inr fun _ h => by cases h), Bool.toNat_false, Nat.zero_add]
      exact (owed_thread hfin ht).trans (Nat.le_add_right ..)
  | pipecb hpc =>
      rw [hnot (.inl (by rw [hpc]; rfl)), Bool.toNat_false, Nat.zero_add]
      exact (hinv.owed_pipecb hpc).trans (Nat.le_add_right ..)

/-- A run calls back an async watcher at most as often as it has been sent to. -/
theorem calls_le_sends (h₀ : Reachable cfg eventfd s₀)
    (hrun : (contract cfg eventfd).exec s₀ as = some s) (w : ι) :
    (contract cfg eventfd).tally (callsAsync w) as s₀ + s.owed w ≤
      s₀.owed w + (contract cfg eventfd).tally (sendsAsync w) as s₀ := by
  refine Machine.tally_add_le (fun s => s.owed w) (fun s a s' hs hstep => ?_)
    (fun s a s' hs hstep => ?_) h₀ hrun
  · obtain ⟨hallowed, hstep⟩ := Machine.restrict_step.mp hstep
    exact hs.step hallowed hstep
  · obtain ⟨hallowed, hstep⟩ := Machine.restrict_step.mp hstep
    exact owed_step hs hallowed hstep w

theorem calls_le_sends_run :
    (contract plain true).tally (callsAsync false)
        (.event 9 evRead :: List.replicate 16 (.next 1)) asyncSent + asyncAnswered.owed false ≤
      asyncSent.owed false + (contract plain true).tally (sendsAsync false)
        (.event 9 evRead :: List.replicate 16 (.next 1)) asyncSent := by
  have hrun : (contract plain true).exec asyncSent
      (.event 9 evRead :: List.replicate 16 (.next 1)) = some asyncAnswered :=
    exec_contract (Option.some_get _).symm
  exact calls_le_sends asyncSent_reachable hrun false

end State
end Ev
end Cyan

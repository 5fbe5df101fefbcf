import Cyan.Event.TimerWheel

/-!
# The steps of the timer wheel

* The equations of the calls, and `BookMove` and `Move`, which say once what a step of
  `bookkeeper` and of the whole wheel can do.
* `Stored` is what the two containers keep in any run: the multimap is sorted, and
  neither container holds a request or an id twice.
-/

namespace Cyan
namespace Event
namespace TimerWheel

open Base

variable {w w' : TimerWheel}

/-! ## What the calls do -/

section Calls

variable {id : UInt64} {r : Nat}

theorem cancel_of_find (h : w.find id = some r) :
    w.cancel id = (w.modify r { w.request r with isCancelled := true }, none) := by
  rw [cancel, h]

theorem cancel_of_none (h : w.find id = none) :
    w.cancel id = (w, some "timer_wheel::cancel: request id not found") := by
  rw [cancel, h]

theorem reset_of_find (h : w.find id = some r) :
    w.reset id = (w.modify r { w.request r with
      expiry := w.getAbsoluteExpiry (ofMilliseconds (w.request r).timeout) }, none) := by
  rw [reset, h]

theorem reset_of_none (h : w.find id = none) :
    w.reset id = (w, some "timer_wheel::reset: request id not found") := by
  rw [reset, h]

/-- Only a request is changed. -/
theorem cancel_eq (w : TimerWheel) (id : UInt64) :
    (w.cancel id).1 = { w with request := (w.cancel id).1.request } := by
  unfold cancel
  split <;> rfl

/-- Only a request is changed. -/
theorem reset_eq (w : TimerWheel) (id : UInt64) :
    (w.reset id).1 = { w with request := (w.reset id).1.request } := by
  unfold reset
  split <;> rfl

@[simp] theorem modify_self (w : TimerWheel) (r : Nat) (req : Request) :
    (w.modify r req).request r = req :=
  Function.update_self ..

theorem modify_of_ne {q : Nat} (h : q ≠ r) (w : TimerWheel) (req : Request) :
    (w.modify r req).request q = w.request q :=
  Function.update_of_ne h ..

theorem start_eq (w : TimerWheel) :
    w.start = { w with
      timerActive := w.timerActive || (!w.requests.isEmpty && w.timerRepeat ≠ 0) } := by
  have hsame : ∀ active, w.timerActive = active → w = { w with timerActive := active } := by
    rintro active rfl
    rfl
  unfold start timerStart
  cases hempty : w.requests.isEmpty with
  | true => simp
  | false =>
      cases hactive : w.timerActive with
      | true => simpa using hsame _ hactive
      | false =>
          by_cases hrepeat : w.timerRepeat = 0
          · simpa [hrepeat] using hsame _ hactive
          · simp [hrepeat]

@[simp] theorem start_posts (w : TimerWheel) : w.start.posts = w.posts := by
  rw [start_eq]

section Post

variable (w : TimerWheel) (timeout : Int)

@[simp] theorem post_posts : (w.post timeout).posts = w.posts + 1 := by
  rw [post, start_eq]

@[simp] theorem post_requestId : (w.post timeout).requestId = w.requestId + 1 := by
  rw [post, start_eq]

@[simp] theorem post_clock : (w.post timeout).clock = w.clock := by
  rw [post, start_eq]

@[simp] theorem post_pc : (w.post timeout).pc = w.pc := by
  rw [post, start_eq]

@[simp] theorem post_trace :
    (w.post timeout).trace = .post w.posts w.requestId :: w.trace := by
  rw [post, start_eq]

theorem post_requests :
    (w.post timeout).requests = emplaceRequest w.requests w.requestId w.posts := by
  rw [post, start_eq]

theorem post_timeHiearchy :
    (w.post timeout).timeHiearchy =
      Multimap.emplace (w.getAbsoluteExpiry timeout) w.posts w.timeHiearchy := by
  rw [post, start_eq]

theorem post_request :
    (w.post timeout).request = Function.update w.request w.posts {
      id := w.requestId
      isCancelled := false
      timeout := toMilliseconds timeout
      expiry := w.getAbsoluteExpiry timeout } := by
  rw [post, start_eq]

end Post

/-- A request keeps its id when it is changed in place. -/
theorem modify_id {req : Request} (hid : req.id = (w.request r).id) (q : Nat) :
    ((w.modify r req).request q).id = (w.request q).id := by
  by_cases hq : q = r
  · subst hq
    rw [modify_self, hid]
  · rw [modify_of_ne hq]

end Calls

/-! ## What a step of `bookkeeper` does -/

/-- The steps of `bookkeeper`, one constructor for each way through the loop. -/
inductive BookMove (w : TimerWheel) : TimerWheel → Prop
  | atEnd {now : Int} (hpc : w.pc = .loop now none) :
      BookMove w { w with pc := .finish }
  | stale {now : Int} {i : Nat} {entry : Int × Nat} (hpc : w.pc = .loop now (some i))
      (hentry : Multimap.find i w.timeHiearchy = some entry)
      (hkey : (w.request i).expiry ≠ entry.1) :
      BookMove w { w with
        timeHiearchy := Multimap.emplace (w.request i).expiry i
          (Multimap.erase i w.timeHiearchy) }
  | due {now : Int} {i : Nat} {entry : Int × Nat} (hpc : w.pc = .loop now (some i))
      (hentry : Multimap.find i w.timeHiearchy = some entry)
      (hkey : (w.request i).expiry = entry.1) (hdue : entry.1 ≤ now)
      (hcancelled : (w.request i).isCancelled = false) :
      BookMove w { w with
        pc := .process now i
        trace := .started i (w.request i).id :: w.trace }
  | dueCancelled {now : Int} {i : Nat} {entry : Int × Nat}
      (hpc : w.pc = .loop now (some i))
      (hentry : Multimap.find i w.timeHiearchy = some entry)
      (hkey : (w.request i).expiry = entry.1) (hdue : entry.1 ≤ now)
      (hcancelled : (w.request i).isCancelled = true) :
      BookMove w { w with pc := .eraseRequest now i }
  | notDue {now : Int} {i : Nat} {entry : Int × Nat} (hpc : w.pc = .loop now (some i))
      (hentry : Multimap.find i w.timeHiearchy = some entry)
      (hkey : (w.request i).expiry = entry.1) (hdue : now < entry.1) :
      BookMove w { w with pc := .finish }
  | processed {now : Int} {i : Nat} (hpc : w.pc = .process now i) :
      BookMove w { w with pc := .eraseRequest now i }
  | eraseRequest {now : Int} {i : Nat} (hpc : w.pc = .eraseRequest now i) :
      BookMove w { w with
        requests := w.requests.eraseP (·.1 = (w.request i).id)
        pc := .eraseEntry now i
        trace := .retired i (w.request i).id :: w.trace }
  | eraseEntry {now : Int} {i : Nat} (hpc : w.pc = .eraseEntry now i) :
      BookMove w { w with
        timeHiearchy := Multimap.erase i w.timeHiearchy
        pc := .loop now (Multimap.next i w.timeHiearchy) }
  | finish (active : Bool) (hpc : w.pc = .finish)
      (hactive : active = w.timerActive ∨ w.timeHiearchy = []) :
      BookMove w { w with timerActive := active, pc := .idle }

theorem stepBookkeeper_move (hstep : w.stepBookkeeper = some w') : BookMove w w' := by
  unfold TimerWheel.stepBookkeeper at hstep
  split at hstep
  · cases hstep
  · cases hstep
    exact .atEnd ‹_›
  · rename_i now i hpc
    obtain ⟨entry, hentry, rfl⟩ := Option.map_eq_some_iff.mp hstep
    split
    · exact .stale hpc hentry ‹_›
    · rename_i hkey
      have hkey : (w.request i).expiry = entry.1 := not_not.mp hkey
      split
      · rename_i hdue
        have hdue : entry.1 ≤ now := by omega
        split
        · rename_i hcancelled
          exact .due hpc hentry hkey hdue (by simpa using hcancelled)
        · rename_i hcancelled
          exact .dueCancelled hpc hentry hkey hdue (by simpa using hcancelled)
      · exact .notDue hpc hentry hkey (by omega)
  · cases hstep
    exact .processed ‹_›
  · cases hstep
    exact .eraseRequest ‹_›
  · cases hstep
    exact .eraseEntry ‹_›
  · rename_i hpc
    cases hstep
    split
    · rename_i hempty
      exact .finish false hpc (.inr (List.isEmpty_iff.mp hempty))
    · exact .finish w.timerActive hpc (.inl rfl)

/-- The steps of the wheel and its user. -/
inductive Move (w : TimerWheel) : Action → TimerWheel → Prop
  | post (timeout : Int) (hcall : w.callable = true) : Move w (.post timeout) (w.post timeout)
  | cancel (id : UInt64) : Move w (.cancel id) (record (w.cancel id) (.cancelled id))
  | reset (id : UInt64) : Move w (.reset id) (record (w.reset id) (.reset id))
  | start : Move w .start w.start
  | stop : Move w .stop w.stop
  | wait (d : Nat) : Move w (.wait d) { w with clock := w.clock + d }
  | tick (hpc : w.pc = .idle) : Move w .tick w.beginBookkeeper
  | run {w' : TimerWheel} (hmove : BookMove w w') : Move w .run w'

theorem step_move {a : Action} (hstep : step w a = some w') : Move w a w' := by
  cases a with
  | wait d =>
      cases hstep
      exact .wait d
  | tick =>
      simp only [step] at hstep
      split at hstep
      · rename_i hpc
        split at hstep <;> cases hstep
        exact .tick hpc
      · cases hstep
  | run => exact .run (stepBookkeeper_move hstep)
  | post timeout =>
      simp only [step] at hstep
      split at hstep
      · cases hstep
        exact .post timeout ‹_›
      · cases hstep
  | cancel id =>
      simp only [step] at hstep
      split at hstep <;> cases hstep
      exact .cancel id
  | reset id =>
      simp only [step] at hstep
      split at hstep <;> cases hstep
      exact .reset id
  | start =>
      simp only [step] at hstep
      split at hstep <;> cases hstep
      exact .start
  | stop =>
      simp only [step] at hstep
      split at hstep <;> cases hstep
      exact .stop

/-! ## What is stored -/

/-- The requests of the map. -/
def pendingRequests (w : TimerWheel) : List Nat :=
  w.requests.map Prod.snd

/-- Erasing an id leaves the other ids. -/
theorem mem_eraseP {requests : List (UInt64 × Nat)} {id : UInt64} {x : UInt64 × Nat}
    (hids : (requests.map Prod.fst).Nodup) :
    x ∈ requests.eraseP (·.1 = id) ↔ x ∈ requests ∧ x.1 ≠ id := by
  induction requests with
  | nil => simp
  | cons y requests ih =>
      obtain ⟨hnew, hrest⟩ := List.nodup_cons.mp hids
      by_cases hy : y.1 = id
      · rw [List.eraseP_cons_of_pos (by simpa using hy), List.mem_cons]
        constructor
        · intro hx
          refine ⟨.inr hx, fun heq => hnew ?_⟩
          rw [hy, ← heq]
          exact List.mem_map_of_mem hx
        · rintro ⟨rfl | hx, hne⟩
          · exact absurd hy hne
          · exact hx
      · rw [List.eraseP_cons_of_neg (by simpa using hy), List.mem_cons, List.mem_cons, ih hrest]
        constructor
        · rintro (rfl | ⟨hx, hne⟩)
          · exact ⟨.inl rfl, hy⟩
          · exact ⟨.inr hx, hne⟩
        · rintro ⟨rfl | hx, hne⟩
          · exact .inl rfl
          · exact .inr ⟨hx, hne⟩

/-- Both containers hold requests that have been made, each once, the map under their
ids and the multimap in order.  This holds for any number of posts. -/
structure Stored (w : TimerWheel) : Prop where
  sorted : Multimap.Sorted w.timeHiearchy
  once : (Multimap.values w.timeHiearchy).Nodup
  old : ∀ r ∈ Multimap.values w.timeHiearchy, r < w.posts
  oldPending : ∀ r ∈ w.pendingRequests, r < w.posts
  keyed : ∀ x ∈ w.requests, x.1 = (w.request x.2).id
  ids : (w.requests.map Prod.fst).Nodup

namespace Stored

/-- The operation leaves the containers, the ids and the numbers alone. -/
theorem frame (h : Stored w) (hrequests : w'.requests = w.requests)
    (htime : w'.timeHiearchy = w.timeHiearchy)
    (hid : ∀ r, (w'.request r).id = (w.request r).id) (hposts : w'.posts = w.posts) :
    Stored w' where
  sorted := htime ▸ h.sorted
  once := htime ▸ h.once
  old r hr := hposts ▸ h.old r (htime ▸ hr)
  oldPending r hr := by
    rw [pendingRequests, hrequests] at hr
    exact hposts ▸ h.oldPending r hr
  keyed x hx := (h.keyed x (hrequests ▸ hx)).trans (hid x.2).symm
  ids := hrequests ▸ h.ids

theorem modify (h : Stored w) (r : Nat) (req : Request)
    (hid : req.id = (w.request r).id) : Stored (w.modify r req) :=
  h.frame rfl rfl (modify_id hid) rfl

theorem start (h : Stored w) : Stored w.start := by
  rw [start_eq]
  exact h.frame rfl rfl (fun _ => rfl) rfl

theorem cancel (h : Stored w) (id : UInt64) : Stored (w.cancel id).1 := by
  unfold TimerWheel.cancel
  split
  · exact h.modify _ _ rfl
  · exact h

theorem reset (h : Stored w) (id : UInt64) : Stored (w.reset id).1 := by
  unfold TimerWheel.reset
  split
  · exact h.modify _ _ rfl
  · exact h

/-- The map takes a new request unless its id is taken. -/
theorem mem_emplaceRequest {requests : List (UInt64 × Nat)} {id : UInt64} {r : Nat}
    {x : UInt64 × Nat} (hx : x ∈ emplaceRequest requests id r) :
    x = (id, r) ∨ x ∈ requests := by
  unfold emplaceRequest at hx
  split at hx
  · exact .inr hx
  · exact List.mem_cons.mp hx

theorem post (h : Stored w) (timeout : Int) : Stored (w.post timeout) where
  sorted := by
    rw [post_timeHiearchy]
    exact Multimap.sorted_emplace h.sorted
  once := by
    rw [post_timeHiearchy, (Multimap.values_emplace ..).nodup_iff]
    exact List.nodup_cons.mpr ⟨fun hmem => Nat.lt_irrefl _ (h.old _ hmem), h.once⟩
  old r hr := by
    rw [post_timeHiearchy] at hr
    rw [post_posts]
    rcases List.mem_cons.mp ((Multimap.values_emplace ..).subset hr) with rfl | hr
    · exact Nat.lt_succ_self _
    · exact Nat.lt_succ_of_lt (h.old r hr)
  oldPending r hr := by
    rw [pendingRequests, post_requests] at hr
    rw [post_posts]
    obtain ⟨x, hx, rfl⟩ := List.mem_map.mp hr
    rcases mem_emplaceRequest hx with rfl | hx
    · exact Nat.lt_succ_self _
    · exact Nat.lt_succ_of_lt (h.oldPending x.2 (List.mem_map_of_mem hx))
  keyed x hx := by
    rw [post_requests] at hx
    rw [post_request]
    rcases mem_emplaceRequest hx with rfl | hx
    · rw [Function.update_self]
    · have hold := h.oldPending x.2 (List.mem_map_of_mem hx)
      rw [Function.update_of_ne (Nat.ne_of_lt hold)]
      exact h.keyed x hx
  ids := by
    rw [post_requests, emplaceRequest]
    split
    · exact h.ids
    · rename_i hfree
      refine List.nodup_cons.mpr ⟨fun hmem => hfree ?_, h.ids⟩
      obtain ⟨x, hx, hkey⟩ := List.mem_map.mp hmem
      exact List.any_eq_true.mpr ⟨x, hx, by simpa using hkey⟩

theorem find_mem {m : List (Int × Nat)} {i : Nat} {entry : Int × Nat}
    (hentry : Multimap.find i m = some entry) : i ∈ Multimap.values m := by
  have hkey : entry.2 = i := by simpa using List.find?_some hentry
  rw [← hkey]
  exact List.mem_map_of_mem (List.mem_of_find?_eq_some hentry)

/-- The multimap holds the same requests after one has been put in its new place. -/
theorem values_reinsert {m : List (Int × Nat)} {i : Nat} (expiry : Int)
    (hi : i ∈ Multimap.values m) :
    (Multimap.values (Multimap.emplace expiry i (Multimap.erase i m))).Perm
      (Multimap.values m) :=
  (Multimap.values_emplace ..).trans (Multimap.perm_erase hi).symm

theorem bookkeeper (h : Stored w) (hmove : BookMove w w') : Stored w' := by
  cases hmove with
  | @stale now i entry hpc hentry hkey =>
      have hperm := values_reinsert (w.request i).expiry (find_mem hentry)
      exact { h with
        sorted := Multimap.sorted_emplace (Multimap.sorted_erase h.sorted)
        once := hperm.nodup_iff.mpr h.once
        old := fun r hr => h.old r (hperm.subset hr) }
  | @eraseRequest now i hpc =>
      have hsub : (w.requests.eraseP (·.1 = (w.request i).id)).Sublist w.requests :=
        List.eraseP_sublist
      exact { h with
        oldPending := fun r hr => h.oldPending r ((hsub.map _).subset hr)
        keyed := fun x hx => h.keyed x (hsub.subset hx)
        ids := h.ids.sublist (hsub.map _) }
  | @eraseEntry now i hpc =>
      have hsub : (Multimap.erase i w.timeHiearchy).Sublist w.timeHiearchy :=
        List.eraseP_sublist
      exact { h with
        sorted := Multimap.sorted_erase h.sorted
        once := h.once.sublist (hsub.map _)
        old := fun r hr => h.old r ((hsub.map _).subset hr) }
  | _ => exact h.frame rfl rfl (fun _ => rfl) rfl

theorem move {a : Action} (h : Stored w) (hmove : Move w a w') : Stored w' := by
  cases hmove with
  | post timeout => exact h.post timeout
  | cancel id => exact (h.cancel id).frame rfl rfl (fun _ => rfl) rfl
  | reset id => exact (h.reset id).frame rfl rfl (fun _ => rfl) rfl
  | start => exact h.start
  | stop => exact h.frame rfl rfl (fun _ => rfl) rfl
  | wait d => exact h.frame rfl rfl (fun _ => rfl) rfl
  | tick hpc => exact h.frame rfl rfl (fun _ => rfl) rfl
  | run hmove => exact h.bookkeeper hmove

end Stored

theorem stored (hreach : machine.Reachable w) : Stored w := by
  refine hreach.invariant ?_ fun w a w' h _ hstep => h.move (step_move hstep)
  rintro w ⟨clock, res, rfl⟩
  exact {
    sorted := List.Pairwise.nil
    once := List.nodup_nil
    old := fun _ hr => nomatch hr
    oldPending := fun _ hr => nomatch hr
    keyed := fun _ hx => nomatch hx
    ids := List.nodup_nil }

end TimerWheel
end Event
end Cyan

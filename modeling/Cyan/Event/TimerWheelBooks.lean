import Mathlib.Data.UInt
import Cyan.Event.TimerWheelMoves

/-!
# The books of the timer wheel

The map `requests` and the multimap `time_hiearchy` are changed by different
operations, and a request's expiry drifts away from its key, but they hold the same
requests.

* `Containers` is the invariant of the two containers and the iterator of
  `bookkeeper`.
* `History` ties the trace to the containers: what has been posted, what has been
  retired, which callbacks have begun, and who has been cancelled.
* `books_kept` reads the promises of the wheel off the two.
-/

namespace Cyan
namespace Event
namespace TimerWheel

open Base

variable {w w' : TimerWheel}

/-! ## The iterator -/

/-- The request that `bookkeeper` has in hand. -/
def Pc.iterator : Pc → Option Nat
  | .loop _ i => i
  | .process _ i => some i
  | .eraseRequest _ i => some i
  | .eraseEntry _ i => some i
  | _ => none

/-- The iterator points to an entry of the multimap. -/
def Pointed (w : TimerWheel) : Prop :=
  ∀ i ∈ w.pc.iterator, i ∈ Multimap.values w.timeHiearchy

namespace Pointed

theorem frame (h : Pointed w) (hpc : w'.pc = w.pc) (htime : w'.timeHiearchy = w.timeHiearchy) :
    Pointed w' := by
  intro i hi
  rw [hpc] at hi
  rw [htime]
  exact h i hi

theorem post (h : Pointed w) (timeout : Int) : Pointed (w.post timeout) := by
  intro i hi
  rw [post_pc] at hi
  rw [post_timeHiearchy]
  exact (Multimap.values_emplace ..).symm.subset (List.mem_cons_of_mem _ (h i hi))

theorem beginBookkeeper (w : TimerWheel) : Pointed w.beginBookkeeper := by
  intro i hi
  have hi : i ∈ (Multimap.values w.timeHiearchy).head? := hi
  exact List.mem_of_mem_head? hi

theorem bookkeeper (h : Pointed w) (hmove : BookMove w w') : Pointed w' := by
  cases hmove with
  | @stale now i entry hpc hentry hkey =>
      have hperm := Stored.values_reinsert (w.request i).expiry (Stored.find_mem hentry)
      exact fun j hj => hperm.symm.subset (h j hj)
  | due hpc hentry hkey hdue hcancelled => exact fun j hj => h j (by rw [hpc]; exact hj)
  | dueCancelled hpc hentry hkey hdue hcancelled =>
      exact fun j hj => h j (by rw [hpc]; exact hj)
  | processed hpc => exact fun j hj => h j (by rw [hpc]; exact hj)
  | eraseRequest hpc => exact fun j hj => h j (by rw [hpc]; exact hj)
  | eraseEntry hpc =>
      -- the iterator moves on to the entry behind
      exact fun j hj => Multimap.mem_erase_of_next (h _ (by rw [hpc]; rfl)) hj
  | _ => exact fun j hj => nomatch hj

theorem move {a : Action} (h : Pointed w) (hmove : Move w a w') : Pointed w' := by
  cases hmove with
  | post timeout => exact h.post timeout
  | cancel id =>
      rw [record, cancel_eq]
      exact h.frame rfl rfl
  | reset id =>
      rw [record, reset_eq]
      exact h.frame rfl rfl
  | start =>
      rw [start_eq]
      exact h.frame rfl rfl
  | tick hpc => exact .beginBookkeeper w
  | run hmove => exact h.bookkeeper hmove
  | _ => exact h.frame rfl rfl

end Pointed

/-! ## The containers -/

/-- Both containers hold the same requests, numbered by their ids, and the iterator
points to one of them. -/
structure Containers (w : TimerWheel) : Prop extends Stored w where
  same : (w.pc.retiring.toList ++ w.pendingRequests).Perm
    (Multimap.values w.timeHiearchy)
  numbered : ∀ r, r < w.posts → (w.request r).id = UInt64.ofNat r
  nextId : w.requestId = UInt64.ofNat w.posts
  iterator : ∀ i ∈ w.pc.iterator, i ∈ Multimap.values w.timeHiearchy

theorem ofNat_inj {r q : Nat} (hr : r < 2 ^ 64) (hq : q < 2 ^ 64)
    (h : UInt64.ofNat r = UInt64.ofNat q) : r = q := by
  have h := congrArg UInt64.toNat h
  rwa [UInt64.toNat_ofNat', UInt64.toNat_ofNat', Nat.mod_eq_of_lt hr,
    Nat.mod_eq_of_lt hq] at h

namespace Containers

theorem mem_values (h : Containers w) {r : Nat} (hr : r ∈ w.pendingRequests) :
    r ∈ Multimap.values w.timeHiearchy :=
  h.same.subset (List.mem_append_right _ hr)

/-- A request of the map stands under its number. -/
theorem key (h : Containers w) {x : UInt64 × Nat} (hx : x ∈ w.requests) :
    x.1 = UInt64.ofNat x.2 ∧ x.2 < w.posts := by
  have hold := h.old x.2 (h.mem_values (List.mem_map_of_mem hx))
  exact ⟨(h.keyed x hx).trans (h.numbered x.2 hold), hold⟩

/-- The operation leaves the containers, the ids and the numbers alone. -/
theorem frame (h : Containers w) (hrequests : w'.requests = w.requests)
    (htime : w'.timeHiearchy = w.timeHiearchy)
    (hid : ∀ r, (w'.request r).id = (w.request r).id) (hposts : w'.posts = w.posts)
    (hnext : w'.requestId = w.requestId) (hretiring : w'.pc.retiring = w.pc.retiring)
    (hiterator : ∀ i ∈ w'.pc.iterator, i ∈ Multimap.values w.timeHiearchy) :
    Containers w' where
  toStored := h.toStored.frame hrequests htime hid hposts
  same := by
    rw [pendingRequests, hrequests, htime, hretiring]
    exact h.same
  numbered r hr := (hid r).trans (h.numbered r (hposts ▸ hr))
  nextId := by rw [hnext, hposts, h.nextId]
  iterator i hi := htime ▸ hiterator i hi

theorem modify (h : Containers w) (r : Nat) (req : Request)
    (hid : req.id = (w.request r).id) : Containers (w.modify r req) :=
  h.frame rfl rfl (modify_id hid) rfl rfl rfl h.iterator

/-- The id of a new request is not taken. -/
theorem fresh (h : Containers w) (hposts : w.posts < 2 ^ 64) (r : Nat) :
    emplaceRequest w.requests w.requestId r = (w.requestId, r) :: w.requests := by
  refine if_neg ?_
  intro hany
  obtain ⟨x, hx, hkey⟩ := List.any_eq_true.mp hany
  obtain ⟨hid, hold⟩ := h.key hx
  have hsame : UInt64.ofNat x.2 = UInt64.ofNat w.posts := by
    rw [← hid, ← h.nextId]
    simpa using hkey
  have := ofNat_inj (by omega) hposts hsame
  omega

theorem post (h : Containers w) (hposts : w.posts < 2 ^ 64) (timeout : Int) :
    Containers (w.post timeout) where
  toStored := h.toStored.post timeout
  same := by
    rw [post_pc]
    simp only [pendingRequests, post_requests, post_timeHiearchy, h.fresh hposts]
    refine List.Perm.trans ?_ (Multimap.values_emplace ..).symm
    exact List.perm_middle.trans (h.same.cons _)
  numbered r hr := by
    rw [post_request]
    rw [post_posts] at hr
    by_cases hlast : r = w.posts
    · subst hlast
      rw [Function.update_self]
      exact h.nextId
    · rw [Function.update_of_ne hlast]
      exact h.numbered r (by omega)
  nextId := by
    rw [post_requestId, post_posts, h.nextId]
    simp
  iterator := Pointed.post h.iterator timeout

theorem cancel (h : Containers w) (id : UInt64) : Containers (w.cancel id).1 := by
  unfold TimerWheel.cancel
  split
  · exact h.modify _ _ rfl
  · exact h

theorem reset (h : Containers w) (id : UInt64) : Containers (w.reset id).1 := by
  unfold TimerWheel.reset
  split
  · exact h.modify _ _ rfl
  · exact h

/-- `requests.erase(id)` takes out the request itself. -/
theorem perm_eraseP (h : Containers w) (hposts : w.posts < 2 ^ 64) {i : Nat}
    (hi : i ∈ w.pendingRequests) :
    w.pendingRequests.Perm
      (i :: (w.requests.eraseP (·.1 = (w.request i).id)).map Prod.snd) := by
  obtain ⟨x, hx, rfl⟩ := List.mem_map.mp hi
  have hkey : decide (x.1 = (w.request x.2).id) = true := by simp [h.keyed x hx]
  obtain ⟨y, before, behind, -, hy, hsplit, herase⟩ :=
    List.exists_of_eraseP (p := (·.1 = (w.request x.2).id)) hx hkey
  have hymem : y ∈ w.requests := by
    rw [hsplit]
    exact List.mem_append_right _ (List.mem_cons_self ..)
  -- the entry that is found has the same id, so it is the same request
  have hsame : y.2 = x.2 := by
    obtain ⟨hyid, hyold⟩ := h.key hymem
    obtain ⟨hxid, hxold⟩ := h.key hx
    refine ofNat_inj (by omega) (by omega) ?_
    rw [← hyid, ← hxid, h.keyed x hx]
    simpa using hy
  rw [herase, pendingRequests, hsplit, List.map_append, List.map_append, List.map_cons, hsame]
  exact List.perm_middle

theorem beginBookkeeper (h : Containers w) (hpc : w.pc = .idle) :
    Containers w.beginBookkeeper :=
  h.frame rfl rfl (fun _ => rfl) rfl rfl (by rw [hpc]; rfl) (Pointed.beginBookkeeper w)

theorem bookkeeper (h : Containers w) (hposts : w.posts < 2 ^ 64)
    (hmove : BookMove w w') : Containers w' := by
  have hstored := h.toStored.bookkeeper hmove
  have hpointed := Pointed.bookkeeper h.iterator hmove
  cases hmove with
  | @stale now i entry hpc hentry hkey =>
      have hperm := Stored.values_reinsert (w.request i).expiry (Stored.find_mem hentry)
      exact { hstored with
        same := h.same.trans hperm.symm
        numbered := h.numbered
        nextId := h.nextId
        iterator := hpointed }
  | eraseRequest hpc =>
      have hi := h.iterator _ (by rw [hpc]; rfl)
      have hsame := h.same
      rw [hpc] at hsame
      exact { hstored with
        same := (h.perm_eraseP hposts (hsame.symm.subset hi)).symm.trans hsame
        numbered := h.numbered
        nextId := h.nextId
        iterator := hpointed }
  | @eraseEntry now i hpc =>
      have hi := h.iterator i (by rw [hpc]; rfl)
      have hsame := h.same
      rw [hpc] at hsame
      exact { hstored with
        same := (hsame.trans (Multimap.perm_erase hi)).cons_inv
        numbered := h.numbered
        nextId := h.nextId
        iterator := hpointed }
  | atEnd hpc => exact h.frame rfl rfl (fun _ => rfl) rfl rfl (by rw [hpc]; rfl) hpointed
  | due hpc => exact h.frame rfl rfl (fun _ => rfl) rfl rfl (by rw [hpc]; rfl) hpointed
  | dueCancelled hpc => exact h.frame rfl rfl (fun _ => rfl) rfl rfl (by rw [hpc]; rfl) hpointed
  | notDue hpc => exact h.frame rfl rfl (fun _ => rfl) rfl rfl (by rw [hpc]; rfl) hpointed
  | processed hpc => exact h.frame rfl rfl (fun _ => rfl) rfl rfl (by rw [hpc]; rfl) hpointed
  | finish active hpc => exact h.frame rfl rfl (fun _ => rfl) rfl rfl (by rw [hpc]; rfl) hpointed

theorem move {a : Action} (h : Containers w) (hposts : w.posts < 2 ^ 64)
    (hmove : Move w a w') : Containers w' := by
  cases hmove with
  | post timeout => exact h.post hposts timeout
  | cancel id => exact (h.cancel id).frame rfl rfl (fun _ => rfl) rfl rfl rfl (h.cancel id).iterator
  | reset id => exact (h.reset id).frame rfl rfl (fun _ => rfl) rfl rfl rfl (h.reset id).iterator
  | start =>
      rw [start_eq]
      exact h.frame rfl rfl (fun _ => rfl) rfl rfl rfl h.iterator
  | stop => exact h.frame rfl rfl (fun _ => rfl) rfl rfl rfl h.iterator
  | wait d => exact h.frame rfl rfl (fun _ => rfl) rfl rfl rfl h.iterator
  | tick hpc => exact h.beginBookkeeper hpc
  | run hmove => exact h.bookkeeper hposts hmove

end Containers

theorem BookMove.posts (hmove : BookMove w w') : w'.posts = w.posts := by
  cases hmove <;> rfl

/-- The number of requests only grows. -/
theorem Move.posts_le {a : Action} (hmove : Move w a w') : w.posts ≤ w'.posts := by
  cases hmove with
  | run hmove => exact Nat.le_of_eq hmove.posts.symm
  | post timeout =>
      rw [post_posts]
      exact Nat.le_succ _
  | cancel id => rw [record, cancel_eq]
  | reset id => rw [record, reset_eq]
  | start => exact Nat.le_of_eq (start_posts w).symm
  | _ => exact Nat.le_refl _

/-! ## The history -/

/-- A mark that `History` does not speak of. -/
def Mark.silent : Mark → Bool
  | .reset _ => true
  | .threw _ => true
  | _ => false

/-- The callback that has begun. -/
def Mark.started? : Mark → Option Nat
  | .started r _ => some r
  | _ => none

/-- The request in the turn of its callback, until it leaves `requests`. -/
def Pc.calling : Pc → Option Nat
  | .process _ i => some i
  | .eraseRequest _ i => some i
  | _ => none

/-- What the two marks may be, the later one first: a callback begins once, and not
behind a `cancel` of its id. -/
def Quiet (later earlier : Mark) : Prop :=
  ∀ r id, later = .started r id → earlier.started? ≠ some r ∧ earlier ≠ .cancelled id

/-- What the trace says about the requests. -/
structure History (w : TimerWheel) : Prop where
  posted : ∀ r id, .post r id ∈ w.trace ↔ r < w.posts ∧ id = UInt64.ofNat r
  retired : ∀ r id, .retired r id ∈ w.trace ↔
    r < w.posts ∧ id = UInt64.ofNat r ∧ r ∉ w.pendingRequests
  started : ∀ r id, .started r id ∈ w.trace →
    r < w.posts ∧ (r ∈ w.pendingRequests → w.pc.calling = some r)
  cancelled : ∀ id, .cancelled id ∈ w.trace →
    ∃ r, r < w.posts ∧ id = UInt64.ofNat r ∧ (w.request r).isCancelled = true
  quiet : w.trace.Pairwise Quiet

theorem mem_skip {m n : Mark} {tr : List Mark} (h : n ≠ m) : n ∈ m :: tr ↔ n ∈ tr :=
  ⟨fun hmem => (List.mem_cons.mp hmem).resolve_left h, List.mem_cons_of_mem _⟩

namespace History

/-- The operation neither records anything nor moves a request between the
containers. -/
theorem frame (h : History w) (htrace : w'.trace = w.trace)
    (hrequests : w'.requests = w.requests) (hposts : w'.posts = w.posts)
    (hcancelled : ∀ r, (w.request r).isCancelled = true →
      (w'.request r).isCancelled = true)
    (hcalling : ∀ r ∈ w.pendingRequests, w.pc.calling = some r →
      w'.pc.calling = some r) : History w' where
  posted r id := by rw [htrace, hposts, h.posted]
  retired r id := by rw [htrace, hposts, pendingRequests, hrequests, h.retired]; rfl
  started r id hmem := by
    rw [htrace] at hmem
    obtain ⟨hold, hcall⟩ := h.started r id hmem
    rw [pendingRequests, hrequests, hposts]
    exact ⟨hold, fun hpending => hcalling r hpending (hcall hpending)⟩
  cancelled id hmem := by
    rw [htrace] at hmem
    obtain ⟨r, hold, hid, hmark⟩ := h.cancelled id hmem
    exact ⟨r, hposts ▸ hold, hid, hcancelled r hmark⟩
  quiet := htrace ▸ h.quiet

/-- A mark that only says how a call ended. -/
theorem silent (h : History w) {m : Mark} (hm : m.silent = true) :
    History { w with trace := m :: w.trace } := by
  have hskip : ∀ n : Mark, n.silent = false → (n ∈ m :: w.trace ↔ n ∈ w.trace) := by
    intro n hn
    refine mem_skip ?_
    rintro rfl
    rw [hm] at hn
    cases hn
  refine {
    posted := fun r id => (hskip _ rfl).trans (h.posted r id)
    retired := fun r id => (hskip _ rfl).trans (h.retired r id)
    started := fun r id hmem => h.started r id ((hskip _ rfl).mp hmem)
    cancelled := fun id hmem => h.cancelled id ((hskip _ rfl).mp hmem)
    quiet := List.pairwise_cons.mpr ⟨fun n _ r id heq => ?_, h.quiet⟩ }
  subst heq
  cases hm

/-- `cancel` found the request and has returned. -/
theorem cancelledMark (h : History w) {r : Nat} (hold : r < w.posts)
    (hmark : (w.request r).isCancelled = true) :
    History { w with trace := .cancelled (UInt64.ofNat r) :: w.trace } where
  posted q id := (mem_skip (by simp)).trans (h.posted q id)
  retired q id := (mem_skip (by simp)).trans (h.retired q id)
  started q id hmem := h.started q id ((mem_skip (by simp)).mp hmem)
  cancelled id hmem := by
    rcases List.mem_cons.mp hmem with heq | hmem
    · cases heq
      exact ⟨r, hold, rfl, hmark⟩
    · exact h.cancelled id hmem
  quiet := List.pairwise_cons.mpr ⟨fun _ _ _ _ heq => (by cases heq), h.quiet⟩

end History

/-- Two requests are looked up under different ids. -/
theorem Containers.find_eq_some (h : Containers w) {id : UInt64} {r : Nat}
    (hfind : w.find id = some r) :
    r ∈ w.pendingRequests ∧ r < w.posts ∧ id = UInt64.ofNat r := by
  obtain ⟨x, hx, rfl⟩ := Option.map_eq_some_iff.mp hfind
  have hmem := List.mem_of_find?_eq_some hx
  have hkey : x.1 = id := by simpa using List.find?_some hx
  obtain ⟨hid, hold⟩ := h.key hmem
  exact ⟨List.mem_map_of_mem hmem, hold, hkey.symm.trans hid⟩

/-- A request that is in the map is found. -/
theorem Containers.find_of_mem (h : Containers w) {r : Nat}
    (hr : r ∈ w.pendingRequests) : ∃ q, w.find (UInt64.ofNat r) = some q := by
  obtain ⟨x, hx, rfl⟩ := List.mem_map.mp hr
  have hsome : (w.requests.find? (·.1 = UInt64.ofNat x.2)).isSome := by
    rw [List.find?_isSome]
    exact ⟨x, hx, by simpa using (h.key hx).1⟩
  obtain ⟨y, hy⟩ := Option.isSome_iff_exists.mp hsome
  exact ⟨y.2, by rw [find, hy]; rfl⟩

namespace History

theorem modify (h : History w) (r : Nat) (req : Request)
    (hkeep : (w.request r).isCancelled = true → req.isCancelled = true) :
    History (w.modify r req) := by
  refine h.frame rfl rfl rfl (fun q hq => ?_) fun _ _ hcall => hcall
  by_cases hqr : q = r
  · subst hqr
    rw [modify_self]
    exact hkeep hq
  · rw [modify_of_ne hqr]
    exact hq

theorem post (h : History w) (hc : Containers w) (hposts : w.posts < 2 ^ 64)
    (timeout : Int) : History (w.post timeout) := by
  have hpending : ∀ r, r ∈ (w.post timeout).pendingRequests ↔
      r = w.posts ∨ r ∈ w.pendingRequests := by
    intro r
    rw [pendingRequests, post_requests, hc.fresh hposts, List.map_cons, List.mem_cons]
    rfl
  refine {
    posted := fun r id => ?_, retired := fun r id => ?_, started := fun r id hmem => ?_
    cancelled := fun id hmem => ?_, quiet := ?_ }
  · rw [post_trace, post_posts, List.mem_cons, h.posted, Mark.post.injEq, hc.nextId]
    constructor
    · rintro (⟨rfl, rfl⟩ | ⟨hold, hid⟩)
      · exact ⟨Nat.lt_succ_self _, rfl⟩
      · exact ⟨Nat.lt_succ_of_lt hold, hid⟩
    · rintro ⟨hold, rfl⟩
      by_cases hr : r = w.posts
      · exact .inl ⟨hr, by rw [hr]⟩
      · exact .inr ⟨by omega, rfl⟩
  · rw [post_trace, post_posts, mem_skip (by simp), h.retired, hpending, not_or]
    constructor
    · rintro ⟨hold, hid, hgone⟩
      exact ⟨Nat.lt_succ_of_lt hold, hid, Nat.ne_of_lt hold, hgone⟩
    · rintro ⟨hold, hid, hr, hgone⟩
      exact ⟨by omega, hid, hgone⟩
  · rw [post_trace, mem_skip (by simp)] at hmem
    obtain ⟨hold, hcall⟩ := h.started r id hmem
    rw [post_posts, post_pc, hpending]
    refine ⟨Nat.lt_succ_of_lt hold, fun hmem => ?_⟩
    rcases hmem with rfl | hmem
    · exact absurd hold (Nat.lt_irrefl _)
    · exact hcall hmem
  · rw [post_trace, mem_skip (by simp)] at hmem
    obtain ⟨r, hold, hid, hmark⟩ := h.cancelled id hmem
    rw [post_posts, post_request]
    refine ⟨r, Nat.lt_succ_of_lt hold, hid, ?_⟩
    rw [Function.update_of_ne (Nat.ne_of_lt hold)]
    exact hmark
  · rw [post_trace]
    exact List.pairwise_cons.mpr ⟨fun _ _ _ _ heq => (by cases heq), h.quiet⟩

theorem cancel (h : History w) (hc : Containers w) (id : UInt64) :
    History (record (w.cancel id) (.cancelled id)) := by
  cases hfind : w.find id with
  | none =>
      rw [cancel_of_none hfind]
      exact h.silent (m := .threw _) rfl
  | some r =>
      rw [cancel_of_find hfind]
      obtain ⟨-, hold, rfl⟩ := hc.find_eq_some hfind
      have hmark := h.modify r { w.request r with isCancelled := true } fun _ => rfl
      exact hmark.cancelledMark hold (by rw [modify_self])

theorem reset (h : History w) (id : UInt64) :
    History (record (w.reset id) (.reset id)) := by
  cases hfind : w.find id with
  | none =>
      rw [reset_of_none hfind]
      exact h.silent (m := .threw _) rfl
  | some r =>
      rw [reset_of_find hfind]
      have hlater := h.modify r { w.request r with
        expiry := w.getAbsoluteExpiry (ofMilliseconds (w.request r).timeout) }
        fun hmark => hmark
      exact hlater.silent (m := .reset id) rfl

/-- A callback begins: its request is still in the map, so it has not begun before,
and nobody has cancelled it. -/
theorem due (h : History w) (hc : Containers w) (hposts : w.posts < 2 ^ 64) {now : Int}
    {i : Nat} (hpc : w.pc = .loop now (some i))
    (hcancelled : (w.request i).isCancelled = false) :
    History { w with
      pc := .process now i
      trace := .started i (w.request i).id :: w.trace } := by
  have hvalue : i ∈ Multimap.values w.timeHiearchy := hc.iterator i (by rw [hpc]; rfl)
  have hold := hc.old i hvalue
  have hpending : i ∈ w.pendingRequests := by
    have hsame := hc.same
    rw [hpc] at hsame
    exact hsame.symm.subset hvalue
  have hnone : w.pc.calling = none := by rw [hpc]; rfl
  have hfirst : ∀ id, .started i id ∉ w.trace := by
    intro id hmem
    have hcall := (h.started i id hmem).2 hpending
    rw [hnone] at hcall
    cases hcall
  refine {
    posted := fun r id => ?_, retired := fun r id => ?_, started := fun r id hmem => ?_
    cancelled := fun id hmem => ?_, quiet := List.pairwise_cons.mpr ⟨?_, h.quiet⟩ }
  · exact (mem_skip (by simp)).trans (h.posted r id)
  · exact (mem_skip (by simp)).trans (h.retired r id)
  · rcases List.mem_cons.mp hmem with heq | hmem
    · cases heq
      exact ⟨hold, fun _ => rfl⟩
    · obtain ⟨hr, hcall⟩ := h.started r id hmem
      refine ⟨hr, fun hmem => ?_⟩
      have hcall := hcall hmem
      rw [hnone] at hcall
      cases hcall
  · rcases List.mem_cons.mp hmem with heq | hmem
    · cases heq
    · exact h.cancelled id hmem
  · intro earlier hmem r id heq
    cases heq
    constructor
    · intro hstarted
      cases earlier <;> cases hstarted
      exact hfirst _ hmem
    · rintro rfl
      obtain ⟨q, hq, hid, hmark⟩ := h.cancelled _ hmem
      have hsame : i = q :=
        ofNat_inj (by omega) (by omega) ((hc.numbered i hold).symm.trans hid)
      rw [hsame, hmark] at hcancelled
      cases hcancelled

/-- A request leaves the map. -/
theorem eraseRequest (h : History w) (hc : Containers w) (hposts : w.posts < 2 ^ 64)
    {now : Int} {i : Nat} (hpc : w.pc = .eraseRequest now i) :
    History { w with
      requests := w.requests.eraseP (·.1 = (w.request i).id)
      pc := .eraseEntry now i
      trace := .retired i (w.request i).id :: w.trace } := by
  have hvalue : i ∈ Multimap.values w.timeHiearchy := hc.iterator i (by rw [hpc]; rfl)
  have hold := hc.old i hvalue
  have hsame := hc.same
  rw [hpc] at hsame
  have hperm := hc.perm_eraseP hposts (hsame.symm.subset hvalue)
  have honce := List.nodup_cons.mp (hperm.nodup_iff.mp (hsame.nodup_iff.mpr hc.once))
  refine {
    posted := fun r id => ?_, retired := fun r id => ?_, started := fun r id hmem => ?_
    cancelled := fun id hmem => ?_, quiet := List.pairwise_cons.mpr ⟨?_, h.quiet⟩ }
  · exact (mem_skip (by simp)).trans (h.posted r id)
  · show _ ↔ r < w.posts ∧ _ ∧ r ∉ (w.requests.eraseP _).map Prod.snd
    rw [List.mem_cons, h.retired, Mark.retired.injEq, hc.numbered i hold, hperm.mem_iff,
      List.mem_cons, not_or]
    constructor
    · rintro (⟨rfl, rfl⟩ | ⟨hr, hid, -, hgone⟩)
      · exact ⟨hold, rfl, (hc.numbered r hold) ▸ honce.1⟩
      · exact ⟨hr, hid, (hc.numbered i hold) ▸ hgone⟩
    · rintro ⟨hr, rfl, hgone⟩
      by_cases heq : r = i
      · exact .inl ⟨heq, by rw [heq]⟩
      · exact .inr ⟨hr, rfl, heq, (hc.numbered i hold) ▸ hgone⟩
  · rcases List.mem_cons.mp hmem with heq | hmem
    · cases heq
    · obtain ⟨hr, hcall⟩ := h.started r id hmem
      refine ⟨hr, fun hmem => ?_⟩
      -- it was the request in hand, and that one is gone
      have hcall := hcall (hperm.symm.subset (List.mem_cons_of_mem _ hmem))
      rw [hpc] at hcall
      cases hcall
      exact absurd hmem honce.1
  · rcases List.mem_cons.mp hmem with heq | hmem
    · cases heq
    · exact h.cancelled id hmem
  · intro _ _ _ _ heq
    cases heq

theorem bookkeeper (h : History w) (hc : Containers w) (hposts : w.posts < 2 ^ 64)
    (hmove : BookMove w w') : History w' := by
  have hgoto : ∀ k, (∀ r, w.pc.calling = some r → k.calling = some r) →
      History { w with pc := k } :=
    fun k hk => h.frame rfl rfl rfl (fun _ hq => hq) fun r _ => hk r
  cases hmove with
  | atEnd hpc => exact hgoto _ fun r hr => by rw [hpc] at hr; cases hr
  | stale hpc _ _ => exact h.frame rfl rfl rfl (fun _ hq => hq) fun _ _ hcall => hcall
  | due hpc _ _ _ hcancelled => exact h.due hc hposts hpc hcancelled
  | dueCancelled hpc _ _ _ _ => exact hgoto _ fun r hr => by rw [hpc] at hr; cases hr
  | notDue hpc _ _ _ => exact hgoto _ fun r hr => by rw [hpc] at hr; cases hr
  | processed hpc => exact hgoto _ fun r hr => by rw [hpc] at hr; exact hr
  | eraseRequest hpc => exact h.eraseRequest hc hposts hpc
  | eraseEntry hpc =>
      exact h.frame rfl rfl rfl (fun _ hq => hq) fun r _ hr => by rw [hpc] at hr; cases hr
  | finish active hpc =>
      exact h.frame rfl rfl rfl (fun _ hq => hq) fun r _ hr => by rw [hpc] at hr; cases hr

theorem move {a : Action} (h : History w) (hc : Containers w) (hposts : w.posts < 2 ^ 64)
    (hmove : Move w a w') : History w' := by
  cases hmove with
  | post timeout => exact h.post hc hposts timeout
  | cancel id => exact h.cancel hc id
  | reset id => exact h.reset id
  | start =>
      rw [start_eq]
      exact h.frame rfl rfl rfl (fun _ hq => hq) fun _ _ hcall => hcall
  | stop => exact h.frame rfl rfl rfl (fun _ hq => hq) fun _ _ hcall => hcall
  | wait d => exact h.frame rfl rfl rfl (fun _ hq => hq) fun _ _ hcall => hcall
  | tick hpc =>
      exact h.frame rfl rfl rfl (fun _ hq => hq) fun r _ hr => by rw [hpc] at hr; cases hr
  | run hmove => exact h.bookkeeper hc hposts hmove

end History

/-! ## The books -/

/-- The id was handed out and its request has not been retired. -/
def Pending (w : TimerWheel) (id : UInt64) : Prop :=
  ∃ r, .post r id ∈ w.trace ∧ .retired r id ∉ w.trace

/-- What the wheel promises its user. -/
structure BooksKept (w : TimerWheel) : Prop where
  /-- the two containers hold the same requests -/
  together : w.pc.retiring = none →
    w.pendingRequests.Perm (Multimap.values w.timeHiearchy)
  /-- each once -/
  once : (Multimap.values w.timeHiearchy).Nodup
  /-- and under their ids -/
  keyed : ∀ x ∈ w.requests, x.1 = (w.request x.2).id
  ids : (w.requests.map Prod.fst).Nodup
  /-- a callback begins at most once -/
  startedOnce : (w.trace.filterMap Mark.started?).Nodup
  /-- and not after `cancel` has returned -/
  cancelled : ∀ later earlier id, w.trace = later ++ .cancelled id :: earlier →
    ∀ r, .started r id ∉ later
  /-- `cancel` and `reset` find the pending requests -/
  found : ∀ id, Pending w id → (w.cancel id).2 = none ∧ (w.reset id).2 = none
  /-- and throw for all other ids, changing nothing -/
  unknown : ∀ id, ¬Pending w id →
    w.cancel id = (w, some "timer_wheel::cancel: request id not found") ∧
    w.reset id = (w, some "timer_wheel::reset: request id not found")

theorem containers_history (hreach : machine.Reachable w) (hposts : w.posts < 2 ^ 64) :
    Containers w ∧ History w := by
  refine hreach.invariant_within (W := fun w => w.posts < 2 ^ 64)
    (I := fun w => Containers w ∧ History w) ?_ ?_ ?_ hposts
  · intro w a w' hstep hw
    exact Nat.lt_of_le_of_lt (step_move hstep).posts_le hw
  · rintro w ⟨clock, res, rfl⟩
    constructor
    · exact { stored (.start ⟨clock, res, rfl⟩) with
        same := List.Perm.refl _
        numbered := fun _ hr => nomatch hr
        nextId := rfl
        iterator := fun _ hi => nomatch hi }
    · exact {
        posted := fun r id =>
          ⟨fun hmem => (nomatch hmem), fun hr => absurd hr.1 (Nat.not_lt_zero r)⟩
        retired := fun r id =>
          ⟨fun hmem => (nomatch hmem), fun hr => absurd hr.1 (Nat.not_lt_zero r)⟩
        started := fun _ _ hmem => nomatch hmem
        cancelled := fun _ hmem => nomatch hmem
        quiet := List.Pairwise.nil }
  · rintro w a w' ⟨hc, hh⟩ - hstep hw
    have hmove := step_move hstep
    have hbefore := Nat.lt_of_le_of_lt hmove.posts_le hw
    exact ⟨hc.move hbefore hmove, hh.move hc hbefore hmove⟩

/-- An id is pending as long as the map has a request for it. -/
theorem pending_iff (hc : Containers w) (hh : History w) (id : UInt64) :
    Pending w id ↔ (w.find id).isSome := by
  constructor
  · rintro ⟨r, hpost, hretired⟩
    obtain ⟨hold, rfl⟩ := (hh.posted r id).mp hpost
    have hmem : r ∈ w.pendingRequests := by
      by_contra hgone
      exact hretired ((hh.retired r _).mpr ⟨hold, rfl, hgone⟩)
    obtain ⟨q, hq⟩ := hc.find_of_mem hmem
    rw [hq]
    rfl
  · intro hsome
    obtain ⟨r, hr⟩ := Option.isSome_iff_exists.mp hsome
    obtain ⟨hmem, hold, hid⟩ := hc.find_eq_some hr
    exact ⟨r, (hh.posted r id).mpr ⟨hold, hid⟩,
      fun hretired => ((hh.retired r id).mp hretired).2.2 hmem⟩

/-- In every reachable state, inside callbacks and out, the books of the wheel are
right. -/
theorem books_kept (hreach : machine.Reachable w) (hposts : w.posts < 2 ^ 64) :
    BooksKept w := by
  obtain ⟨hc, hh⟩ := containers_history hreach hposts
  refine {
    together := fun hretiring => ?_
    once := hc.once
    keyed := hc.keyed
    ids := hc.ids
    startedOnce := ?_
    cancelled := fun later earlier id htrace r hmem => ?_
    found := fun id hpending => ?_
    unknown := fun id hpending => ?_ }
  · have hsame := hc.same
    rw [hretiring] at hsame
    exact hsame
  · rw [List.Nodup, List.pairwise_filterMap]
    refine hh.quiet.imp fun {later earlier} hquiet r hr q hq heq => ?_
    cases later <;> cases hr
    exact (hquiet _ _ rfl).1 (heq ▸ hq)
  · have hquiet := hh.quiet
    rw [htrace] at hquiet
    have hcross := (List.pairwise_append.mp hquiet).2.2 _ hmem _ (List.mem_cons_self ..)
    exact (hcross r id rfl).2 rfl
  · obtain ⟨r, hr⟩ := Option.isSome_iff_exists.mp ((pending_iff hc hh id).mp hpending)
    rw [cancel_of_find hr, reset_of_find hr]
    exact ⟨rfl, rfl⟩
  · have hnone : w.find id = none := by
      rw [← Option.not_isSome_iff_eq_none, ← pending_iff hc hh id]
      exact hpending
    exact ⟨cancel_of_none hnone, reset_of_none hnone⟩

/-- Two requests are due; the callback of the first cancels the second, resets it and
posts a third. -/
theorem books_kept_run : ∃ w, machine.Reachable w ∧
    Mark.started 0 0 ∈ w.trace ∧ Mark.cancelled 1 ∈ w.trace ∧ Mark.reset 1 ∈ w.trace ∧
    BooksKept w := by
  obtain ⟨w, hrun, hposts, hstarted, hcancelled, hreset⟩ : ∃ w,
      machine.exec (create 0) [.post 1000000, .post 2000000, .wait 5000000, .tick, .run,
        .cancel 1, .reset 1, .post 3000000, .run, .run, .run] = some w ∧
      w.posts < 2 ^ 64 ∧ Mark.started 0 0 ∈ w.trace ∧ Mark.cancelled 1 ∈ w.trace ∧
      Mark.reset 1 ∈ w.trace := ⟨_, rfl, by decide, by decide, by decide, by decide⟩
  have hreach : machine.Reachable w := .of_exec ⟨0, _, rfl⟩ hrun
  exact ⟨w, hreach, hstarted, hcancelled, hreset, books_kept hreach hposts⟩

end TimerWheel
end Event
end Cyan

import Cyan.Lockfree.OneThread

/-!
# The accounts of the free list

One thread makes a free list, takes nodes from it and gives them back in any order, and writes
whatever it likes into the nodes that it has.  A node goes in and out by two ways, the list and the
system allocator, and two tests choose between them: whether the list is empty, and whether it is
full.

The list with the nodes that are outside never falls short of `max_size_`, whatever way they take,
because a node is only returned to the system when the list is full without it.
-/

namespace Cyan
namespace Lockfree
namespace Alone

open Base Freelist

variable {κ P T : Type} [DecidableEq P]

section Accounts

variable (env : Env P T) (maxSize : UInt64)

/-- What a thread can bring a free list to that it has made, and the nodes that it has. -/
inductive Served : Memory κ P T → List P → Prop
  | created {s₀ s : Memory κ P T} :
      Comes (fun fuel => createPool env maxSize fuel) s₀ (.ok () s) → Served s []
  | allocated {s s' : Memory κ P T} {out : List P} {n : P} :
      Served s out → Comes (fun fuel => obtain env fuel) s (.ok n s') → Served s' (n :: out)
  | deallocated {s s' : Memory κ P T} {out : List P} {n : P} :
      Served s out → n ∈ out →
        Comes (fun fuel => giveBack env maxSize fuel n) s (.ok () s') → Served s' (out.erase n)
  | written {s : Memory κ P T} {out : List P} {n : P} (cell : Cell P T) :
      Served s out → n ∈ out → Served (s.setCell n cell) out

/-- Every block that was taken from the system has been returned to it once. -/
def AllReturned (s : Memory κ P T) : Prop :=
  Once s.system ∧ ∀ n, outstanding s.system n = false

/-- The accounts of a free list when the nodes of `out` are outside.  `free` is what is listed. -/
structure Accounts (s : Memory κ P T) (out free : List P) : Prop where
  outside : Once s.trace ∧ ∀ n, outstanding s.trace n ↔ n ∈ out
  listed : Path s.words s.head free none
  size : s.size.toNat = free.length
  bound : s.size ≤ maxSize
  enough : maxSize.toNat ≤ s.size.toNat + out.length
  distinct : (free ++ out).Nodup
  /-- the next call ends and throws nothing -/
  allocates : Halts (fun _ _ => True) (fun _ _ => False) (fun fuel => obtain env fuel) s
  deallocates : ∀ n ∈ out,
    Halts (fun _ _ => True) (fun _ _ => False) (fun fuel => giveBack env maxSize fuel n) s
  /-- the destructor ends, and its assertions hold -/
  destroys : out = [] → s.size = maxSize ∧
    Halts (fun _ s' => AllReturned s') (fun _ _ => False) (fun fuel => destroyPool maxSize fuel) s

variable {env maxSize} {s : Memory κ P T} {free out : List P}

/-- What is listed and what is outside is what the pool has from the system. -/
theorem Served.pool (h : Served env maxSize s out) :
    ∃ free, Pool maxSize s free out ∧ Tallies s.system (free ++ out) := by
  induction h with
  | created hcomes =>
      obtain ⟨-, -, free, hpool, htallies⟩ :=
        (halts_createPool (E := fun _ _ => True) env).ends hcomes
      exact ⟨free, hpool, by rwa [List.append_nil]⟩
  | allocated _ hcomes ih =>
      obtain ⟨free, hpool, htallies⟩ := ih
      obtain ⟨-, -, free', hpool', hkeep⟩ :=
        (halts_obtain (E := fun _ _ => True) env hpool).ends hcomes
      exact ⟨free', hpool', hkeep htallies⟩
  | @deallocated s s' out n _ hn hcomes ih =>
      obtain ⟨free, hpool, htallies⟩ := ih
      have hperm := List.perm_cons_erase hn
      obtain ⟨-, -, free', hpool', hkeep⟩ :=
        (halts_giveBack (E := fun _ _ => True) env (hpool.perm hperm)).ends hcomes
      exact ⟨free', hpool', hkeep (htallies.perm (hperm.append_left free))⟩
  | written cell _ hn ih =>
      obtain ⟨free, hpool, htallies⟩ := ih
      exact ⟨free, hpool.setCell hn, htallies⟩

/-- A pool keeps the accounts. -/
theorem Pool.accounts (h : Pool maxSize s free out) (htallies : Tallies s.system (free ++ out)) :
    Accounts env maxSize s out free := by
  have hbound := h.bound
  have hmax := maxSize.toNat_lt
  have hsize : s.size.toNat = free.length := by
    rw [h.size, UInt64.toNat_ofNat_of_lt' (by show _ < 2 ^ 64; omega)]
  refine ⟨⟨h.once, h.outstanding⟩, h.chain, hsize, ?_, ?_, h.nodup, ?_, ?_, ?_⟩
  · rw [UInt64.le_iff_toNat_le, hsize]
    exact hbound
  · rw [hsize]
    exact h.enough
  · exact (halts_obtain env h).mono (fun _ _ _ => trivial) fun _ _ he => he
  · intro n hn
    exact (halts_giveBack env (h.perm (List.perm_cons_erase hn))).mono (fun _ _ _ => trivial)
      fun _ _ he => he
  · rintro rfl
    refine ⟨h.size_eq_iff.mpr ?_, ?_⟩
    · have henough := h.enough
      rw [List.length_nil] at henough
      omega
    · rw [List.append_nil] at htallies
      refine halts_destroyPool h fun mapped system hkeep => ⟨(hkeep htallies).once, fun n => ?_⟩
      refine eq_false_of_ne_true fun hout => ?_
      cases ((hkeep htallies).outstanding n).mp hout

end Accounts

/-- The accounts of the free list, for every `max_size`, every memory it is made in, every answer
of the system allocator and every sequence of calls: the constructor ends, and after any calls the
accounts are in order. -/
theorem freelist_accounts (env : Env P T) (maxSize : UInt64) :
    (∀ s₀ : Memory κ P T, Halts (fun _ _ => True) (fun _ _ => False)
      (fun fuel => createPool env maxSize fuel) s₀) ∧
    ∀ (s : Memory κ P T) (out : List P), Served env maxSize s out →
      ∃ free, Accounts env maxSize s out free := by
  refine ⟨fun s₀ => ?_, fun s out h => ?_⟩
  · exact (halts_createPool env).mono (fun _ _ _ => trivial) fun _ _ he => he
  · obtain ⟨free, hpool, htallies⟩ := h.pool
    exact ⟨free, hpool.accounts htallies⟩

omit [DecidableEq P] in
theorem exists_ok {α : Type} {x : Nat → Run κ P T α} {s : Memory κ P T}
    (h : Halts (fun _ _ => True) (fun _ _ => False) x s) : ∃ a s', Comes x s (.ok a s') := by
  obtain ⟨r, hcomes, hends⟩ := h
  cases r with
  | ok a s' => exact ⟨a, s', hcomes⟩
  | error e s' => exact hends.elim

/-- A list with room for one node, from which two nodes have been taken and come back, so that the
second one has gone to the system. -/
theorem freelist_accounts_counting : ∃ s : Memory Unit Nat Nat,
    Served (counting fun _ => false) 1 s [] ∧
      ∃ free, Accounts (counting fun _ => false) 1 s [] free := by
  have haccounts := freelist_accounts (κ := Unit) (counting fun _ => false) 1
  obtain ⟨⟨⟩, s₁, hcreate⟩ := exists_ok (haccounts.1 (fresh ()))
  have h₁ := Served.created hcreate
  obtain ⟨free₁, hfree₁⟩ := haccounts.2 s₁ [] h₁
  obtain ⟨n, s₂, hobtain₁⟩ := exists_ok hfree₁.allocates
  have h₂ := h₁.allocated hobtain₁
  obtain ⟨free₂, hfree₂⟩ := haccounts.2 s₂ [n] h₂
  obtain ⟨m, s₃, hobtain₂⟩ := exists_ok hfree₂.allocates
  have h₃ := h₂.allocated hobtain₂
  obtain ⟨free₃, hfree₃⟩ := haccounts.2 s₃ [m, n] h₃
  have hm : m ∈ [m, n] := List.mem_cons_self
  obtain ⟨⟨⟩, s₄, hback₁⟩ := exists_ok (hfree₃.deallocates m hm)
  have h₄ := h₃.deallocated hm hback₁
  rw [List.erase_cons_head] at h₄
  obtain ⟨free₄, hfree₄⟩ := haccounts.2 s₄ [n] h₄
  have hn : n ∈ [n] := List.mem_cons_self
  obtain ⟨⟨⟩, s₅, hback₂⟩ := exists_ok (hfree₄.deallocates n hn)
  have h₅ := h₄.deallocated hn hback₂
  rw [List.erase_cons_head] at h₅
  exact ⟨s₅, h₅, haccounts.2 s₅ [] h₅⟩

end Alone
end Lockfree
end Cyan

import Mathlib.Data.List.Basic
import Mathlib.Data.UInt

/-!
# Four bytes and their text

Four bytes in memory, the number that they are in either byte order, and the text that names
them: four decimal numbers of at most 255 without leading zeros, with dots between them.

`dottedQuad_append_ne` says that such a text names something else, or nothing, as soon as
characters are added to it.
-/

namespace Cyan
namespace Base

/-- Four bytes, in the order of their addresses. -/
structure Quad where
  a : UInt8
  b : UInt8
  c : UInt8
  d : UInt8
  deriving DecidableEq, Repr

namespace Quad

/-- The number whose most significant byte comes first. -/
def toNat (q : Quad) : Nat :=
  q.a.toNat * 2 ^ 24 + q.b.toNat * 2 ^ 16 + q.c.toNat * 2 ^ 8 + q.d.toNat

theorem toNat_lt (q : Quad) : q.toNat < 2 ^ 32 := by
  have ha := q.a.toNat_lt
  have hb := q.b.toNat_lt
  have hc := q.c.toNat_lt
  have hd := q.d.toNat_lt
  unfold toNat
  omega

theorem toNat_inj {q r : Quad} (h : q.toNat = r.toNat) : q = r := by
  have hqb := q.b.toNat_lt
  have hqc := q.c.toNat_lt
  have hqd := q.d.toNat_lt
  have hrb := r.b.toNat_lt
  have hrc := r.c.toNat_lt
  have hrd := r.d.toNat_lt
  unfold toNat at h
  obtain ⟨qa, qb, qc, qd⟩ := q
  obtain ⟨ra, rb, rc, rd⟩ := r
  simp only [mk.injEq, ← UInt8.toNat_inj]
  simp only at *
  omega

end Quad

/-! ## Byte orders -/

/-- Which byte of a word has the lowest address. -/
inductive ByteOrder
  /-- the least significant one -/
  | little
  /-- the most significant one -/
  | big
  deriving DecidableEq, Repr

/-- The word that four bytes are. -/
def ByteOrder.load (order : ByteOrder) (q : Quad) : UInt32 :=
  match order with
  | .little => .ofNat (q.a.toNat + q.b.toNat * 2 ^ 8 + q.c.toNat * 2 ^ 16 + q.d.toNat * 2 ^ 24)
  | .big => .ofNat q.toNat

/-- The word with its bytes in the other order. -/
def byteSwap (x : UInt32) : UInt32 :=
  .ofNat (x.toNat % 2 ^ 8 * 2 ^ 24 + x.toNat / 2 ^ 8 % 2 ^ 8 * 2 ^ 16 +
    x.toNat / 2 ^ 16 % 2 ^ 8 * 2 ^ 8 + x.toNat / 2 ^ 24)

/-- From the order in which the most significant byte comes first to that of the host. -/
def ByteOrder.networkToHost (order : ByteOrder) (x : UInt32) : UInt32 :=
  match order with
  | .little => byteSwap x
  | .big => x

/-- In either byte order the host gets the same number. -/
theorem ByteOrder.networkToHost_load (order : ByteOrder) (q : Quad) :
    (order.networkToHost (order.load q)).toNat = q.toNat := by
  have ha := q.a.toNat_lt
  have hb := q.b.toNat_lt
  have hc := q.c.toNat_lt
  have hd := q.d.toNat_lt
  have hq := q.toNat_lt
  cases order with
  | little =>
      have hword : (load .little q).toNat =
          q.a.toNat + q.b.toNat * 2 ^ 8 + q.c.toNat * 2 ^ 16 + q.d.toNat * 2 ^ 24 := by
        rw [load, UInt32.toNat_ofNat']
        omega
      have hfirst : (load .little q).toNat % 2 ^ 8 = q.a.toNat := by
        omega
      have hsecond : (load .little q).toNat / 2 ^ 8 % 2 ^ 8 = q.b.toNat := by
        omega
      have hthird : (load .little q).toNat / 2 ^ 16 % 2 ^ 8 = q.c.toNat := by
        omega
      have hlast : (load .little q).toNat / 2 ^ 24 = q.d.toNat := by
        omega
      rw [networkToHost, byteSwap, hfirst, hsecond, hthird, hlast, UInt32.toNat_ofNat']
      exact Nat.mod_eq_of_lt hq
  | big =>
      rw [networkToHost, load, UInt32.toNat_ofNat']
      exact Nat.mod_eq_of_lt hq

/-! ## Text -/

/-- The number that the digits are. -/
def digits (f : List Char) : Nat :=
  f.foldl (fun v ch => 10 * v + (ch.toNat - '0'.toNat)) 0

/-- A decimal number of at most 255 without leading zeros. -/
def octet (f : List Char) : Option UInt8 :=
  if f ≠ [] ∧ f.all Char.isDigit ∧ (f.head? = some '0' → f = ['0']) ∧ digits f < 2 ^ 8 then
    some (.ofNat (digits f))
  else none

/-- Four such numbers with dots between them. -/
def dottedQuad (s : List Char) : Option Quad :=
  match s.splitOn '.' with
  | [a, b, c, d] => do
      return ⟨← octet a, ← octet b, ← octet c, ← octet d⟩
  | _ => none

section Octet

variable {f t : List Char} {v : UInt8}

theorem octet_eq_some : octet f = some v ↔ (f ≠ [] ∧ f.all Char.isDigit ∧
    (f.head? = some '0' → f = ['0']) ∧ digits f < 2 ^ 8) ∧ UInt8.ofNat (digits f) = v := by
  rw [octet, Option.ite_none_right_eq_some, Option.some_inj]

/-- A number has no dots in it. -/
theorem dot_not_mem (h : octet f = some v) : '.' ∉ f := by
  intro hmem
  have hdigit := List.all_eq_true.mp (octet_eq_some.mp h).1.2.1 '.' hmem
  exact absurd hdigit (by decide)

theorem toNat_octet (h : octet f = some v) : v.toNat = digits f := by
  obtain ⟨⟨-, -, -, hlt⟩, rfl⟩ := octet_eq_some.mp h
  exact UInt8.toNat_ofNat_of_lt' hlt

/-- More digits make a number at least ten times as large. -/
theorem digits_append (f : List Char) (ht : t ≠ []) : 10 * digits f ≤ digits (f ++ t) := by
  have hgrow : ∀ (t : List Char) (v : Nat), v ≤ t.foldl
      (fun v ch => 10 * v + (ch.toNat - '0'.toNat)) v := by
    intro t
    induction t with
    | nil => exact fun v => Nat.le_refl v
    | cons ch t ih =>
        intro v
        have hrest := ih (10 * v + (ch.toNat - '0'.toNat))
        rw [List.foldl_cons]
        omega
  obtain ⟨ch, t, rfl⟩ := List.exists_cons_of_ne_nil ht
  have hrest := hgrow t (10 * digits f + (ch.toNat - '0'.toNat))
  have happend : digits (f ++ ch :: t) = t.foldl
      (fun v ch => 10 * v + (ch.toNat - '0'.toNat)) (10 * digits f + (ch.toNat - '0'.toNat)) := by
    rw [digits, List.foldl_append, List.foldl_cons]
    rfl
  omega

/-- Only the digit zero is zero. -/
theorem digits_pos (h : octet f = some v) (hzero : f ≠ ['0']) : 0 < digits f := by
  obtain ⟨⟨hne, hall, hlead, -⟩, -⟩ := octet_eq_some.mp h
  obtain ⟨ch, t, rfl⟩ := List.exists_cons_of_ne_nil hne
  have hdigit : ch.isDigit := List.all_eq_true.mp hall ch (List.mem_cons_self ..)
  have hch : ch ≠ '0' := fun heq => hzero (hlead (congrArg some heq))
  have hlarger : '0'.toNat < ch.toNat := by
    have hle := (Char.isDigit_iff_toNat.mp hdigit).1
    have hne : ch.toNat ≠ '0'.toNat := fun heq => hch (Char.toNat_inj.mp heq)
    omega
  have hfirst : digits [ch] = ch.toNat - '0'.toNat := by
    rw [digits, List.foldl_cons, List.foldl_nil]
    omega
  rcases List.eq_nil_or_concat t with rfl | ⟨t, ch', rfl⟩
  · omega
  · have hgrow := digits_append [ch] (t := t.concat ch') (by simp)
    rw [List.singleton_append] at hgrow
    omega

/-- Nothing follows a zero that comes first. -/
theorem octet_zero_append (ht : t ≠ []) : octet (['0'] ++ t) = none := by
  refine Option.eq_none_iff_forall_ne_some.mpr fun v hv => ?_
  have hlead := (octet_eq_some.mp hv).1.2.2.1 rfl
  exact ht (List.append_right_eq_self.mp hlead)

/-- A number that is longer is another one. -/
theorem octet_append_ne {w : UInt8} (h : octet f = some v) (ht : t ≠ [])
    (hmore : octet (f ++ t) = some w) : w ≠ v := by
  have hzero : f ≠ ['0'] := by
    rintro rfl
    rw [octet_zero_append ht] at hmore
    cases hmore
  have hpos := digits_pos h hzero
  have hgrow := digits_append f ht
  intro heq
  have hv := toNat_octet h
  have hw := toNat_octet hmore
  rw [heq] at hw
  omega

/-- The number zero is the digit zero. -/
theorem eq_zero_of_octet (h : octet f = some 0) : f = ['0'] := by
  by_contra hne
  have hpos := digits_pos h hne
  have hzero := toNat_octet h
  rw [← hzero] at hpos
  cases hpos

end Octet

section Text

variable {s t : List Char} {q r : Quad}

/-- What a text that names four bytes looks like. -/
theorem dottedQuad_eq_some (h : dottedQuad s = some q) : ∃ a b c d,
    s = a ++ '.' :: (b ++ '.' :: (c ++ '.' :: d)) ∧ octet a = some q.a ∧ octet b = some q.b ∧
      octet c = some q.c ∧ octet d = some q.d := by
  unfold dottedQuad at h
  split at h
  · rename_i a b c d hsplit
    obtain ⟨va, ha, h⟩ := Option.bind_eq_some_iff.mp h
    obtain ⟨vb, hb, h⟩ := Option.bind_eq_some_iff.mp h
    obtain ⟨vc, hc, h⟩ := Option.bind_eq_some_iff.mp h
    obtain ⟨vd, hd, h⟩ := Option.bind_eq_some_iff.mp h
    cases h
    refine ⟨a, b, c, d, ?_, ha, hb, hc, hd⟩
    have hjoin : ['.'].intercalate (s.splitOn '.') = s := List.intercalate_splitOn '.'
    rw [hsplit] at hjoin
    rw [← hjoin]
    simp [List.intercalate]
  · cases h

/-- Only the last of the four numbers goes on in what follows. -/
theorem dottedQuad_fields {a b c d : List Char} (ha : '.' ∉ a) (hb : '.' ∉ b) (hc : '.' ∉ c)
    (h : dottedQuad (a ++ '.' :: (b ++ '.' :: (c ++ '.' :: d))) = some q) :
    octet d = some q.d := by
  unfold dottedQuad at h
  rw [List.splitOn_append_cons_self_of_not_mem ha, List.splitOn_append_cons_self_of_not_mem hb,
    List.splitOn_append_cons_self_of_not_mem hc] at h
  have hjoin : ['.'].intercalate (d.splitOn '.') = d := List.intercalate_splitOn '.'
  split at h
  · rename_i a' b' c' d' hsplit
    obtain ⟨va, -, h⟩ := Option.bind_eq_some_iff.mp h
    obtain ⟨vb, -, h⟩ := Option.bind_eq_some_iff.mp h
    obtain ⟨vc, -, h⟩ := Option.bind_eq_some_iff.mp h
    obtain ⟨vd, hd, h⟩ := Option.bind_eq_some_iff.mp h
    cases h
    simp only [List.cons.injEq] at hsplit
    rw [hsplit.2.2.2] at hjoin
    have hsame : d' = d := by
      simpa [List.intercalate] using hjoin
    rw [← hsame]
    exact hd
  · cases h

/-- A text that goes on names something else. -/
theorem dottedQuad_append_ne (h : dottedQuad s = some q) (ht : t ≠ [])
    (hmore : dottedQuad (s ++ t) = some r) : r ≠ q := by
  obtain ⟨a, b, c, d, rfl, ha, hb, hc, hd⟩ := dottedQuad_eq_some h
  have hlast : octet (d ++ t) = some r.d := by
    refine dottedQuad_fields (dot_not_mem ha) (dot_not_mem hb) (dot_not_mem hc) ?_
    simpa using hmore
  intro heq
  exact octet_append_ne hd ht hlast (congrArg Quad.d heq)

/-- The text of four zeros. -/
def zeros : List Char := ['0', '.', '0', '.', '0', '.', '0']

theorem dottedQuad_zeros : dottedQuad zeros = some ⟨0, 0, 0, 0⟩ := by
  decide

/-- No other text names four zeros. -/
theorem eq_zeros (h : dottedQuad s = some ⟨0, 0, 0, 0⟩) : s = zeros := by
  obtain ⟨a, b, c, d, rfl, ha, hb, hc, hd⟩ := dottedQuad_eq_some h
  rw [eq_zero_of_octet ha, eq_zero_of_octet hb, eq_zero_of_octet hc, eq_zero_of_octet hd]
  rfl

/-- The text of four zeros does not go on. -/
theorem dottedQuad_zeros_append (ht : t ≠ []) : dottedQuad (zeros ++ t) = none := by
  refine Option.eq_none_iff_forall_ne_some.mpr fun r hr => ?_
  have hdot : '.' ∉ ['0'] := by
    decide
  have hlast : octet (['0'] ++ t) = some r.d := dottedQuad_fields hdot hdot hdot hr
  rw [octet_zero_append ht] at hlast
  cases hlast

end Text

end Base
end Cyan

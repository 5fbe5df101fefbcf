import Cyan.Base.DottedQuad
import Cyan.Net.Kernel

/-!
# Addresses from text

This module embeds `make_address_v4` with `detail::inet_pton` behind it.  `::inet_pton`
itself is not part of the repository: it is a parameter, and `Documented` says what is known
of it.

A `std::string_view` is passed on as a C string, so the text that is read goes on behind the
view until there is a NUL, and the verdict is taken from `errno`, which a text that is not
valid leaves alone.  `make_address_v4_exact` says for which texts this makes no difference.
-/

namespace Cyan
namespace Net

open Base

/-- `'\0'` -/
def nul : Char := Char.ofNat 0

/-- `std::string_view`, with the memory behind it in front of some NUL. -/
structure StringView where
  chars : List Char
  behind : List Char

/-- The C string at `data()`. -/
def StringView.cString (view : StringView) : List Char :=
  (view.chars ++ view.behind).takeWhile (· ≠ nul)

/-- The characters that the C string has behind a view without a NUL. -/
def StringView.tail (view : StringView) : List Char :=
  view.behind.takeWhile (· ≠ nul)

/-- `AF_INET` -/
def afInet : Int := 2

/-- `AF_INET6` -/
def afInet6 : Int := 10

/-- What `::inet_pton` returns, leaves in `errno`, and stores. -/
structure PtonResult where
  value : Int
  errno : Nat
  stored : Option Quad
  deriving DecidableEq, Repr

/-- `::inet_pton`, from the address family, the C string and `errno`. -/
abbrev InetPton := Int → List Char → Nat → PtonResult

/-- What `inet_pton(3)` says. -/
structure InetPton.Documented (pton : InetPton) : Prop where
  valid : ∀ src errno q, dottedQuad src = some q → pton afInet src errno = ⟨1, errno, some q⟩
  invalid : ∀ src errno, dottedQuad src = none → pton afInet src errno = ⟨0, errno, none⟩
  unknown : ∀ af src errno, af ≠ afInet → af ≠ afInet6 →
    ∃ e : Errno, pton af src errno = ⟨-1, e, none⟩

/-- `address_v4`, with `addr_.s_addr` as the host reads it. -/
structure AddressV4 where
  sAddr : UInt32
  deriving DecidableEq, Repr

section Functions

variable (pton : InetPton) (order : ByteOrder)

/-- `address_v4::to_uint` -/
def AddressV4.toUint (addr : AddressV4) : UInt32 :=
  order.networkToHost addr.sAddr

/-- The call of `::inet_pton` with the word at `dst`. -/
def sysPton (af : Int) (src : List Char) (dst : UInt32) : Prog (Int × UInt32) := do
  let w ← get
  let r := pton af src w.errno
  set { w with errno := r.errno }
  return (r.value, r.stored.elim dst order.load)

/-- `detail::inet_pton` -/
def inetPton (af : Int) (addr : StringView) (dst : UInt32) :
    Prog ((Int × UInt32) × ErrorCode) :=
  wrapped (sysPton pton order af addr.cString dst)

/-- `make_address_v4(addr_str, ec)` -/
def makeAddressV4Ec (addrStr : StringView) : Prog (AddressV4 × ErrorCode) := do
  let addr : AddressV4 := ⟨0⟩
  let ((_, sAddr), ec) ← inetPton pton order afInet addrStr addr.sAddr
  return (⟨sAddr⟩, ec)

/-- `make_address_v4(addr_str)` -/
def makeAddressV4 (addrStr : StringView) : Prog AddressV4 := do
  let (addr, ec) ← makeAddressV4Ec pton order addrStr
  if ec.isSet then throw (.systemError ec)
  return addr

/-- The address and the error that `make_address_v4` reports. -/
def outcome (addrStr : StringView) (w : World) : Option (AddressV4 × ErrorCode) :=
  match makeAddressV4Ec pton order addrStr w with
  | .ok r _ => some r
  | .error _ _ => none

/-- Exactly the valid texts are accepted, with the right number, whatever is behind them,
and the overload that throws agrees. -/
structure Exact (view : StringView) (w : World) : Prop where
  accepts : ∃ addr ec, outcome pton order view w = some (addr, ec) ∧
    (¬ec.isSet ↔ (dottedQuad view.chars).isSome) ∧
      ∀ q, dottedQuad view.chars = some q → (addr.toUint order).toNat = q.toNat
  inside : outcome pton order view w = outcome pton order ⟨view.chars, []⟩ w
  throws : (∃ ec w', makeAddressV4 pton order view w = .error (.systemError ec) w') ↔
    ∃ addr ec, outcome pton order view w = some (addr, ec) ∧ ec.isSet

end Functions

/-! ## What is read -/

section Views

variable {s : List Char} {q : Quad}

/-- A text that names four bytes has no NUL in it. -/
theorem nul_not_mem (h : dottedQuad s = some q) : nul ∉ s := by
  obtain ⟨a, b, c, d, rfl, ha, hb, hc, hd⟩ := dottedQuad_eq_some h
  have hno : ∀ {f : List Char} {v : UInt8}, octet f = some v → nul ∉ f := by
    intro f v hv hmem
    have hdigit := List.all_eq_true.mp (octet_eq_some.mp hv).1.2.1 nul hmem
    exact absurd hdigit (by decide)
  have hdot : nul ≠ '.' := by
    decide
  simp [hno ha, hno hb, hno hc, hno hd, hdot]

theorem cString_of_valid {view : StringView} (h : dottedQuad view.chars = some q) :
    view.cString = view.chars ++ view.tail := by
  rw [StringView.cString, List.takeWhile_append_of_pos, StringView.tail]
  intro ch hch
  exact decide_eq_true fun heq => nul_not_mem h (heq ▸ hch)

end Views

section Outcomes

variable {pton : InetPton} (hpton : pton.Documented) (order : ByteOrder) (view : StringView)
  (w : World)

/-- The errors and the address are what `::inet_pton` leaves when `errno` is 0. -/
theorem makeAddressV4Ec_run (pton : InetPton) : makeAddressV4Ec pton order view w =
    .ok (⟨(pton afInet view.cString 0).stored.elim 0 order.load⟩,
      ⟨(pton afInet view.cString 0).errno, .system⟩)
      { w with errno := (pton afInet view.cString 0).errno } := rfl

/-- The address of a text, which is 0.0.0.0 when the text is not valid. -/
def addressOf (order : ByteOrder) (src : List Char) : AddressV4 :=
  ⟨(dottedQuad src).elim 0 order.load⟩

theorem toUint_addressOf {src : List Char} {q : Quad} (h : dottedQuad src = some q) :
    ((addressOf order src).toUint order).toNat = q.toNat := by
  rw [addressOf, h]
  exact order.networkToHost_load q

theorem toUint_addressOf_none {src : List Char} (h : dottedQuad src = none) :
    ((addressOf order src).toUint order).toNat = 0 := by
  rw [addressOf, h]
  cases order <;> rfl

include hpton

/-- The error is always clear. -/
theorem makeAddressV4Ec_eq : makeAddressV4Ec pton order view w =
    .ok (addressOf order view.cString, .clear) { w with errno := 0 } := by
  rw [makeAddressV4Ec_run, addressOf]
  cases hquad : dottedQuad view.cString with
  | none =>
      rw [hpton.invalid _ _ hquad]
      rfl
  | some q =>
      rw [hpton.valid _ _ q hquad]
      rfl

theorem outcome_eq : outcome pton order view w =
    some (addressOf order view.cString, .clear) := by
  rw [outcome, makeAddressV4Ec_eq hpton]

/-- So the other overload never throws. -/
theorem makeAddressV4_returns :
    Ends (fun _ _ => True) (fun _ _ => False) (makeAddressV4 pton order view w) := by
  rw [makeAddressV4, Ends.bind_iff, makeAddressV4Ec_eq hpton]
  exact trivial

/-- All that a caller relies on comes down to the text being valid, and the C string having its
address. -/
theorem exact_iff : Exact pton order view w ↔ ∃ q, dottedQuad view.chars = some q ∧
    addressOf order view.cString = addressOf order view.chars := by
  have hclear : ¬ErrorCode.clear.isSet := by
    decide
  have hinside : ∀ {q}, dottedQuad view.chars = some q →
      (⟨view.chars, []⟩ : StringView).cString = view.chars := by
    intro q hq
    have hvalid : dottedQuad (⟨view.chars, []⟩ : StringView).chars = some q := hq
    rw [cString_of_valid hvalid]
    exact List.append_nil _
  constructor
  · intro h
    obtain ⟨addr, ec, hout, haccepts, -⟩ := h.accepts
    rw [outcome_eq hpton] at hout
    cases hout
    obtain ⟨q, hq⟩ := Option.isSome_iff_exists.mp (haccepts.mp hclear)
    have hsame := h.inside
    rw [outcome_eq hpton, outcome_eq hpton, hinside hq] at hsame
    exact ⟨q, hq, congrArg Prod.fst (Option.some.inj hsame)⟩
  · rintro ⟨q, hq, hsame⟩
    refine ⟨⟨_, _, outcome_eq hpton order view w, ?_, fun q' hq' => ?_⟩, ?_, ?_⟩
    · exact iff_of_true hclear (hq ▸ rfl)
    · rw [hsame]
      exact toUint_addressOf order hq'
    · rw [outcome_eq hpton, outcome_eq hpton, hinside hq, hsame]
    · have hreturns := makeAddressV4_returns hpton order view w
      constructor
      · rintro ⟨ec, w', hthrow⟩
        rw [hthrow] at hreturns
        exact False.elim hreturns
      · rintro ⟨addr, ec, hout, hset⟩
        rw [outcome_eq hpton] at hout
        cases hout
        exact absurd hset hclear

end Outcomes

/-- What follows a valid text changes its address, except for 0.0.0.0. -/
theorem addressOf_append_iff {s t : List Char} {q : Quad} (order : ByteOrder)
    (h : dottedQuad s = some q) :
    addressOf order (s ++ t) = addressOf order s ↔ t = [] ∨ s = zeros := by
  constructor
  · intro hsame
    refine or_iff_not_imp_left.mpr fun ht => ?_
    have hnumber := toUint_addressOf order h
    rw [← hsame] at hnumber
    cases hmore : dottedQuad (s ++ t) with
    | none =>
        rw [toUint_addressOf_none order hmore] at hnumber
        have hq : q = ⟨0, 0, 0, 0⟩ := Quad.toNat_inj hnumber.symm
        exact eq_zeros (hq ▸ h)
    | some r =>
        rw [toUint_addressOf order hmore] at hnumber
        exact absurd (Quad.toNat_inj hnumber) (dottedQuad_append_ne h ht hmore)
  · rintro (rfl | rfl)
    · rw [List.append_nil]
    · by_cases ht : t = []
      · rw [ht, List.append_nil]
      · rw [addressOf, addressOf, dottedQuad_zeros_append ht, dottedQuad_zeros]
        cases order <;> rfl

/-- `make_address_v4` is exact for the valid texts with a NUL behind them, and
for 0.0.0.0; in every memory it is so for 0.0.0.0 only. -/
theorem make_address_v4_exact {pton : InetPton} (hpton : pton.Documented) (order : ByteOrder) :
    (∀ view w, Exact pton order view w ↔
      (dottedQuad view.chars).isSome ∧ (view.tail = [] ∨ view.chars = zeros)) ∧
      ∀ chars w, (∀ behind, Exact pton order ⟨chars, behind⟩ w) ↔ chars = zeros := by
  have hexact : ∀ view w, Exact pton order view w ↔
      (dottedQuad view.chars).isSome ∧ (view.tail = [] ∨ view.chars = zeros) := by
    intro view w
    rw [exact_iff hpton]
    constructor
    · rintro ⟨q, hq, hsame⟩
      rw [cString_of_valid hq, addressOf_append_iff order hq] at hsame
      exact ⟨hq ▸ rfl, hsame⟩
    · rintro ⟨hsome, htail⟩
      obtain ⟨q, hq⟩ := Option.isSome_iff_exists.mp hsome
      refine ⟨q, hq, ?_⟩
      rw [cString_of_valid hq, addressOf_append_iff order hq]
      exact htail
  refine ⟨hexact, fun chars w => ⟨fun hall => ?_, ?_⟩⟩
  · -- a character behind the view
    obtain ⟨-, htail | hzeros⟩ := (hexact _ w).mp (hall ['0'])
    · have hone : (⟨chars, ['0']⟩ : StringView).tail = ['0'] := rfl
      rw [hone] at htail
      cases htail
    · exact hzeros
  · rintro rfl behind
    exact (hexact _ w).mpr ⟨rfl, .inr rfl⟩

/-- `::inet_pton` for IPv4. -/
def inetPtonV4 : InetPton := fun af src errno =>
  if af = afInet then
    match dottedQuad src with
    | some q => ⟨1, errno, some q⟩
    | none => ⟨0, errno, none⟩
  else ⟨-1, 97, none⟩

theorem inetPtonV4_documented : inetPtonV4.Documented where
  valid src errno q h := by
    rw [inetPtonV4, if_pos rfl, h]
  invalid src errno h := by
    rw [inetPtonV4, if_pos rfl, h]
  unknown af src errno haf _ := ⟨⟨97, by decide⟩, if_neg haf⟩

/-- A process with no descriptors. -/
def idle : World where
  hasNosigpipe := false
  answer _ _ := ⟨none, 0, 0, 0, true⟩
  calls := []
  errno := 0
  descriptors := []
  strayCloses := []

/-- `"10.0.0.1"` with a NUL behind it. -/
theorem make_address_v4_exact_ten :
    Exact inetPtonV4 .little ⟨['1', '0', '.', '0', '.', '0', '.', '1'], []⟩ idle :=
  ((make_address_v4_exact inetPtonV4_documented .little).1 _ _).mpr ⟨by decide, .inl rfl⟩

/-- `"abc"` is accepted. -/
theorem accepts_abc : ¬∀ view w, Exact inetPtonV4 .little view w := by
  intro hall
  obtain ⟨addr, ec, hout, haccepts, -⟩ := (hall ⟨['a', 'b', 'c'], []⟩ idle).accepts
  have hclear : outcome inetPtonV4 .little ⟨['a', 'b', 'c'], []⟩ idle = some (⟨0⟩, .clear) := rfl
  rw [hclear] at hout
  cases hout
  exact absurd (haccepts.mp (by decide)) (by decide)

end Net
end Cyan

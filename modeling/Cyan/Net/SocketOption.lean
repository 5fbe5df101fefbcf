import Mathlib.Data.Int.Basic
import Mathlib.Data.UInt

/-!
# Timeouts as socket options

This module embeds `detail::time_socket_option`, which carries the timeout of a `send` or of a
`receive` to the kernel and back.

* A `std::chrono::milliseconds` counts in a signed word, and so do the fields of a `timeval`.
  `1000UL` is an unsigned word, so everything that meets it is computed without a sign.
* The kernel reads the fields of a `timeval` as seconds and microseconds, and fills them in so
  that the second one stays below a million (`Timeval.Normalized`).

The class writes milliseconds into the field for microseconds, and reads them from there.  It
undoes what it has done, but the kernel agrees with it on whole seconds only.
-/

namespace Cyan
namespace Net

/-- `timeval_type` -/
structure Timeval where
  tvSec : Int64
  tvUsec : Int64
  deriving DecidableEq, Repr

namespace Timeval

/-- The time that the kernel reads, in microseconds. -/
def microseconds (tv : Timeval) : Int :=
  tv.tvSec.toInt * 1000000 + tv.tvUsec.toInt

/-- Less than a second is in the microseconds. -/
def Normalized (tv : Timeval) : Prop :=
  0 ≤ tv.tvUsec.toInt ∧ tv.tvUsec.toInt < 1000000

end Timeval

/-- `time_socket_option`, with `sizeof(timeval_type)` as its length. -/
structure TimeSocketOption where
  value : Timeval := ⟨0, 0⟩
  length : UInt32 := 16
  deriving DecidableEq, Repr

namespace TimeSocketOption

/-- The fields for `time_usec`, which counts milliseconds. -/
def toTimeval (time : Int64) : Timeval where
  tvSec := (time.toUInt64 / 1000).toInt64
  tvUsec := (time.toUInt64 % 1000).toInt64

/-- `time_socket_option(std::chrono::milliseconds const& time)` -/
def ofTime (time : Int64) : TimeSocketOption :=
  { value := toTimeval time }

/-- `get_value()` -/
def getValue (o : TimeSocketOption) : Int64 :=
  (o.value.tvSec.toUInt64 * 1000 + o.value.tvUsec.toUInt64).toInt64

/-- `set_value(time)` -/
def setValue (o : TimeSocketOption) (time : Int64) : TimeSocketOption :=
  { o with value := toTimeval time }

end TimeSocketOption

open TimeSocketOption

/-! ## Signed and unsigned words -/

/-- `1000UL` -/
theorem toNat_thousand : (1000 : UInt64).toNat = 1000 := rfl

theorem toInt_toInt64 (u : UInt64) : u.toInt64.toInt =
    if 2 * u.toNat < 2 ^ 64 then (u.toNat : Int) else (u.toNat : Int) - 2 ^ 64 :=
  BitVec.toInt_eq_toNat_cond u.toBitVec

/-- A word that is not negative is the same without a sign. -/
theorem toNat_toUInt64 {x : Int64} (h : 0 ≤ x.toInt) :
    (x.toUInt64.toNat : Int) = x.toInt ∧ x.toUInt64.toNat < 2 ^ 63 := by
  have hint := toInt_toInt64 x.toUInt64
  rw [Int64.toInt64_toUInt64] at hint
  have hlt := x.toUInt64.toNat_lt
  split at hint <;> omega

section Fields

variable {time : Int64} (h : 0 ≤ time.toInt)

include h

theorem toTimeval_sec : (toTimeval time).tvSec.toInt = time.toInt / 1000 := by
  obtain ⟨hnat, hlt⟩ := toNat_toUInt64 h
  have hdiv : (time.toUInt64 / 1000).toNat = time.toUInt64.toNat / 1000 := UInt64.toNat_div ..
  show (time.toUInt64 / 1000).toInt64.toInt = _
  rw [toInt_toInt64, hdiv, if_pos (by omega), ← hnat]
  omega

theorem toTimeval_usec : (toTimeval time).tvUsec.toInt = time.toInt % 1000 := by
  obtain ⟨hnat, hlt⟩ := toNat_toUInt64 h
  have hmod : (time.toUInt64 % 1000).toNat = time.toUInt64.toNat % 1000 := UInt64.toNat_mod ..
  show (time.toUInt64 % 1000).toInt64.toInt = _
  rw [toInt_toInt64, hmod, if_pos (by omega), ← hnat]
  omega

end Fields

/-- What has been set is got again, whatever the kernel makes of it. -/
theorem getValue_setValue (o : TimeSocketOption) (time : Int64) :
    (o.setValue time).getValue = time := by
  show ((time.toUInt64 / 1000).toInt64.toUInt64 * 1000 +
    (time.toUInt64 % 1000).toInt64.toUInt64).toInt64 = time
  rw [UInt64.toUInt64_toInt64, UInt64.toUInt64_toInt64]
  have hword : time.toUInt64 / 1000 * 1000 + time.toUInt64 % 1000 = time.toUInt64 := by
    have hlt := time.toUInt64.toNat_lt
    apply UInt64.toNat_inj.mp
    simp only [UInt64.toNat_add, UInt64.toNat_mul, UInt64.toNat_div, UInt64.toNat_mod,
      toNat_thousand]
    omega
  rw [hword]
  exact Int64.toInt64_toUInt64 time

/-! ## What the kernel makes of it -/

/-- The `timeval` means so many milliseconds to the kernel. -/
def Timeval.Means (tv : Timeval) (time : Int) : Prop :=
  tv.Normalized ∧ tv.microseconds = time * 1000

/-- The constructor and `set_value` tell the kernel the time that they get, and `get_value` gives
it back. -/
def Tells (time : Int64) : Prop :=
  (ofTime time).value.Means time.toInt ∧
    ∀ o : TimeSocketOption, (o.setValue time).value.Means time.toInt ∧
      (o.setValue time).getValue = time

/-- `get_value` gives the time that the kernel has filled in, in whole milliseconds. -/
def Reads (tv : Timeval) : Prop :=
  ∀ length, (TimeSocketOption.mk tv length).getValue.toInt = tv.microseconds / 1000

theorem means_iff {time : Int64} (h : 0 ≤ time.toInt) :
    (toTimeval time).Means time.toInt ↔ 1000 ∣ time.toInt := by
  unfold Timeval.Means Timeval.Normalized Timeval.microseconds
  rw [toTimeval_sec h, toTimeval_usec h]
  omega

theorem reads_iff {tv : Timeval} (hnormal : tv.Normalized) (hsec : 0 ≤ tv.tvSec.toInt)
    (hfits : tv.microseconds / 1000 < 2 ^ 63) : Reads tv ↔ tv.tvUsec.toInt = 0 := by
  obtain ⟨husec, hlt⟩ := hnormal
  obtain ⟨hs, hslt⟩ := toNat_toUInt64 hsec
  obtain ⟨hu, hult⟩ := toNat_toUInt64 husec
  unfold Timeval.microseconds at hfits
  -- the sum does not go round, but it may reach the sign
  have hsum : (tv.tvSec.toUInt64 * 1000 + tv.tvUsec.toUInt64).toNat =
      tv.tvSec.toUInt64.toNat * 1000 + tv.tvUsec.toUInt64.toNat := by
    rw [UInt64.toNat_add, UInt64.toNat_mul, toNat_thousand]
    omega
  have hvalue : ∀ length, (TimeSocketOption.mk tv length).getValue.toInt =
      if 2 * (tv.tvSec.toUInt64 * 1000 + tv.tvUsec.toUInt64).toNat < 2 ^ 64
      then ((tv.tvSec.toUInt64 * 1000 + tv.tvUsec.toUInt64).toNat : Int)
      else ((tv.tvSec.toUInt64 * 1000 + tv.tvUsec.toUInt64).toNat : Int) - 2 ^ 64 :=
    fun _ => toInt_toInt64 _
  unfold Reads Timeval.microseconds
  simp only [hvalue, hsum]
  constructor
  · intro h
    have h := h 16
    split at h <;> omega
  · intro hzero length
    split <;> omega

/-- The kernel and the class agree on whole seconds, and on nothing else: `set_value` tells the
kernel a time without a sign exactly if it is one, and `get_value` reads a time from the kernel
exactly if there are no microseconds in it. -/
theorem timeout_codec_iff (time : Int64) (htime : 0 ≤ time.toInt) (tv : Timeval)
    (hnormal : tv.Normalized) (hsec : 0 ≤ tv.tvSec.toInt)
    (hfits : tv.microseconds / 1000 < 2 ^ 63) :
    (Tells time ↔ 1000 ∣ time.toInt) ∧ (Reads tv ↔ tv.tvUsec.toInt = 0) := by
  refine ⟨⟨fun htells => ?_, fun hdvd => ?_⟩, reads_iff hnormal hsec hfits⟩
  · exact (means_iff htime).mp htells.1
  · have hmeans := (means_iff htime).mpr hdvd
    exact ⟨hmeans, fun o => ⟨hmeans, getValue_setValue o time⟩⟩

/-- Two seconds, each way. -/
theorem timeout_codec_iff_two : Tells 2000 ∧ Reads ⟨2, 0⟩ := by
  obtain ⟨htells, hreads⟩ := timeout_codec_iff 2000 (by decide) ⟨2, 0⟩
    ⟨by decide, by decide⟩ (by decide) (by decide)
  exact ⟨htells.mpr (by decide), hreads.mpr (by decide)⟩

/-- A second and a half is one second and 500 microseconds to the kernel, and comes back from
there as more than eight minutes. -/
theorem timeout_shrinks : (ofTime 1500).value = ⟨1, 500⟩ ∧
    (ofTime 1500).value.microseconds = 1000500 ∧
    (TimeSocketOption.mk ⟨1, 500000⟩ 16).getValue = 501000 ∧
    ¬((∀ time : Int64, 0 ≤ time.toInt → Tells time) ∧
      ∀ tv : Timeval, tv.Normalized → 0 ≤ tv.tvSec.toInt → tv.microseconds / 1000 < 2 ^ 63 →
        Reads tv) := by
  refine ⟨by decide, by decide, by decide, fun h => ?_⟩
  have hmeans := (h.1 1500 (by decide)).1.2
  exact absurd hmeans (by decide)

end Net
end Cyan

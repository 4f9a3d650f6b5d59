import ApPa.Klibc.CString
import ApPa.Lib.Numeral
import Mathlib.Data.UInt

/-! # Number conversion

`reverse`, `utoa` and `itoa`, and the capitals of a hexadecimal number, which the kernel's and
the user's C library have in the same words. A string is the list of its bytes without the NUL behind them.
-/
namespace ApPa.Klibc
open Numeral

def reverse (str : List UInt8) (len : ℕ) : List UInt8 := reverseLoop 0 len 0 (len - 1) str

/-- `(rem > 9) ? (rem - 10) + 'a' : rem + '0'`. -/
def digitChar (rem : ℕ) : UInt8 := if rem > 9 then UInt8.ofNat (rem - 10) + 0x61 else UInt8.ofNat rem + 0x30

/-- A 32-bit number has at most 32 digits. -/
def utoa (value : UInt32) (base : ℕ) : List UInt8 :=
  if value = 0 then [0x30]
  else
    let str := (digitsLoop base 32 value.toNat).map digitChar
    reverse str str.length

def negative (value : UInt32) : Bool := decide (0x80000000 ≤ value)

def itoa (value : UInt32) (base : ℕ) : List UInt8 :=
  if value = 0 then [0x30]
  else
    let isNegative := negative value && decide (base = 10)
    let uvalue := if isNegative then -value else value
    let str := (digitsLoop base 32 uvalue.toNat).map digitChar
    let str := if isNegative then str ++ [0x2D] else str
    reverse str str.length

/-- A character of "0123456789abcdef". -/
def hexChar (d : ℕ) : UInt8 := (ascii "0123456789abcdef").getD d 0

/-- `do { tmp_value = value; value /= base; *ptr++ = "0123456789abcdef"[tmp_value - value * base]; } while (value);` -/
def uitoaLoop (base : ℕ) : ℕ → ℕ → List UInt8
  | 0, _ => []
  | fuel + 1, tmpValue =>
    let value := tmpValue / base
    hexChar (tmpValue - value * base) :: if value ≠ 0 then uitoaLoop base fuel value else []

/-- The older conversion of the kernel. `ptr1` and `ptr` walk to the middle from both ends. -/
def uitoa (value : UInt32) (base : ℕ) : List UInt8 :=
  if value = 0 then [0x30]
  else
    let str := uitoaLoop base 32 value.toNat
    reverseLoop 0 str.length 0 (str.length - 1) str

/-- `if (tmp[j] >= 'a' && tmp[j] <= 'f') tmp[j] -= 32;` -/
def upper (c : UInt8) : UInt8 := if 'a'.toUInt8 ≤ c ∧ c ≤ 'f'.toUInt8 then c - 32 else c

def numeral (base n : ℕ) : List UInt8 := if n = 0 then [0x30] else ((Nat.digits base n).map digitChar).reverse

theorem digitsLoop_word {base : ℕ} (hbase : 1 < base) (value : UInt32) :
    digitsLoop base 32 value.toNat = Nat.digits base value.toNat :=
  digitsLoop_eq hbase (Nat.lt_of_lt_of_le value.toNat_lt (Nat.pow_le_pow_left hbase 32))

/-- What both conversions do with a number that is not zero: the sign goes behind the digits,
and turning the string around brings it to the front. -/
theorem reverse_digits {base : ℕ} (hbase : 1 < base) {value : UInt32} (hv : value ≠ 0) (sign : List UInt8) :
    reverse ((digitsLoop base 32 value.toNat).map digitChar ++ sign)
      ((digitsLoop base 32 value.toNat).map digitChar ++ sign).length = sign.reverse ++ numeral base value.toNat := by
  have hne : value.toNat ≠ 0 := fun h => hv (UInt32.toNat_inj.mp h)
  rw [reverse, reverse_eq, numeral, if_neg hne, digitsLoop_word hbase, List.reverse_append]

theorem utoa_eq {base : ℕ} (hbase : 1 < base) (value : UInt32) : utoa value base = numeral base value.toNat := by
  unfold utoa
  by_cases hv : value = 0
  · subst hv
    rfl
  · have h := reverse_digits hbase hv []
    simp only [List.append_nil, List.reverse_nil, List.nil_append] at h
    exact (if_neg hv).trans h

theorem hexChar_eq : ∀ d < 16, hexChar d = digitChar d := by decide

/-- The loop of `uitoa` tests the number behind the digit and the one of `utoa` in front of it. -/
theorem uitoaLoop_eq {base : ℕ} (hbase : 1 < base) (hmax : base ≤ 16) (fuel : ℕ) {value : ℕ} (hv : value ≠ 0) :
    uitoaLoop base fuel value = (digitsLoop base fuel value).map digitChar := by
  induction fuel generalizing value with
  | zero => rfl
  | succ fuel ih =>
    have hdigit : value - value / base * base = value % base := by
      rw [Nat.mul_comm, ← Nat.mod_eq_sub]
    have hlt : value % base < 16 := (Nat.mod_lt value (Nat.zero_lt_of_lt hbase)).trans_le hmax
    rw [uitoaLoop, digitsLoop, if_pos hv, List.map_cons, hdigit, hexChar_eq _ hlt]
    by_cases hq : value / base = 0
    · have hend : digitsLoop base fuel 0 = [] := by cases fuel <;> rfl
      rw [hq, if_neg (not_not.mpr rfl), hend, List.map_nil]
    · rw [if_pos hq, ih hq]

theorem uitoa_eq {base : ℕ} (hbase : 1 < base) (hmax : base ≤ 16) (value : UInt32) : uitoa value base = utoa value base := by
  unfold uitoa utoa
  by_cases hv : value = 0
  · rw [if_pos hv, if_pos hv]
  · have hne : value.toNat ≠ 0 := fun h => hv (UInt32.toNat_inj.mp h)
    rw [if_neg hv, if_neg hv, uitoaLoop_eq hbase hmax 32 hne]
    rfl

theorem itoa_eq (value : UInt32) :
    itoa value 10 = (if negative value then [0x2D] else []) ++ numeral 10 (if negative value then -value else value).toNat := by
  unfold itoa
  by_cases hv : value = 0
  · subst hv
    rfl
  rw [if_neg hv]
  simp only [decide_true, Bool.and_true]
  cases negative value with
  | false => simpa using reverse_digits (show 1 < 10 by decide) hv []
  | true => simpa using reverse_digits (show 1 < 10 by decide) (neg_ne_zero.mpr hv) [0x2D]

theorem digitChar_ne_zero : ∀ d < 36, digitChar d ≠ 0 := by decide

theorem zero_notMem_numeral {base : ℕ} (hbase : 1 < base) (hmax : base ≤ 36) (n : ℕ) : 0 ∉ numeral base n := by
  unfold numeral
  split
  · decide
  · rw [List.mem_reverse, List.mem_map]
    rintro ⟨d,hd,h0⟩
    exact digitChar_ne_zero d (Nat.lt_of_lt_of_le (Nat.digits_lt_base hbase hd) hmax) h0

theorem numeral_length_le {base : ℕ} (hbase : 1 < base) (value : UInt32) : (numeral base value.toNat).length ≤ 32 := by
  unfold numeral
  split
  · exact Nat.le_of_ble_eq_true rfl
  · rw [List.length_reverse, List.length_map, Nat.digits_length_le_iff hbase]
    exact Nat.lt_of_lt_of_le value.toNat_lt (Nat.pow_le_pow_left hbase 32)

theorem numeral_ne_nil (base n : ℕ) : numeral base n ≠ [] := by
  unfold numeral
  split
  · simp
  · next hn => simpa using Nat.digits_ne_nil_iff_ne_zero.mpr hn

theorem utoa_text {base : ℕ} (hbase : 1 < base) (hmax : base ≤ 36) (value : UInt32) :
    0 ∉ utoa value base ∧ (utoa value base).length ≤ 32 ∧ utoa value base ≠ [] := by
  rw [utoa_eq hbase]
  exact ⟨zero_notMem_numeral hbase hmax _,numeral_length_le hbase value,numeral_ne_nil base _⟩

end ApPa.Klibc

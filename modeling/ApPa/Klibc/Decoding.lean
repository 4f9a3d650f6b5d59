import ApPa.Drivers.Screen
import ApPa.Libc.Console

/-! # Reading numbers back

`utoa` and `itoa` of both libraries, the kernel's older `uitoa` and the conversion inside `kprint_uint` are
written in different styles. What a string of digits stands for is said here without any of them, by a
decoder that refuses a character that is no digit of the base.
-/
namespace ApPa.Klibc
open Drivers Libc Numeral

def digitValue (c : UInt8) : Option ℕ :=
  if '0'.toUInt8 ≤ c ∧ c ≤ '9'.toUInt8 then some (c.toNat - '0'.toNat)
  else if 'a'.toUInt8 ≤ c ∧ c ≤ 'z'.toUInt8 then some (c.toNat - 'a'.toNat + 10)
  else none

def decodeStep (base v : ℕ) (c : UInt8) : Option ℕ :=
  (digitValue c).bind fun d => if d < base then some (v * base + d) else none

def decode (base : ℕ) (s : List UInt8) : Option ℕ := s.foldlM (decodeStep base) 0

/-- A sign in front of a decimal number. -/
def decodeInt : List UInt8 → Option ℤ
  | [] => none
  | c :: s =>
    if c = '-'.toUInt8 then (decode 10 s).map fun n : ℕ => -(n : ℤ)
    else (decode 10 (c :: s)).map fun n : ℕ => (n : ℤ)

/-- `s` is the positional representation of `n`, with room for it and its NUL in 33 bytes. -/
structure IsNumeral (base n : ℕ) (s : List UInt8) : Prop where
  decode : decode base s = some n
  ne_nil : s ≠ []
  leading : s.head? = some '0'.toUInt8 → s = ['0'.toUInt8]
  length_le : s.length ≤ 32
  no_nul : 0 ∉ s

theorem digitValue_digitChar : ∀ d < 36, digitValue (digitChar d) = some d := by decide

theorem digitChar_zero : ∀ d < 36, digitChar d = '0'.toUInt8 → d = 0 := by decide

section
variable {base : ℕ} (hbase : 1 < base) (hmax : base ≤ 36)
include hmax

theorem foldlM_digits (digits : List ℕ) (h : ∀ d ∈ digits, d < base) (v : ℕ) :
    (digits.map digitChar).foldlM (decodeStep base) v = some (digits.foldl (fun v d => v * base + d) v) := by
  induction digits generalizing v with
  | nil => rfl
  | cons d digits ih =>
    have hd := h d List.mem_cons_self
    have hstep : decodeStep base v (digitChar d) = some (v * base + d) := by
      rw [decodeStep, digitValue_digitChar d (hd.trans_le hmax), Option.bind_some, if_pos hd]
    rw [List.map_cons, List.foldlM_cons, hstep]
    exact ih (fun e he => h e (List.mem_cons_of_mem d he)) _

include hbase

theorem decode_numeral (n : ℕ) : decode base (numeral base n) = some n := by
  unfold numeral
  split
  · rename_i hn
    have hzero := foldlM_digits hmax [0] (fun d hd => by rw [List.mem_singleton.mp hd]; omega) 0
    rw [List.foldl_cons, List.foldl_nil, Nat.zero_mul] at hzero
    rw [hn]
    exact hzero
  · have hdigits := foldlM_digits hmax (Nat.digits base n).reverse
      (fun d hd => Nat.digits_lt_base hbase (List.mem_reverse.mp hd)) 0
    rw [List.map_reverse] at hdigits
    exact hdigits.trans (congrArg some (positional_reverse_digits base n))

theorem leading_numeral (n : ℕ) (h : (numeral base n).head? = some '0'.toUInt8) : numeral base n = ['0'.toUInt8] := by
  unfold numeral at h ⊢
  split
  · rfl
  · rename_i hn
    have hne : Nat.digits base n ≠ [] := Nat.digits_ne_nil_iff_ne_zero.mpr hn
    rw [if_neg hn, List.head?_reverse, List.getLast?_map, List.getLast?_eq_some_getLast hne, Option.map_some] at h
    have hlt : (Nat.digits base n).getLast hne < 36 := (Nat.digits_lt_base hbase (List.getLast_mem hne)).trans_le hmax
    exact absurd (digitChar_zero _ hlt (Option.some.inj h)) (Nat.getLast_digit_ne_zero base hn)

theorem isNumeral_utoa (value : UInt32) : IsNumeral base value.toNat (utoa value base) := by
  obtain ⟨hnul,hlen,hne⟩ := utoa_text hbase hmax value
  have hnumeral := utoa_eq hbase value
  exact ⟨hnumeral ▸ decode_numeral hbase hmax _,hne,hnumeral ▸ leading_numeral hbase hmax _,hlen,hnul⟩

end

theorem uintText_eq (value : UInt32) : Screen.uintText value = utoa value 10 := by
  unfold Screen.uintText
  by_cases hv : value = 0
  · subst hv
    rfl
  · have hne : value.toNat ≠ 0 := fun h => hv (UInt32.toNat_inj.mp h)
    have hfuel : value.toNat < 10 ^ 10 := value.toNat_lt.trans (by decide)
    have hchar : ∀ d < 10, '0'.toUInt8 + UInt8.ofNat d = digitChar d := by decide
    have hmap : (Nat.digits 10 value.toNat).map (fun d => '0'.toUInt8 + UInt8.ofNat d) =
        (Nat.digits 10 value.toNat).map digitChar :=
      List.map_congr_left fun d hd => hchar d (Nat.digits_lt_base (by decide) hd)
    rw [if_neg hv, utoa_eq (by decide), numeral, if_neg hne, digitsLoop_eq (by decide) hfuel, hmap]
    exact foldl_swap_eq 0 _

theorem decodeInt_of_decode {s : List UInt8} {n : ℕ} (hne : s ≠ []) (h : decode 10 s = some n) :
    decodeInt s = some (n : ℤ) := by
  cases s with
  | nil => exact absurd rfl hne
  | cons c s =>
    have hsign : c ≠ '-'.toUInt8 := by
      rintro rfl
      have hnone : decodeStep 10 0 '-'.toUInt8 = none := by decide
      rw [decode, List.foldlM_cons, hnone] at h
      cases h
    rw [decodeInt, if_neg hsign, h, Option.map_some]

theorem decodeInt_itoa (value : UInt32) : decodeInt (itoa value 10) = some (int value.toNat) := by
  have hdecode := decode_numeral (show 1 < 10 by decide) (by decide) (int value.toNat).natAbs
  have hsign := negative_eq value
  rw [itoa_eq, ← int_natAbs]
  cases hneg : negative value with
  | true =>
    rw [hneg] at hsign
    have hlt : int value.toNat < 0 := of_decide_eq_true hsign.symm
    have hminus : (0x2D : UInt8) = '-'.toUInt8 := by decide
    rw [if_pos rfl, List.singleton_append, decodeInt, if_pos hminus, hdecode, Option.map_some]
    exact congrArg some (by omega)
  | false =>
    rw [hneg] at hsign
    have hge : ¬int value.toNat < 0 := of_decide_eq_false hsign.symm
    rw [if_neg Bool.false_ne_true, List.nil_append, decodeInt_of_decode (numeral_ne_nil 10 _) hdecode]
    exact congrArg some (by omega)

/-- All conversions are exact. `utoa` and `itoa` stand for the functions of both libraries. -/
theorem conversions_exact (value : UInt32) :
    (∀ base, 2 ≤ base → base ≤ 36 → IsNumeral base value.toNat (utoa value base)) ∧
    (∀ base, 2 ≤ base → base ≤ 16 → uitoa value base = utoa value base) ∧
    Screen.uintText value = utoa value 10 ∧ (∀ s : Screen, s.kprintUint value = s.kprint (utoa value 10)) ∧
    decodeInt (itoa value 10) = some (int value.toNat) := by
  have hscreen : ∀ s : Screen, s.kprintUint value = s.kprint (utoa value 10) := fun s => by
    rw [Screen.kprintUint, uintText_eq]
  exact ⟨fun base hbase hmax => isNumeral_utoa hbase hmax value,fun base hbase hmax => uitoa_eq hbase hmax value,
    uintText_eq value,hscreen,decodeInt_itoa value⟩

theorem conversions_exact_hex : IsNumeral 16 255 (utoa 255 16) ∧ uitoa 255 16 = utoa 255 16 := by
  obtain ⟨hutoa,huitoa,-⟩ := conversions_exact 255
  exact ⟨hutoa 16 (by decide) (by decide),huitoa 16 (by decide) (by decide)⟩

end ApPa.Klibc

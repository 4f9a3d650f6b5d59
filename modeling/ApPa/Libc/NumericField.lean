import ApPa.Libc.Format

/-! # The fields of integers

The layout that C99 gives an integer conversion, stated from the value, the flags, the width
and the precision alone, and when the code comes to the same.
-/
namespace ApPa.Libc
open Klibc Varargs

def numericConversions : List UInt8 :=
  ['d'.toUInt8, 'i'.toUInt8, 'u'.toUInt8, 'x'.toUInt8, 'X'.toUInt8, 'o'.toUInt8]

section C99
variable (c : UInt8) (v : UInt32)

def signed : Bool := c = 'd'.toUInt8 ∨ c = 'i'.toUInt8
def radix : ℕ := if c = 'x'.toUInt8 ∨ c = 'X'.toUInt8 then 16 else if c = 'o'.toUInt8 then 8 else 10

def minus : Bool := signed c ∧ int v.toNat < 0
def magnitude : ℕ := if signed c then (int v.toNat).natAbs else v.toNat

def c99Digit (d : ℕ) : UInt8 :=
  (ascii (if c = 'X'.toUInt8 then "0123456789ABCDEF" else "0123456789abcdef")).getD d 0

/-- The digits of the magnitude, none for zero, and zeros before them up to the precision,
which is 1 if none is given. -/
def c99Digits (p : Option ℕ) : List UInt8 :=
  let digits := ((Nat.digits (radix c) (magnitude c v)).map (c99Digit c)).reverse
  List.replicate (p.getD 1 - digits.length) '0'.toUInt8 ++ digits

def c99Sign : List UInt8 := if minus c v then ['-'.toUInt8] else []

/-- The field of an integer conversion. -/
def c99Field (left zero : Bool) (w : ℕ) (p : Option ℕ) : List UInt8 :=
  let fill := w - (c99Sign c v ++ c99Digits c v p).length
  if left then c99Sign c v ++ c99Digits c v p ++ List.replicate fill ' '.toUInt8
  else if zero ∧ p = none then c99Sign c v ++ List.replicate fill '0'.toUInt8 ++ c99Digits c v p
  else List.replicate fill ' '.toUInt8 ++ c99Sign c v ++ c99Digits c v p

end C99

def numericText (c : UInt8) (v : UInt32) : List UInt8 :=
  if magnitude c v = 0 then ['0'.toUInt8] else ((Nat.digits (radix c) (magnitude c v)).map (c99Digit c)).reverse

theorem int_toNat (v : UInt32) : int v.toNat = if v.toNat < 2 ^ 31 then (v.toNat : ℤ) else v.toNat - 2 ^ 32 := by
  have hv := v.toNat_lt
  rw [int_eq]
  split <;> split <;> omega

theorem negative_eq (v : UInt32) : negative v = decide (int v.toNat < 0) := by
  have hv := v.toNat_lt
  rw [negative, decide_eq_decide, UInt32.le_iff_toNat_le, int_toNat]
  have h31 : (0x80000000 : UInt32).toNat = 2 ^ 31 := rfl
  rw [h31]
  split <;> omega

section Sign
variable {c : UInt8} (hs : signed c = true) (v : UInt32)
include hs

theorem minus_eq : negative v = minus c v := by
  rw [negative_eq, minus, hs]
  simp

theorem magnitude_eq : (if negative v then -v else v).toNat = magnitude c v := by
  have hv := v.toNat_lt
  rw [negative_eq, magnitude, if_pos hs, int_toNat]
  by_cases h : v.toNat < 2 ^ 31
  · simp only [h, if_true]
    rw [if_neg (by simp)]
    simp
  · simp only [h, if_false]
    have hsize : UInt32.size = 2 ^ 32 := rfl
    rw [if_pos (by simp; omega), UInt32.toNat_neg, hsize, Nat.mod_eq_of_lt (by omega)]
    omega

end Sign

theorem one_lt_radix (c : UInt8) : 1 < radix c := by
  unfold radix
  split
  · decide
  · split <;> decide

theorem radix_le (c : UInt8) : radix c ≤ 36 := by
  unfold radix
  split
  · decide
  · split <;> decide

theorem numeral_c99 {c : UInt8} {f : UInt8 → UInt8} (hf : ∀ d < radix c, f (digitChar d) = c99Digit c d)
    (hzero : f '0'.toUInt8 = '0'.toUInt8) {x v : UInt32} (hx : x.toNat = magnitude c v) :
    (utoa x (radix c)).map f = numericText c v := by
  rw [utoa_eq (one_lt_radix c), hx, numeral, numericText]
  split
  · exact congrArg (· :: []) hzero
  · rw [List.map_reverse, List.map_map]
    congr 1
    apply List.map_congr_left
    intro d hd
    exact hf d (Nat.digits_lt_base (one_lt_radix c) hd)

def numericConv (c : UInt8) (v : UInt32) : Conversion := ⟨numericText c v,(numericText c v).length,minus c v,true⟩

theorem numberConv_numeric {c : UInt8} (hf : ∀ d < radix c, digitChar d = c99Digit c d) {x v : UInt32}
    (hx : x.toNat = magnitude c v) {isNegative : Bool} (hneg : isNegative = minus c v) :
    numberConv (utoa x (radix c)) isNegative = numericConv c v := by
  have htext := numeral_c99 (f := id) hf rfl hx
  rw [List.map_id] at htext
  rw [numberConv_eq (utoa_text (one_lt_radix c) (radix_le c) x), htext, hneg, numericConv]

theorem wordConv_numeric {c : UInt8} (hc : c ∈ numericConversions) (v : UInt32) : wordConv c v = numericConv c v := by
  simp only [numericConversions, List.mem_cons, List.not_mem_nil, or_false] at hc
  rcases hc with rfl | rfl | rfl | rfl | rfl | rfl
  · exact numberConv_numeric (c := 'd'.toUInt8) (by decide) (magnitude_eq (by decide) v) (minus_eq (by decide) v)
  · exact numberConv_numeric (c := 'i'.toUInt8) (by decide) (magnitude_eq (by decide) v) (minus_eq (by decide) v)
  · exact numberConv_numeric (c := 'u'.toUInt8) (by decide) rfl (by simp +decide [minus])
  · exact numberConv_numeric (c := 'x'.toUInt8) (by decide) rfl (by simp +decide [minus])
  · have htext := numeral_c99 (c := 'X'.toUInt8) (f := upper) (x := v) (v := v) (by decide) rfl rfl
    have hnum := numberConv_eq (upper_text (utoa_text (show 1 < 16 by decide) (by decide) v)) false
    have hneg : false = minus 'X'.toUInt8 v := by simp +decide [minus]
    refine Eq.trans ?_ (hnum.trans ?_)
    · rfl
    · rw [numericConv, ← htext, ← hneg]
      rfl
  · exact numberConv_numeric (c := 'o'.toUInt8) (by decide) rfl (by simp +decide [minus])

theorem magnitude_lt (c : UInt8) (v : UInt32) : magnitude c v < 2 ^ 32 := by
  have hv := v.toNat_lt
  have hint := int_range v.toNat
  unfold magnitude
  split <;> omega

theorem numericText_length (c : UInt8) (v : UInt32) :
    1 ≤ (numericText c v).length ∧ (numericText c v).length ≤ 32 := by
  unfold numericText
  split
  · decide
  · next h =>
    rw [List.length_reverse, List.length_map, Nat.digits_length_le_iff (one_lt_radix c)]
    refine ⟨?_,(magnitude_lt c v).trans_le (Nat.pow_le_pow_left (one_lt_radix c) 32)⟩
    exact List.length_pos_iff.mpr (Nat.digits_ne_nil_iff_ne_zero.mpr h)

/-- The width and the precision are an `int` each, and so is what the code computes from them. -/
def Representable (w : ℕ) (p : Option ℕ) (neg : Bool) : Prop :=
  (∀ q ∈ p, q < 2 ^ 31) ∧ (w < 2 ^ 31 ∨ w < 2 ^ 32 ∧ neg = true ∧ p = some (2 ^ 31 - 1))

theorem representable_iff (w : ℕ) (p : Option ℕ) (neg : Bool) : Representable w p neg ↔
    p.getD 0 < 2 ^ 31 ∧ (w < 2 ^ 31 ∨ w < 2 ^ 32 ∧ neg = true ∧ p.getD 0 = 2 ^ 31 - 1) := by
  cases p with
  | none => simp [Representable]
  | some q => simp [Representable]

section Field
variable (sp : Spec) {v : Conversion} (hnum : v.isNumber = true) (h0 : 0 ≤ v.convLen)
include hnum h0

theorem extended_eq : extended sp v = true ↔ v.convLen < sp.prec.getD 0 := by
  rw [extended, hnum, Bool.true_and]
  cases sp.prec with
  | none => simp only [Option.any_none, Option.getD_none, Bool.false_eq_true, false_iff, not_lt, h0]
  | some p => simp only [Option.any_some, decide_eq_true_eq, Option.getD_some]

theorem zeroPrefix_eq (hp : sp.prec.getD 0 < 2 ^ 31) :
    zeroPrefix sp v = max (sp.prec.getD 0) v.convLen - v.convLen := by
  rw [zeroPrefix]
  by_cases h : extended sp v = true
  · have hlt := (extended_eq sp hnum h0).mp h
    rw [if_pos h, int_of_range (by omega) (by omega)]
    omega
  · have hle := mt (extended_eq sp hnum h0).mpr h
    rw [if_neg h]
    omega

/-- The length of the field is an `int`, or the smallest one when it is 2³¹. -/
theorem pad_eq (hp : sp.prec.getD 0 < 2 ^ 31) (h32 : v.convLen ≤ 32) (hlow : -2 ^ 31 ≤ sp.width) (hhigh : sp.width < 2 ^ 31)
    {m : ℤ} (hm : m = max (sp.prec.getD 0) v.convLen + if v.isNegative then 1 else 0) :
    (pad sp v).toNat = if m < 2 ^ 31 then (sp.width - m).toNat else if sp.width < 0 then (sp.width + 2 ^ 31).toNat else 0 := by
  have hfield : fieldLen sp v = int m := by
    rw [fieldLen, zeroPrefix_eq sp hnum h0 hp, hm]
    congr 1
    omega
  have hbound : 0 ≤ m ∧ m ≤ 2 ^ 31 := by
    split at hm <;> omega
  rw [pad, hfield]
  by_cases hlt : m < 2 ^ 31
  · rw [int_of_range (by omega) hlt, if_pos hlt]
    split
    · rw [int_eq]
      split <;> omega
    · omega
  · obtain rfl : m = 2 ^ 31 := by omega
    have hint : int (2 ^ 31) = -2 ^ 31 := by decide
    rw [hint, if_neg hlt, int_eq]
    split
    · split <;> split <;> omega
    · split <;> omega

end Field

theorem spec_prec_getD (t : SpecText) : t.spec.prec.getD 0 = int ((t.prec.map decimal).getD 0 : ℕ) := by
  rw [t.spec_prec]
  cases t.prec with
  | none =>
    rw [Option.map_none, Option.map_none, Option.getD_none, Option.getD_none]
    decide
  | some p => rw [Option.map_some, Option.map_some, Option.getD_some, Option.getD_some]

def signLen (c : UInt8) (v : UInt32) : ℕ := if minus c v then 1 else 0

theorem signLen_le (c : UInt8) (v : UInt32) : signLen c v ≤ 1 := by
  rw [signLen]
  split <;> decide

theorem signLen_eq_one {c : UInt8} {v : UInt32} : signLen c v = 1 ↔ minus c v = true := by
  rw [signLen]
  split <;> simp [*]

theorem fill_eq {w p n s : ℕ} (hn : n ≤ 32) (hs : s ≤ 1)
    (hrep : p < 2 ^ 31 ∧ (w < 2 ^ 31 ∨ w < 2 ^ 32 ∧ s = 1 ∧ p = 2 ^ 31 - 1)) {m : ℤ} (hm : m = max (int p) n + s) :
    (if m < 2 ^ 31 then (int w - m).toNat else if int w < 0 then (int w + 2 ^ 31).toNat else 0) = w - (max p n + s) := by
  have hw := int_eq w
  rw [int_of_range (by omega) (by omega)] at hm
  generalize int w = w' at hw ⊢
  split_ifs at hw ⊢ <;> omega

theorem int_nat (x : ℕ) : x < 2 ^ 31 ∧ int x = x ∨ 2 ^ 31 ≤ x ∧ int x ≤ x - 2 ^ 32 := by
  rw [int_eq]
  split <;> omega

theorem length_ne {w p n s l : ℕ} (hn : n ≤ 32) (hs : s ≤ 1) (hl : p ≤ l)
    (hrep : ¬ (p < 2 ^ 31 ∧ (w < 2 ^ 31 ∨ w < 2 ^ 32 ∧ s = 1 ∧ p = 2 ^ 31 - 1))) {m : ℤ} (hm : m = max (int p) n + s) :
    (if m < 2 ^ 31 then (int w - m).toNat else if int w < 0 then (int w + 2 ^ 31).toNat else 0) + s +
      (max (int p) n - n).toNat + n ≠ max w (s + l) := by
  have hw := int_nat w
  have hp := int_nat p
  have hw' := int_range w
  have hp' := int_range p
  generalize int w = w' at hw hw' ⊢
  generalize int p = p' at hp hp' hm ⊢
  obtain ⟨hsum,hlt⟩ : (max p' n - n).toNat + n + s = m.toNat ∧ m ≤ 2 ^ 31 := by omega
  by_cases h : m < 2 ^ 31
  · have hcode : (w' - m).toNat + s + (max p' n - n).toNat + n < 2 ^ 31 := by omega
    rw [if_pos h]
    omega
  · have hfill : (if w' < 0 then (w' + 2 ^ 31).toNat else 0) < 2 ^ 31 := by split <;> omega
    rw [if_neg h]
    generalize (if w' < 0 then (w' + 2 ^ 31).toNat else 0) = fill at hfill ⊢
    omega

section Numbers
variable {t : SpecText} {c : UInt8} (hc : c ∈ numericConversions) {v : UInt32}
include hc

theorem field_numbers : zeroPrefix t.spec (wordConv c v) =
      max (int ((t.prec.map decimal).getD 0 : ℕ)) (numericText c v).length - (numericText c v).length ∧
    (extended t.spec (wordConv c v) = true ↔ (numericText c v).length < int ((t.prec.map decimal).getD 0 : ℕ)) ∧
    ∀ m : ℤ, m = max (int ((t.prec.map decimal).getD 0 : ℕ)) (numericText c v).length + signLen c v →
      (pad t.spec (wordConv c v)).toNat = if m < 2 ^ 31 then (int (decimal t.width) - m).toNat
        else if int (decimal t.width) < 0 then (int (decimal t.width) + 2 ^ 31).toNat else 0 := by
  have h32 := (numericText_length c v).2
  have hprec := int_range ((t.prec.map decimal).getD 0 : ℕ)
  have hwidth := int_range (decimal t.width)
  rw [← spec_prec_getD] at hprec ⊢
  rw [← t.spec_width] at hwidth ⊢
  have hnum : (numericConv c v).isNumber = true := rfl
  have hlen : (numericConv c v).convLen = (numericText c v).length := rfl
  have hneg : (if (numericConv c v).isNegative then (1 : ℤ) else 0) = signLen c v := by
    rw [signLen]
    exact (Nat.cast_ite ..).symm
  have h0 : 0 ≤ (numericConv c v).convLen := Int.natCast_nonneg _
  rw [wordConv_numeric hc v]
  refine ⟨zeroPrefix_eq t.spec hnum h0 hprec.2,extended_eq t.spec hnum h0,?_⟩
  intro m hm
  exact pad_eq t.spec hnum h0 hprec.2 (by omega) hwidth.1 hwidth.2 (by rw [hm, hneg, hlen])

theorem field_numbers_nat (hrep : Representable (decimal t.width) (t.prec.map decimal) (minus c v)) :
    (zeroPrefix t.spec (wordConv c v)).toNat = (t.prec.map decimal).getD 0 - (numericText c v).length ∧
    (pad t.spec (wordConv c v)).toNat =
      decimal t.width - (max ((t.prec.map decimal).getD 0) (numericText c v).length + signLen c v) ∧
    (extended t.spec (wordConv c v) = true ↔ (numericText c v).length < (t.prec.map decimal).getD 0) := by
  obtain ⟨hzero,hext,hpad⟩ := field_numbers (t := t) hc (v := v)
  rw [representable_iff, ← signLen_eq_one] at hrep
  refine ⟨?_,?_,?_⟩
  · rw [hzero, int_of_range (by omega) (by omega)]
    omega
  · rw [hpad _ rfl]
    exact fill_eq (numericText_length c v).2 (signLen_le c v) hrep rfl
  · rw [hext, int_of_range (by omega) (by omega)]
    omega

end Numbers

section Reference
variable (c : UInt8) (v : UInt32) {p : Option ℕ}

/-- The digits agree unless the precision and the value are zero. -/
theorem c99Digits_eq (h : ¬ (p = some 0 ∧ magnitude c v = 0)) :
    c99Digits c v p = List.replicate (p.getD 0 - (numericText c v).length) '0'.toUInt8 ++ numericText c v := by
  unfold c99Digits numericText
  by_cases hm : magnitude c v = 0
  · rw [if_pos hm, hm]
    cases p with
    | none => simp
    | some q =>
      cases q with
      | zero => exact absurd ⟨rfl,hm⟩ h
      | succ q => simp [List.replicate_succ']
  · have hpos : 1 ≤ (Nat.digits (radix c) (magnitude c v)).length :=
      List.length_pos_iff.mpr (Nat.digits_ne_nil_iff_ne_zero.mpr hm)
    rw [if_neg hm]
    cases p with
    | none =>
      simp only [Option.getD_none, List.length_reverse, List.length_map]
      rw [Nat.sub_eq_zero_of_le hpos, Nat.zero_sub]
    | some q => rfl

theorem c99Digits_zero (hm : magnitude c v = 0) : c99Digits c v (some 0) = [] := by
  simp [c99Digits, hm]

theorem c99Digits_length_le : p.getD 1 ≤ (c99Digits c v p).length := by
  simp only [c99Digits, List.length_append, List.length_replicate]
  omega

theorem c99Sign_length : (c99Sign c v).length = signLen c v := by
  unfold c99Sign signLen
  split <;> rfl

theorem c99Sign_zero (hm : magnitude c v = 0) : c99Sign c v = [] := by
  apply if_neg
  intro h
  obtain ⟨hs,hlt⟩ := of_decide_eq_true h
  rw [magnitude, if_pos hs] at hm
  omega

theorem c99Field_empty (hm : magnitude c v = 0) (left zero : Bool) (w : ℕ) :
    c99Field c v left zero w (some 0) = List.replicate w ' '.toUInt8 := by
  simp [c99Field, c99Digits_zero c v hm, c99Sign_zero c v hm]

theorem c99Field_length (left zero : Bool) (w : ℕ) :
    (c99Field c v left zero w p).length = max w ((c99Sign c v).length + (c99Digits c v p).length) := by
  unfold c99Field
  split
  · simp
    omega
  · split
    · simp
      omega
    · simp
      omega

end Reference

section Layout
variable {t : SpecText} {c : UInt8} (hc : c ∈ numericConversions) {v : UInt32}
include hc

theorem fieldChars_numeric (hrep : Representable (decimal t.width) (t.prec.map decimal) (minus c v)) :
    let fill := decimal t.width - (max ((t.prec.map decimal).getD 0) (numericText c v).length + signLen c v)
    let body := List.replicate ((t.prec.map decimal).getD 0 - (numericText c v).length) '0'.toUInt8 ++ numericText c v
    fieldChars t.spec (wordConv c v) =
      if '-'.toUInt8 ∈ t.flags then c99Sign c v ++ body ++ List.replicate fill ' '.toUInt8
      else if '0'.toUInt8 ∈ t.flags ∧ (t.prec.map decimal).getD 0 ≤ (numericText c v).length then
        c99Sign c v ++ List.replicate fill '0'.toUInt8 ++ body
      else List.replicate fill ' '.toUInt8 ++ c99Sign c v ++ body := by
  obtain ⟨hzero,hpad,hext⟩ := field_numbers_nat hc hrep
  have htake : (wordConv c v).conv.take (wordConv c v).convLen.toNat = numericText c v := by
    rw [wordConv_numeric hc v]
    exact List.take_length
  have hsign : (if (wordConv c v).isNegative then ['-'.toUInt8] else []) = c99Sign c v := by
    rw [wordConv_numeric hc v]
    rfl
  have hflag : (t.spec.flagZero && !extended t.spec (wordConv c v)) = true ↔
      '-'.toUInt8 ∉ t.flags ∧ '0'.toUInt8 ∈ t.flags ∧ (t.prec.map decimal).getD 0 ≤ (numericText c v).length := by
    rw [Bool.and_eq_true, Bool.not_eq_true', ← Bool.not_eq_true, hext, SpecText.spec, decide_eq_true_eq, not_lt]
    exact ⟨fun h => ⟨h.1.2,h.1.1,h.2⟩,fun h => ⟨⟨h.2.1,h.1⟩,h.2.2⟩⟩
  have hleft : t.spec.flagLeft = true ↔ '-'.toUInt8 ∈ t.flags := by rw [SpecText.spec, decide_eq_true_eq]
  simp only [fieldChars, hzero, hpad, htake, hsign]
  by_cases hl : '-'.toUInt8 ∈ t.flags
  · have hz : (t.spec.flagZero && !extended t.spec (wordConv c v)) = false :=
      Bool.eq_false_iff.mpr fun h => (hflag.mp h).1 hl
    rw [hz, hleft.mpr hl, if_pos hl]
    simp
  · have hnl : t.spec.flagLeft = false := Bool.eq_false_iff.mpr (mt hleft.mp hl)
    rw [hnl, if_neg hl]
    by_cases hz : '0'.toUInt8 ∈ t.flags ∧ (t.prec.map decimal).getD 0 ≤ (numericText c v).length
    · rw [hflag.mpr ⟨hl,hz⟩, if_pos hz]
      simp only [Bool.not_true, Bool.and_false, Bool.false_eq_true, if_false, if_true, List.nil_append, List.append_nil,
        List.append_assoc]
    · rw [Bool.eq_false_iff.mpr fun h => hz (hflag.mp h).2, if_neg hz]
      simp

theorem fieldChars_ne (left zero : Bool) (hrep : ¬ Representable (decimal t.width) (t.prec.map decimal) (minus c v)) :
    fieldChars t.spec (wordConv c v) ≠ c99Field c v left zero (decimal t.width) (t.prec.map decimal) := by
  intro heq
  have hlen := congrArg List.length heq
  have hconv := wordConv_numeric hc v
  have hneg : (if (wordConv c v).isNegative then 1 else 0) = signLen c v := by rw [hconv]; rfl
  have htext : min (wordConv c v).convLen.toNat (wordConv c v).conv.length = (numericText c v).length := by
    rw [hconv]
    exact Nat.min_self _
  obtain ⟨hzero,-,hpad⟩ := field_numbers (t := t) hc (v := v)
  have hdigits := c99Digits_length_le c v (p := t.prec.map decimal)
  have hP : (t.prec.map decimal).getD 0 ≤ (t.prec.map decimal).getD 1 := by cases t.prec <;> simp
  rw [fieldChars_length, c99Field_length, c99Sign_length, hneg, htext, hzero, hpad _ rfl] at hlen
  rw [representable_iff, ← signLen_eq_one] at hrep
  exact length_ne (numericText_length c v).2 (signLen_le c v) (hP.trans hdigits) hrep rfl hlen

/-- When the code lays a field out as the standard has it. -/
structure FollowsC99 (t : SpecText) (c : UInt8) (v : UInt32) : Prop where
  representable : Representable (decimal t.width) (t.prec.map decimal) (minus c v)
  /-- Zero with a precision of zero is still written as one digit. -/
  not_empty : ¬ (t.prec.map decimal = some 0 ∧ magnitude c v = 0)
  /-- A precision that the digits reach leaves the '0' flag in force. -/
  not_filled : ¬ ('0'.toUInt8 ∈ t.flags ∧ '-'.toUInt8 ∉ t.flags ∧ ∃ p, t.prec.map decimal = some p ∧
    p ≤ (numericText c v).length ∧ (numericText c v).length + signLen c v < decimal t.width)

theorem fieldChars_iff : fieldChars t.spec (wordConv c v) =
    c99Field c v ('-'.toUInt8 ∈ t.flags) ('0'.toUInt8 ∈ t.flags) (decimal t.width) (t.prec.map decimal) ↔
      FollowsC99 t c v := by
  by_cases hrep : Representable (decimal t.width) (t.prec.map decimal) (minus c v)
  swap
  · exact iff_of_false (fieldChars_ne hc _ _ hrep) fun h => hrep h.representable
  have hcode := fieldChars_numeric hc hrep
  dsimp only at hcode
  by_cases hempty : t.prec.map decimal = some 0 ∧ magnitude c v = 0
  · refine iff_of_false ?_ fun h => h.not_empty hempty
    have hmem : '0'.toUInt8 ∈ fieldChars t.spec (wordConv c v) := by
      have htext : '0'.toUInt8 ∈ numericText c v := by rw [numericText, if_pos hempty.2]; exact List.mem_singleton_self _
      rw [hcode]
      split_ifs <;> simp [htext]
    intro heq
    rw [heq, hempty.1, c99Field_empty c v hempty.2] at hmem
    exact absurd (List.eq_of_mem_replicate hmem) (by decide)
  have hfill : decimal t.width - (c99Sign c v ++ c99Digits c v (t.prec.map decimal)).length =
      decimal t.width - (max ((t.prec.map decimal).getD 0) (numericText c v).length + signLen c v) := by
    rw [c99Digits_eq c v hempty, List.length_append, List.length_append, List.length_replicate, c99Sign_length]
    omega
  rw [hcode, c99Field, hfill, c99Digits_eq c v hempty]
  generalize hf : decimal t.width - (max ((t.prec.map decimal).getD 0) (numericText c v).length + signLen c v) = fill
  by_cases hl : '-'.toUInt8 ∈ t.flags
  · rw [if_pos hl, if_pos (decide_eq_true hl)]
    exact iff_of_true rfl ⟨hrep,hempty,fun h => h.2.1 hl⟩
  rw [if_neg hl, if_neg (mt of_decide_eq_true hl)]
  simp only [decide_eq_true_eq]
  cases hp : t.prec.map decimal with
  | none =>
    -- without a precision the '0' flag is in force for both
    refine iff_of_true (by simp) ⟨hrep,hempty,?_⟩
    rintro ⟨-,-,p,hp',-⟩
    simp [hp] at hp'
  | some p =>
    rw [hp, Option.getD_some] at hf
    rw [Option.getD_some, if_neg (fun h : _ ∧ some p = none => Option.some_ne_none p h.2)]
    by_cases hz : '0'.toUInt8 ∈ t.flags ∧ p ≤ (numericText c v).length
    · rw [if_pos hz]
      cases fill with
      | zero =>
        refine iff_of_true (by simp) ⟨hrep,hempty,?_⟩
        rintro ⟨-,-,q,hq,-,hlt⟩
        omega
      | succ fill =>
        refine iff_of_false ?_ fun h => h.not_filled ⟨hz.1,hl,p,hp,hz.2,by omega⟩
        -- one starts with a blank, the other with the sign or a zero
        intro heq
        unfold c99Sign at heq
        split at heq
        · exact absurd (List.cons.inj heq).1 (by decide)
        · exact absurd (List.cons.inj heq).1 (by decide)
    · rw [if_neg hz]
      refine iff_of_true rfl ⟨hrep,hempty,?_⟩
      rintro ⟨hzero,-,q,hq,hle,-⟩
      rw [hp, Option.some.injEq] at hq
      exact hz ⟨hzero,hq ▸ hle⟩

end Layout

/-- An integer conversion is laid out as the standard has it, but for zero with a precision of
zero and the '0' flag with a precision that the digits reach. -/
theorem output_numeric_iff (d : Directive) (hc : d.conv ∈ numericConversions) (v : UInt32) (rest : List UInt8) :
    output (formatText [.dir d] ++ 0 :: rest) [.word v] =
      .ok (c99Field d.conv v ('-'.toUInt8 ∈ d.flags) ('0'.toUInt8 ∈ d.flags) (decimal d.width) (d.prec.map decimal)) ↔
        FollowsC99 d.toSpecText d.conv v := by
  have hword : argType d.conv = some .word := by
    rw [argType_word]
    exact List.mem_of_mem_take (i := 6) hc
  have hrender : render [.dir d] [.word v] = .ok (fieldChars d.spec (wordConv d.conv v),[]) := by
    simp only [render, convert_word _ _ hword, vaWord, Except.map, bind, Except.bind, pure, Except.pure, emitChars,
      List.append_nil]
  obtain ⟨fuel,-,hout⟩ := output_formatText [.dir d] (0 :: rest) [.word v]
  rw [hout, hrender, Except.bind, chars_nul, Except.map, List.append_nil, Except.ok.injEq]
  exact fieldChars_iff hc

def leftDirective : Directive := .decimal {
  flags := ['-'.toUInt8]
  width := ['8'.toUInt8]
  prec := some ['5'.toUInt8]
  long := false
  flags_isFlag := by decide +kernel
  width_isDigit := by decide +kernel
  width_head := by decide +kernel
  prec_isDigit := by decide +kernel }

theorem output_numeric_iff_left : output (ascii "%-8.5d" ++ [0]) [.word (-42)] = .ok (ascii "-00042  ") := by
  have hfield : c99Field 'd'.toUInt8 (-42) true false 8 (some 5) = ascii "-00042  " := by decide +kernel
  have hfollows : FollowsC99 leftDirective.toSpecText 'd'.toUInt8 (-42) := by
    refine ⟨(representable_iff ..).mpr (by decide +kernel),by decide +kernel,fun h => ?_⟩
    exact absurd h.1 (by decide)
  have houtput := (output_numeric_iff leftDirective (by decide) (-42) []).mpr hfollows
  rw [← hfield]
  exact houtput

/-- The formats "%.0d" with 0 and "%05.2d" with 123. -/
theorem output_numeric_other :
    output (ascii "%.0d" ++ [0]) [.word 0] = .ok ['0'.toUInt8] ∧
    output (ascii "%05.2d" ++ [0]) [.word 123] = .ok (ascii "00123") ∧
    c99Field 'd'.toUInt8 0 false false 0 (some 0) = [] ∧
    c99Field 'd'.toUInt8 123 false true 5 (some 2) = ascii "  123" := by
  exact ⟨rfl,rfl,by decide,by decide⟩

end ApPa.Libc

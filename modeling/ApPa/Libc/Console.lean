import ApPa.Libc.NumericField
import ApPa.Libc.Truncation

/-! # Console output of the user C library

`vprintf` formats into a buffer on its stack and hands it to `sys_write` in one call; the
older `print_int` converts a number on its own and writes it character by character. The
state is the list of the characters handed to `sys_write` so far.
-/
namespace ApPa.Libc
open Klibc Numeral Varargs

def printfBufsz : UInt32 := 256

def sysWrite (out : List UInt8) (buf : ℕ → UInt8) (len : ℤ) : List UInt8 := out ++ contents buf len.toNat

/-- The return value and the characters written; `buf` is what the stack held before. -/
def vprintf (buf : ℕ → UInt8) (out fmt : List UInt8) (args : List VaArg) : Except Fault (ℤ × List UInt8) := do
  let r ← vsnprintf buf printfBufsz fmt args
  let n := r.1
  if n > 0 then return (n,sysWrite out r.2.buf (if n < printfBufsz.toNat then n else printfBufsz.toNat - 1))
  else return (n,out)

def printf (buf : ℕ → UInt8) (out fmt : List UInt8) (args : List VaArg) : Except Fault (ℤ × List UInt8) :=
  vprintf buf out fmt args

def putchar (out : List UInt8) (c : UInt8) : List UInt8 := sysWrite out (fun _ => c) 1

/-- `while (val > 0) { buf[i++] = '0' + (val % 10); val /= 10; }` on a buffer of so many bytes. -/
def intDigits : ℕ → ℤ → List UInt8
  | 0, _ => []
  | room + 1, val => if val > 0 then ('0'.toUInt8 + UInt8.ofNat (val.tmod 10).toNat) :: intDigits room (val.tdiv 10) else []

/-- The negation is one of `int`s. -/
def printInt (out : List UInt8) (v : UInt32) : List UInt8 :=
  let val := int v.toNat
  let s := if val < 0 then (putchar out '-'.toUInt8,int (-val)) else (out,val)
  if s.2 = 0 then putchar s.1 '0'.toUInt8
  else (intDigits 12 s.2).reverse.foldl putchar s.1

theorem putchar_eq (out : List UInt8) (c : UInt8) : putchar out c = out ++ [c] := rfl

theorem output_d (v : UInt32) (rest : List UInt8) :
    output ('%'.toUInt8 :: 'd'.toUInt8 :: 0 :: rest) [.word v] = .ok (itoa v 10) := by
  let d : Directive := .bare 'd'.toUInt8 (by decide) (by decide) (by decide) (by decide) (by decide)
  have hrender : render [.dir d] [.word v] = .ok (itoa v 10,[]) := by
    have hword : argType d.conv = some .word := by decide
    have hfield : fieldChars d.spec (wordConv d.conv v) = itoa v 10 := by
      rw [itoa_eq, ← utoa_eq (by decide)]
      exact fieldChars_number rfl rfl rfl _ _ (by decide) (by decide)
    simp only [render, convert_word _ _ hword, vaWord, Except.map, bind, Except.bind, pure, Except.pure, emitChars,
      List.append_nil, hfield]
  obtain ⟨fuel,-,hout⟩ := output_formatText [.dir d] (0 :: rest) [.word v]
  rw [hrender, Except.bind, chars_nul, Except.map, List.append_nil] at hout
  exact hout

theorem vprintf_short {fmt text : List UInt8} {args : List VaArg} (h : output fmt args = .ok text) (hne : text ≠ [])
    (hlen : text.length < 256) (buf : ℕ → UInt8) (out : List UInt8) :
    vprintf buf out fmt args = .ok (text.length,out ++ text) := by
  obtain ⟨o,ho,htrunc⟩ := vsnprintf_truncated h (by omega) buf (show printfBufsz ≠ 0 by decide)
  have hpos := List.length_pos_iff.mpr hne
  have hsize : printfBufsz.toNat = 256 := rfl
  have hall := htrunc.contents
  rw [hsize, Nat.min_eq_left (by omega), List.take_of_length_le (by omega)] at hall
  rw [vprintf, ho]
  simp only [bind, Except.bind, pure, Except.pure, hsize]
  rw [if_pos (by omega), if_pos (by omega), sysWrite, Int.toNat_natCast, hall]

theorem intDigits_eq (room n : ℕ) : intDigits room n = (digitsLoop 10 room n).map digitChar := by
  induction room generalizing n with
  | zero => rfl
  | succ room ih =>
    rw [intDigits, digitsLoop]
    by_cases hn : n = 0
    · subst hn
      rfl
    have hdigit : '0'.toUInt8 + UInt8.ofNat ((n : ℤ).tmod 10).toNat = digitChar (n % 10) := by
      have hmod : ((n : ℤ).tmod 10).toNat = n % 10 := by
        rw [Int.tmod_eq_emod_of_nonneg (Int.natCast_nonneg n)]
        omega
      rw [hmod, digitChar, if_neg (by omega), UInt8.add_comm]
      rfl
    have hdiv : (n : ℤ).tdiv 10 = (n / 10 : ℕ) := by
      rw [Int.tdiv_eq_ediv_of_nonneg (Int.natCast_nonneg n)]
      omega
    rw [if_pos (by omega), if_pos hn, hdigit, hdiv, ih, List.map_cons]

theorem writeDigits {n : ℕ} (hn : n < 2 ^ 31) (out : List UInt8) :
    (if (n : ℤ) = 0 then putchar out '0'.toUInt8 else (intDigits 12 n).reverse.foldl putchar out) = out ++ numeral 10 n := by
  have hputs : ∀ l : List UInt8, l.foldl putchar out = out ++ l := fun l => foldl_snoc l out
  rw [numeral]
  by_cases h0 : n = 0
  · subst h0
    rfl
  · rw [if_neg (by omega), if_neg h0, hputs, intDigits_eq, digitsLoop_eq (by decide) (by omega)]

theorem int_natAbs (v : UInt32) : (int v.toNat).natAbs = (if negative v then -v else v).toNat :=
  ((magnitude_eq (c := 'd'.toUInt8) (by decide) v).trans (if_pos (by decide))).symm

/-- The one value whose magnitude is out of reach. -/
theorem natAbs_lt (v : UInt32) : (int v.toNat).natAbs < 2 ^ 31 ↔ v ≠ 0x80000000 := by
  have hmin : v = 0x80000000 ↔ v.toNat = 2 ^ 31 := UInt32.toNat_inj.symm
  have hv := v.toNat_lt
  rw [int_toNat, ne_eq, hmin]
  split <;> omega

theorem printInt_eq {v : UInt32} (hv : v ≠ 0x80000000) (out : List UInt8) : printInt out v = out ++ itoa v 10 := by
  have hlt := (natAbs_lt v).mpr hv
  have hdigits := writeDigits hlt
  rw [itoa_eq, ← int_natAbs, negative_eq, printInt]
  generalize int v.toNat = val at hlt hdigits
  by_cases hneg : val < 0
  · have habs : int (-val) = val.natAbs := by
      rw [int_of_range (by omega) (by omega)]
      omega
    simp only [hneg, if_true, habs, decide_true]
    rw [hdigits, putchar_eq, List.append_assoc]
    congr 1
  · obtain ⟨n,rfl⟩ := Int.eq_ofNat_of_zero_le (not_lt.mp hneg)
    rw [Int.natAbs_natCast] at hdigits ⊢
    simp only [hneg, if_false, decide_false]
    rw [hdigits, if_neg (by decide), List.nil_append]

/-- The smallest `int` is its own negation, and the loop ends at once. -/
theorem printInt_min (out : List UInt8) : printInt out 0x80000000 = out ++ ['-'.toUInt8] := by
  have hval : int (0x80000000 : UInt32).toNat = -2 ^ 31 := by rw [int_toNat]; rfl
  have hneg : int (-(-2 ^ 31)) = -2 ^ 31 := by rw [int_eq]; rfl
  simp only [printInt, hval, hneg]
  rfl

theorem itoa_short (v : UInt32) : itoa v 10 ≠ [] ∧ (itoa v 10).length < 256 := by
  rw [itoa_eq]
  have hlen := numeral_length_le (show 1 < 10 by decide) (if negative v then -v else v)
  have hsign : (if negative v then [(0x2D : UInt8)] else []).length ≤ 1 := by split <;> simp
  refine ⟨fun h => numeral_ne_nil 10 _ (List.append_eq_nil_iff.mp h).2,?_⟩
  rw [List.length_append]
  omega

/-- `print_int` writes what `printf` writes for "%d", but for the smallest number. -/
theorem printInt_printf_iff (v : UInt32) (buf : ℕ → UInt8) (out rest : List UInt8) :
    (printf buf out ('%'.toUInt8 :: 'd'.toUInt8 :: 0 :: rest) [.word v]).map Prod.snd = .ok (printInt out v) ↔
      v ≠ 0x80000000 := by
  obtain ⟨hne,hlen⟩ := itoa_short v
  rw [printf, vprintf_short (output_d v rest) hne hlen, Except.map, Except.ok.injEq]
  by_cases hv : v = 0x80000000
  · subst hv
    refine iff_of_false ?_ (fun h => h rfl)
    rw [printInt_min, List.append_right_inj]
    decide
  · exact iff_of_true (printInt_eq hv out).symm hv

/-- `print_int` writes a lone sign where `printf` writes "-2147483648". -/
theorem printInt_printf_min :
    (printf (fun _ => 0) [] (ascii "%d" ++ [0]) [.word 0x80000000]).map Prod.snd =
      .ok (ascii "-2147483648") ∧
    printInt [] 0x80000000 = ['-'.toUInt8] := by
  refine ⟨?_,printInt_min []⟩
  obtain ⟨hne,hlen⟩ := itoa_short 0x80000000
  exact congrArg (Except.map Prod.snd) (vprintf_short (output_d 0x80000000 []) hne hlen (fun _ => 0) [])

end ApPa.Libc

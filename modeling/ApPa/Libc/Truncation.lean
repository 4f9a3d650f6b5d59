import ApPa.Libc.Format

/-! # Output in a buffer of some size

Whatever the size of the buffer, `vsnprintf` counts the complete output and stores as much
of its front as there is room for.
-/
namespace ApPa.Libc
open Klibc Varargs

/-- A buffer of `n` bytes with the output `out` in it, as far as there is room. -/
structure Truncated (buf : ℕ → UInt8) (n : ℕ) (out : List UInt8) (o : Out) : Prop where
  chars : ∀ i < min out.length (n - 1), o.buf i = out.getD i 0
  nul : o.buf (min out.length (n - 1)) = 0
  untouched : ∀ i, min out.length (n - 1) < i → o.buf i = buf i
  writes : ∀ i ∈ o.writes, i < n

variable {buf : ℕ → UInt8} {size : UInt32} {out : List UInt8} {fmt : List UInt8} {args : List VaArg}

theorem toNat_sub_one (hsize : size ≠ 0) : (size - 1).toNat = size.toNat - 1 := by
  have hpos : size.toNat ≠ 0 := fun h => hsize (UInt32.toNat_inj.mp h)
  exact UInt32.toNat_sub_of_le size 1 (UInt32.le_iff_toNat_le.mpr (Nat.one_le_iff_ne_zero.mpr hpos))

theorem Kept.terminate {o : Out} (h : Kept size buf out o) (hsize : size ≠ 0) :
    Truncated buf size.toNat out (terminate size o) := by
  have hpos : 0 < size.toNat := Nat.pos_of_ne_zero fun h => hsize (UInt32.toNat_inj.mp h)
  have hsub := toNat_sub_one hsize
  have hbuf := h.buf
  have hwrites := h.writes
  rw [hsub] at hbuf hwrites
  obtain ⟨k,hk,hkn⟩ : ∃ k : UInt32, Libc.terminate size o = o.write k 0 ∧
      k.toNat = min out.length (size.toNat - 1) := by
    refine ⟨if o.pos < size then o.pos else size - 1,if_pos ?_,?_⟩
    · exact UInt32.lt_iff_toNat_lt.mpr hpos
    · have hlt : o.pos < size ↔ out.length < size.toNat := by rw [UInt32.lt_iff_toNat_lt, h.pos]
      split
      · next hroom =>
        rw [h.pos]
        have := hlt.mp hroom
        omega
      · next hfull =>
        rw [hsub]
        have := mt hlt.mpr hfull
        omega
  have hwrite : (o.write k 0).buf = Function.update o.buf (min out.length (size.toNat - 1)) 0 := by
    rw [Out.write, hkn]
  rw [hk]
  constructor
  · intro i hi
    rw [hwrite, Function.update_of_ne hi.ne, hbuf, if_pos hi]
  · rw [hwrite, Function.update_self]
  · intro i hi
    rw [hwrite, Function.update_of_ne hi.ne', hbuf, if_neg (by omega)]
  · intro i hi
    rw [Out.write, hkn, hwrites, List.mem_append, List.mem_range, List.mem_singleton] at hi
    omega

theorem vsnprintf_truncated (hout : output fmt args = .ok out) (hlen : out.length < 2 ^ 31) (buf : ℕ → UInt8)
    (hsize : size ≠ 0) : ∃ o, vsnprintf buf size fmt args = .ok (out.length,o) ∧ Truncated buf size.toNat out o := by
  have hkept := kept_foldl size buf out (by omega)
  refine ⟨_,?_,hkept.terminate hsize⟩
  have hnat : (UInt32.ofNat out.length).toNat = out.length := UInt32.toNat_ofNat_of_lt (hlen.trans (by decide))
  rw [vsnprintf_eq, hout, Except.map, hnat, int_of_range (by omega) (by exact_mod_cast hlen)]

def contents (buf : ℕ → UInt8) (len : ℕ) : List UInt8 := (List.range len).map buf

theorem Truncated.contents {n : ℕ} {o : Out} (h : Truncated buf n out o) :
    contents o.buf (min out.length (n - 1)) = out.take (n - 1) := by
  apply List.ext_getElem?
  intro i
  rw [Libc.contents, List.getElem?_map, List.getElem?_take]
  by_cases hi : i < min out.length (n - 1)
  · have hlt : i < out.length := by omega
    rw [List.getElem?_range hi, Option.map_some, h.chars i hi, if_pos (by omega), List.getElem?_eq_getElem hlt,
      List.getD_eq_getElem _ _ hlt]
  · rw [List.getElem?_eq_none (by rw [List.length_range]; omega)]
    split
    · rw [List.getElem?_eq_none (by omega)]
      rfl
    · rfl

/-- Whatever the size, the call counts the complete output and stores its front with a NUL
behind it, inside the buffer. -/
theorem vsnprintf_truncates (ps : List Piece) (rest : List UInt8) (args : List VaArg) (h : Matches ps args) :
    ∃ out, output (formatText ps ++ 0 :: rest) args = .ok out ∧ (out.length < 2 ^ 31 →
      ∀ (n : UInt32) (buf : ℕ → UInt8), n ≠ 0 →
        ∃ o, vsnprintf buf n (formatText ps ++ 0 :: rest) args = .ok (out.length,o) ∧ Truncated buf n.toNat out o ∧
          ∃ on os, snprintf buf n (formatText ps ++ 0 :: rest) args = .ok (out.length,on) ∧
            sprintf buf (formatText ps ++ 0 :: rest) args = .ok (out.length,os) ∧
              contents on.buf (min out.length (n.toNat - 1)) <+: contents os.buf out.length) := by
  obtain ⟨r,hr⟩ := h.render
  obtain ⟨fuel,-,hout⟩ := output_formatText ps (0 :: rest) args
  have hok : output (formatText ps ++ 0 :: rest) args = .ok r.1 := by
    rw [hout, hr]
    simp [Except.bind, chars_nul, Except.map]
  refine ⟨r.1,hok,fun hlen n buf hn => ?_⟩
  obtain ⟨o,ho,htrunc⟩ := vsnprintf_truncated hok hlen buf hn
  obtain ⟨os,hos,hfull⟩ := vsnprintf_truncated hok hlen buf (show (-1 : UInt32) ≠ 0 by decide)
  refine ⟨o,ho,htrunc,o,os,ho,hos,?_⟩
  have hsize : (-1 : UInt32).toNat - 1 = 2 ^ 32 - 2 := by decide
  have hall := hfull.contents
  rw [hsize, Nat.min_eq_left (by omega), List.take_of_length_le (by omega)] at hall
  rw [htrunc.contents, hall]
  exact List.take_prefix _ _

def fiveDirective : Directive := .decimal { SpecText.plain with
  width := ['5'.toUInt8]
  width_isDigit := by decide +kernel
  width_head := by decide +kernel }

/-- The format "a%5d-%s" with 123 and "xyz" in a buffer of eight bytes. -/
theorem vsnprintf_truncates_eight :
    ∃ o, vsnprintf (fun _ => 0xFF) 8 (ascii "a%5d-%s" ++ [0]) [.word 123, .str (some ⟨ascii "xyz" ++ [0],by decide⟩)] = .ok (10,o) ∧
      Truncated (fun _ => 0xFF) 8 (ascii "a  123-xyz") o := by
  have houtput : output (ascii "a%5d-%s" ++ [0]) [.word 123, .str (some ⟨ascii "xyz" ++ [0],by decide⟩)] =
      .ok (ascii "a  123-xyz") := by rfl
  obtain ⟨out,hout,h⟩ := vsnprintf_truncates [.lit 'a'.toUInt8 (by decide) (by decide), .dir fiveDirective,
    .lit '-'.toUInt8 (by decide) (by decide),
    .dir (.bare 's'.toUInt8 (by decide) (by decide) (by decide) (by decide) (by decide))] []
    [.word 123, .str (some ⟨ascii "xyz" ++ [0],by decide⟩)]
    (.lit (.word 123 (by decide) (.lit (.str (some ⟨ascii "xyz" ++ [0],by decide⟩) (by decide) (.nil [])))))
  obtain rfl : ascii "a  123-xyz" = out := Except.ok.inj (houtput.symm.trans hout)
  obtain ⟨o,ho,htrunc,-⟩ := h (by decide +kernel) 8 (fun _ => 0xFF) (by decide)
  exact ⟨o,ho,htrunc⟩

end ApPa.Libc

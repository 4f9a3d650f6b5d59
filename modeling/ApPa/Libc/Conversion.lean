import ApPa.Libc.SpecText

/-! # Conversions

Every conversion character takes a word, a string or nothing. A word is written out in full;
of a string the precision may keep a part.
-/
namespace ApPa.Libc
open Klibc Varargs

inductive ArgType
  | word
  | str
  deriving DecidableEq

def wordConversions : List UInt8 :=
  ['d'.toUInt8, 'i'.toUInt8, 'u'.toUInt8, 'x'.toUInt8, 'X'.toUInt8, 'o'.toUInt8, 'c'.toUInt8, 'p'.toUInt8]

def argType (c : UInt8) : Option ArgType :=
  if c ∈ wordConversions then some .word else if c = 's'.toUInt8 then some .str else none

def wordConv (c : UInt8) (v : UInt32) : Conversion :=
  if c = 'd'.toUInt8 ∨ c = 'i'.toUInt8 then
    numberConv (utoa (if negative v then -v else v) 10) (negative v)
  else if c = 'u'.toUInt8 then numberConv (utoa v 10) false
  else if c = 'x'.toUInt8 then numberConv (utoa v 16) false
  else if c = 'X'.toUInt8 then numberConv ((utoa v 16).map upper) false
  else if c = 'o'.toUInt8 then numberConv (utoa v 8) false
  else if c = 'c'.toUInt8 then ⟨[UInt8.ofNat v.toNat],1,false,false⟩
  else
    let tmp := ascii "0x" ++ utoa v 16
    ⟨tmp,int (strlen tmp),false,false⟩

def plainText (c : UInt8) : List UInt8 := if c = '%'.toUInt8 then ['%'.toUInt8] else ['%'.toUInt8,c]

section Convert
variable {c : UInt8} (sp : Spec) (args : List VaArg)

theorem argType_word : argType c = some .word ↔ c ∈ wordConversions := by
  unfold argType
  split
  · simp [*]
  · next hc =>
    refine ⟨fun h => ?_,fun h => absurd h hc⟩
    split at h <;> simp at h

theorem argType_str : argType c = some .str ↔ c = 's'.toUInt8 := by
  unfold argType
  split
  · next hc =>
    refine ⟨fun h => by simp at h,fun h => ?_⟩
    rw [h] at hc
    exact absurd hc (by decide)
  · split <;> simp [*]

theorem convert_word (hc : argType c = some .word) :
    convert sp c args = (vaWord args).map fun a => (.field (wordConv c a.1),a.2) := by
  rw [argType_word, wordConversions] at hc
  simp only [List.mem_cons, List.not_mem_nil, or_false] at hc
  -- the cases of the switch, each with an argument and without one
  rcases hc with rfl | rfl | rfl | rfl | rfl | rfl | rfl | rfl <;> cases h : vaWord args <;>
    simp +decide [convert, wordConv, h, Except.map, bind, Except.bind, pure, Except.pure]

theorem convert_str (hc : argType c = some .str) :
    convert sp c args = (vaStr args).map fun a => (.field (stringConv sp a.1),a.2) := by
  rw [argType_str.mp hc]
  cases h : vaStr args <;> simp [convert, h] <;> rfl

theorem convert_none (hc : argType c = none) : convert sp c args = .ok (.plain (plainText c),args) := by
  have hword : c ∉ wordConversions := fun h => by simp [argType_word.mpr h] at hc
  have hstr : c ≠ 's'.toUInt8 := fun h => by simp [argType_str.mpr h] at hc
  simp only [wordConversions, List.mem_cons, List.not_mem_nil, or_false, not_or] at hword
  simp only [convert, hword, hstr, or_self, if_false, plainText]
  split <;> rfl

/-- All of the text is put out, and there is some. -/
structure Whole (v : Conversion) : Prop where
  convLen_eq : v.convLen = v.conv.length
  conv_ne_nil : v.conv ≠ []

theorem int_strlen {s : List UInt8} (h0 : 0 ∉ s) (hlen : s.length < 2 ^ 31) : int (strlen s) = s.length := by
  rw [strlen_eq, cstr_of_notMem h0, int_of_range (by omega) (by exact_mod_cast hlen)]

theorem numberConv_eq {tmp : List UInt8} (h : 0 ∉ tmp ∧ tmp.length ≤ 32 ∧ tmp ≠ []) (isNegative : Bool) :
    numberConv tmp isNegative = ⟨tmp,tmp.length,isNegative,true⟩ := by
  rw [numberConv, int_strlen h.1 (by omega)]

theorem numberConv_whole {tmp : List UInt8} (h : 0 ∉ tmp ∧ tmp.length ≤ 32 ∧ tmp ≠ []) (isNegative : Bool) :
    Whole (numberConv tmp isNegative) := by
  rw [numberConv_eq h]
  exact ⟨rfl,h.2.2⟩

theorem upper_eq_zero {c : UInt8} (h : upper c = 0) : c = 0 := by
  unfold upper at h
  split at h
  · next hc =>
    have h32 : c = 32 := by grind
    rw [h32] at hc
    exact absurd hc (by decide)
  · exact h

theorem upper_text {tmp : List UInt8} (h : 0 ∉ tmp ∧ tmp.length ≤ 32 ∧ tmp ≠ []) :
    0 ∉ tmp.map upper ∧ (tmp.map upper).length ≤ 32 ∧ tmp.map upper ≠ [] := by
  refine ⟨?_,by simpa using h.2.1,by simpa using h.2.2⟩
  rw [List.mem_map]
  rintro ⟨c,hc,h0⟩
  exact h.1 (upper_eq_zero h0 ▸ hc)

theorem wordConv_whole (c : UInt8) (v : UInt32) : Whole (wordConv c v) := by
  have h10 := utoa_text (show 1 < 10 by decide) (by decide)
  have h16 := utoa_text (show 1 < 16 by decide) (by decide) v
  have h8 := utoa_text (show 1 < 8 by decide) (by decide) v
  unfold wordConv
  split
  · exact numberConv_whole (h10 _) _
  split
  · exact numberConv_whole (h10 v) _
  split
  · exact numberConv_whole h16 _
  split
  · exact numberConv_whole (upper_text h16) _
  split
  · exact numberConv_whole h8 _
  split
  · exact ⟨rfl,by simp⟩
  · have htext : 0 ∉ ascii "0x" := by decide
    have hlen : (ascii "0x").length = 2 := by decide
    constructor
    · dsimp only
      rw [int_strlen]
      · rw [List.mem_append, not_or]
        exact ⟨htext,h16.1⟩
      · rw [List.length_append]
        omega
    · exact List.append_ne_nil_of_right_ne_nil _ h16.2.2

end Convert

end ApPa.Libc

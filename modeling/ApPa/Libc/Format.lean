import ApPa.Libc.Conversion
import ApPa.Libc.Output

/-! # The formats `vsnprintf` reads

A format is a sequence of characters and directives, and the loop puts out what its pieces
do one after the other.
-/
namespace ApPa.Libc
open Klibc Varargs

/-- The padding stands at exactly one of the three places for it. -/
theorem fieldChars_length (t : SpecText) (v : Conversion) : (fieldChars t.spec v).length =
    (pad t.spec v).toNat + (if v.isNegative then 1 else 0) + (zeroPrefix t.spec v).toNat + min v.convLen.toNat v.conv.length := by
  simp only [fieldChars, List.length_append]
  generalize hb : (t.spec.flagZero && !extended t.spec v) = flagZero
  cases hl : t.spec.flagLeft with
  | false => cases flagZero <;> cases v.isNegative <;> simp [Nat.add_comm]
  | true =>
    have hz : flagZero = false := by simp [← hb, t.flagZero_of_left hl]
    cases v.isNegative <;> simp [hz] <;> omega

structure Directive extends SpecText where
  conv : UInt8
  conv_ne : conv ≠ 0
  ends : toSpecText.Ends conv

/-- Nothing between '%' and the conversion character. -/
def SpecText.plain : SpecText where
  flags := []
  width := []
  prec := none
  long := false
  flags_isFlag := by simp
  width_isDigit := by simp
  width_head := by simp
  prec_isDigit := by simp

def Directive.bare (c : UInt8) (h0 : c ≠ 0) (hflag : isFlag c = false) (hdigit : isDigit c = false)
    (hpoint : c ≠ '.'.toUInt8) (hlong : c ≠ 'l'.toUInt8) : Directive :=
  ⟨.plain,c,h0,SpecText.ends_of _ hflag hdigit hpoint hlong⟩

/-- A directive "d" with whatever stands in front of it. -/
def Directive.decimal (t : SpecText) : Directive :=
  ⟨t,'d'.toUInt8,by decide,SpecText.ends_of _ (by decide) (by decide) (by decide) (by decide)⟩

theorem fieldChars_bare {t : SpecText} (hflags : t.flags = []) (hw : t.width = []) (hp : t.prec = none) {v : Conversion}
    (h0 : 0 ≤ v.convLen) (hlen : v.convLen + (if v.isNegative then 1 else 0) < 2 ^ 31) :
    fieldChars t.spec v = (if v.isNegative then ['-'.toUInt8] else []) ++ v.conv.take v.convLen.toNat := by
  have hprec : t.spec.prec = none := by rw [SpecText.spec_prec, hp]; rfl
  have hext : extended t.spec v = false := by rw [extended, hprec]; exact Bool.and_false _
  have hzero : zeroPrefix t.spec v = 0 := by rw [zeroPrefix, hext]; rfl
  have hpad : pad t.spec v = 0 := by
    have hwidth : t.spec.width = 0 := by
      have hnone : decimal t.width = 0 := by rw [hw]; rfl
      rw [SpecText.spec_width, hnone]
      decide
    have hfield : 0 ≤ fieldLen t.spec v := by
      have hsign : (0 : ℤ) ≤ if v.isNegative then 1 else 0 := by split <;> decide
      rw [fieldLen, hzero, add_zero, int_of_range (by omega) hlen]
      omega
    rw [pad, hwidth, if_neg (by omega)]
  have hleft : t.spec.flagLeft = false := by simp [SpecText.spec, hflags]
  have hflag : t.spec.flagZero = false := by simp [SpecText.spec, hflags]
  simp [fieldChars, hzero, hpad, hleft, hflag]

theorem fieldChars_number {t : SpecText} (hflags : t.flags = []) (hw : t.width = []) (hp : t.prec = none) (v : UInt32)
    {base : ℕ} (neg : Bool) (hbase : 1 < base) (hmax : base ≤ 36) :
    fieldChars t.spec (numberConv (utoa v base) neg) = (if neg then ['-'.toUInt8] else []) ++ utoa v base := by
  have htext := utoa_text hbase hmax v
  rw [numberConv_eq htext, fieldChars_bare hflags hw hp (Int.natCast_nonneg _) (by dsimp only; split <;> omega)]
  simp

/-- A character that stands for itself, or a directive. -/
inductive Piece
  | lit (c : UInt8) (h0 : c ≠ 0) (hp : c ≠ '%'.toUInt8)
  | dir (d : Directive)

def Piece.text : Piece → List UInt8
  | .lit c _ _ => [c]
  | .dir d => '%'.toUInt8 :: (d.toSpecText.text ++ [d.conv])

def formatText (ps : List Piece) : List UInt8 := ps.flatMap Piece.text

theorem formatText_eq_nil {ps : List Piece} (h : formatText ps = []) : ps = [] := by
  cases ps with
  | nil => rfl
  | cons p ps => cases p <;> simp [formatText, Piece.text] at h

/-- The characters of a format of pieces, and the arguments left. -/
def render : List Piece → List VaArg → Except Fault (List UInt8 × List VaArg)
  | [], args => .ok ([],args)
  | .lit c _ _ :: ps, args => do
    let r ← render ps args
    return (c :: r.1,r.2)
  | .dir d :: ps, args => do
    let e ← convert d.spec d.conv args
    let r ← render ps e.2
    return (emitChars d.spec e.1 ++ r.1,r.2)

/-- The arguments start with what the directives of the format take. -/
inductive Matches : List Piece → List VaArg → Prop
  | nil (args : List VaArg) : Matches [] args
  | lit {c : UInt8} {h0 : c ≠ 0} {hp : c ≠ '%'.toUInt8} {ps : List Piece} {args : List VaArg} :
      Matches ps args → Matches (.lit c h0 hp :: ps) args
  | word {d : Directive} {ps : List Piece} {args : List VaArg} (v : UInt32) :
      argType d.conv = some .word → Matches ps args → Matches (.dir d :: ps) (.word v :: args)
  | str {d : Directive} {ps : List Piece} {args : List VaArg} (s : Option Str) :
      argType d.conv = some .str → Matches ps args → Matches (.dir d :: ps) (.str s :: args)
  | other {d : Directive} {ps : List Piece} {args : List VaArg} :
      argType d.conv = none → Matches ps args → Matches (.dir d :: ps) args

section Loop
variable {σ : Type} (put : σ → UInt8 → σ)

theorem formatLoop_lit {c : UInt8} (h0 : c ≠ 0) (hp : c ≠ '%'.toUInt8) (fuel : ℕ) (rest : List UInt8) (args : List VaArg)
    (s : σ) : formatLoop put (fuel + 1) (c :: rest) args s = formatLoop put fuel rest args (put s c) := by
  simp only [formatLoop, next, bind, Except.bind, h0, if_false, ne_eq, hp, not_false_eq_true, if_true]

theorem directive_text {t : SpecText} {c : UInt8} (h : t.Ends c) (rest : List UInt8) (args : List VaArg) :
    directive (t.text ++ c :: rest) args = (convert t.spec c args).map fun e => ((t.spec,e.1),rest,e.2) := by
  simp only [directive, bind, Except.bind, SpecText.parseSpec_text h rest, next]
  cases convert t.spec c args <;> rfl

theorem formatLoop_dir {t : SpecText} {c : UInt8} (h : t.Ends c) (hc : t.text ≠ [] ∨ c ≠ 0)
    (fuel : ℕ) (rest : List UInt8) (args : List VaArg) (s : σ) :
    formatLoop put (fuel + 1) ('%'.toUInt8 :: (t.text ++ c :: rest)) args s =
      (convert t.spec c args).bind fun e =>
        formatLoop put fuel rest e.2 ((emitChars t.spec e.1).foldl put s) := by
  obtain ⟨d,r,hd,hne⟩ : ∃ d r, t.text ++ c :: rest = d :: r ∧ d ≠ 0 := by
    cases htext : t.text with
    | nil => exact ⟨c,rest,rfl,hc.resolve_left fun h => h htext⟩
    | cons d r => exact ⟨d,r ++ c :: rest,rfl,fun h0 => t.zero_notMem (by rw [htext, h0]; exact List.mem_cons_self)⟩
  have hdir := directive_text h rest args
  rw [hd] at hdir ⊢
  rw [formatLoop]
  simp only [next, bind, Except.bind, ne_eq, not_true_eq_false, if_false, hne, hdir]
  rw [if_neg (by decide)]
  cases convert t.spec c args with
  | error e => rfl
  | ok e => exact congrArg (formatLoop put fuel rest e.2) (emit_eq put t.spec e.1 s)

theorem Matches.render {ps : List Piece} {args : List VaArg} (h : Matches ps args) :
    ∃ r, render ps args = .ok r := by
  induction h with
  | nil args => exact ⟨_,rfl⟩
  | lit _ ih =>
    obtain ⟨r,hr⟩ := ih
    exact ⟨_,by simp only [Libc.render, hr]; rfl⟩
  | word v hd _ ih =>
    obtain ⟨r,hr⟩ := ih
    exact ⟨_,by simp only [Libc.render, convert_word _ _ hd, vaWord, Except.map, bind, Except.bind, hr]; rfl⟩
  | str s hd _ ih =>
    obtain ⟨r,hr⟩ := ih
    exact ⟨_,by simp only [Libc.render, convert_str _ _ hd, vaStr, Except.map, bind, Except.bind, hr]; rfl⟩
  | other hd _ ih =>
    obtain ⟨r,hr⟩ := ih
    exact ⟨_,by simp only [Libc.render, convert_none _ _ hd, bind, Except.bind, hr]; rfl⟩

end Loop

section Chars
variable {c : UInt8} {t : SpecText} (fuel : ℕ) (rest : List UInt8) (args : List VaArg)

theorem chars_lit (h0 : c ≠ 0) (hp : c ≠ '%'.toUInt8) :
    chars (fuel + 1) (c :: rest) args = (chars fuel rest args).map (c :: ·) := by
  rw [chars, formatLoop_lit _ h0 hp, formatLoop_eq]
  simp only [foldl_snoc]
  rfl

theorem chars_dir (h : t.Ends c) (hc : t.text ≠ [] ∨ c ≠ 0) :
    chars (fuel + 1) ('%'.toUInt8 :: (t.text ++ c :: rest)) args = (convert t.spec c args).bind fun e =>
      (chars fuel rest e.2).map (emitChars t.spec e.1 ++ ·) := by
  rw [chars, formatLoop_dir _ h hc]
  congr 1
  funext e
  rw [formatLoop_eq]
  simp only [foldl_snoc, List.nil_append]

theorem chars_pieces (ps : List Piece) :
    chars (ps.length + fuel) (formatText ps ++ rest) args = (render ps args).bind fun r =>
      (chars fuel rest r.2).map (r.1 ++ ·) := by
  induction ps generalizing args with
  | nil =>
    rw [List.length_nil, Nat.zero_add]
    change chars fuel rest args = (chars fuel rest args).map id
    cases chars fuel rest args <;> rfl
  | cons p ps ih =>
    have htext : formatText (p :: ps) ++ rest = p.text ++ (formatText ps ++ rest) := by
      simp only [formatText, List.flatMap_cons, List.append_assoc]
    rw [htext, List.length_cons, Nat.add_right_comm]
    cases p with
    | lit c h0 hp =>
      rw [Piece.text, List.singleton_append, chars_lit _ _ _ h0 hp, ih, render]
      cases render ps args with
      | error e => rfl
      | ok r =>
        cases h : chars fuel rest r.2 <;> simp [Except.bind, bind, pure, Except.pure, Except.map, h]
    | dir d =>
      simp only [Piece.text, List.cons_append, List.append_assoc, List.nil_append]
      rw [chars_dir _ _ _ d.ends (.inr d.conv_ne), render]
      cases convert d.spec d.conv args with
      | error e => rfl
      | ok e =>
        simp only [Except.bind, bind, ih]
        cases render ps e.2 with
        | error e => rfl
        | ok r =>
          cases h : chars fuel rest r.2 <;> simp [pure, Except.pure, Except.map, h]

end Chars

theorem length_le_formatText (ps : List Piece) : ps.length ≤ (formatText ps).length := by
  induction ps with
  | nil => exact Nat.le_refl _
  | cons p ps ih =>
    have hp : 1 ≤ p.text.length := by cases p <;> simp [Piece.text]
    simp only [formatText, List.flatMap_cons, List.length_append, List.length_cons] at ih ⊢
    omega

/-- The loop has fuel for every piece and every byte behind them. -/
theorem output_formatText (ps : List Piece) (tail : List UInt8) (args : List VaArg) : ∃ fuel, tail.length ≤ fuel ∧
    output (formatText ps ++ tail) args = (render ps args).bind fun r => (chars (fuel + 1) tail r.2).map (r.1 ++ ·) := by
  have hlen := length_le_formatText ps
  refine ⟨(formatText ps).length - ps.length + tail.length,by omega,?_⟩
  rw [← chars_pieces]
  have hfuel : (formatText ps ++ tail).length + 1 =
      ps.length + ((formatText ps).length - ps.length + tail.length + 1) := by
    rw [List.length_append]
    omega
  exact congrArg (chars · (formatText ps ++ tail) args) hfuel

example : output (ascii "%05d|%-4s|%x%" ++ [0]) [.word (-42),.str none,.word 255] =
    .ok (ascii "-0042|(null)|ff") := by rfl

theorem chars_nul (fuel : ℕ) (rest : List UInt8) (args : List VaArg) : chars (fuel + 1) (0 :: rest) args = .ok [] := rfl

end ApPa.Libc

import ApPa.Libc.Format

/-! # A buffer of size zero

The test of `out_char` is made against `size - 1`, which is the largest number when the size
is zero. A call with size zero writes every character it puts out, so it keeps away from the
buffer only if there is none.
-/
namespace ApPa.Libc
open Klibc Varargs

theorem exists_of_bind {α β : Type} {x : Except Fault α} {f : α → Except Fault β} {b : β} (h : x.bind f = .ok b) :
    ∃ a, x = .ok a ∧ f a = .ok b := by
  cases x with
  | error e => cases h
  | ok a => exact ⟨a,rfl,h⟩

theorem next_extend {s : List UInt8} {c : UInt8 × List UInt8} (h : next s = .ok c) (z : List UInt8) :
    next (s ++ z) = .ok (c.1,c.2 ++ z) := by
  cases s with
  | nil => simp [next] at h
  | cons d s =>
    obtain rfl : (d,s) = c := by simpa [next] using h
    rfl

theorem scanWhile_extend {σ : Type} {p : UInt8 → Bool} {f : σ → UInt8 → σ} {s : List UInt8} {a : σ}
    {r : σ × List UInt8} (h : scanWhile p f s a = .ok r) (z : List UInt8) :
    scanWhile p f (s ++ z) a = .ok (r.1,r.2 ++ z) := by
  induction s generalizing a with
  | nil => simp [scanWhile] at h
  | cons c s ih =>
    rw [scanWhile] at h
    rw [List.cons_append, scanWhile]
    split
    · next hc =>
      rw [if_pos hc] at h
      exact ih h
    · next hc =>
      rw [if_neg hc] at h
      obtain rfl : (a,c :: s) = r := by simpa using h
      rfl

theorem scanPrec_extend {s : List UInt8} {r : Option ℤ × List UInt8} (h : scanPrec s = .ok r) (z : List UInt8) :
    scanPrec (s ++ z) = .ok (r.1,r.2 ++ z) := by
  obtain ⟨c,hc,h⟩ := exists_of_bind h
  simp only [scanPrec, bind, next_extend hc z, Except.bind]
  by_cases hpoint : c.1 = '.'.toUInt8
  · rw [if_pos hpoint] at h ⊢
    obtain ⟨p,hp,h⟩ := exists_of_bind h
    have hz : scanNumber (c.2 ++ z) = .ok (p.1,p.2 ++ z) := scanWhile_extend hp z
    obtain rfl := Except.ok.inj h
    rw [hz]
    rfl
  · rw [if_neg hpoint] at h ⊢
    obtain rfl := Except.ok.inj h
    rfl

theorem scanLength_extend {s r : List UInt8} (h : scanLength s = .ok r) (z : List UInt8) :
    scanLength (s ++ z) = .ok (r ++ z) := by
  obtain ⟨c,hc,h⟩ := exists_of_bind h
  simp only [scanLength, bind, next_extend hc z, Except.bind]
  split
  · next hl =>
    rw [if_pos hl] at h
    obtain rfl := Except.ok.inj h
    rfl
  · next hl =>
    rw [if_neg hl] at h
    obtain rfl := Except.ok.inj h
    rfl

/-- What is read of a directive does not depend on the memory behind it. -/
theorem parseSpec_extend {s : List UInt8} {r : Spec × List UInt8} (h : parseSpec s = .ok r) (z : List UInt8) :
    parseSpec (s ++ z) = .ok (r.1,r.2 ++ z) := by
  obtain ⟨flags,hflags,h⟩ := exists_of_bind h
  obtain ⟨width,hwidth,h⟩ := exists_of_bind h
  obtain ⟨prec,hprec,h⟩ := exists_of_bind h
  obtain ⟨rest,hrest,h⟩ := exists_of_bind h
  obtain rfl := Except.ok.inj h
  have hf : scanFlags (s ++ z) = .ok (flags.1,flags.2 ++ z) := scanWhile_extend hflags z
  have hw : scanNumber (flags.2 ++ z) = .ok (width.1,width.2 ++ z) := scanWhile_extend hwidth z
  simp only [parseSpec, bind, Except.bind, hf, hw, scanPrec_extend hprec z, scanLength_extend hrest z]
  rfl

/-- A directive without its conversion character is read to the end of the memory. -/
theorem directive_cut (t : SpecText) (args : List VaArg) (r : (Spec × Emit) × List UInt8 × List VaArg) :
    directive t.text args ≠ .ok r := by
  intro h
  obtain ⟨sp,hsp,h⟩ := exists_of_bind h
  obtain ⟨c,hc,-⟩ := exists_of_bind h
  have hnul := parseSpec_extend hsp [0]
  have hends : t.Ends 0 := t.ends_of (by decide) (by decide) (by decide) (by decide)
  rw [SpecText.parseSpec_text hends []] at hnul
  have hrest : sp.2 = [] := by
    have h := congrArg Prod.snd (Except.ok.inj hnul)
    simpa using h.symm
  rw [hrest] at hc
  cases hc

theorem fieldChars_eq_nil (t : SpecText) (v : Conversion) : fieldChars t.spec v = [] ↔
    v.isNegative = false ∧ pad t.spec v ≤ 0 ∧ zeroPrefix t.spec v ≤ 0 ∧ v.conv.take v.convLen.toNat = [] := by
  rw [← List.length_eq_zero_iff, ← List.length_eq_zero_iff, fieldChars_length, List.length_take]
  cases v.isNegative with
  | false =>
    simp only [Bool.false_eq_true, if_false, true_and]
    omega
  | true =>
    simp only [if_true, Bool.true_eq_false, false_and, iff_false]
    omega

def textLen (s : Option Str) : ℕ := strlen (s.elim nullText Str.bytes)

def shownLen (t : SpecText) (s : Option Str) : ℤ :=
  t.prec.elim (textLen s : ℤ) fun p => min (int (decimal p)) (textLen s)

/-- No character of the string is put out, and no padding. -/
def Blank (t : SpecText) (s : Option Str) : Prop :=
  shownLen t s ≤ 0 ∧
    (int (decimal t.width) ≤ shownLen t s ∨ int (int (decimal t.width) - shownLen t s) ≤ 0)

theorem textLen_le (s : Option Str) : textLen s ≤ (s.elim nullText Str.bytes).length := by
  rw [textLen, strlen_eq]
  exact (List.takeWhile_prefix _).length_le

theorem textLen_lt (s : Option Str) : textLen s < 2 ^ 31 := by
  refine Nat.lt_of_le_of_lt (textLen_le s) ?_
  cases s with
  | none => exact Nat.lt_of_le_of_lt (Nat.le_of_ble_eq_true rfl : nullText.length ≤ 6) (by decide)
  | some s => exact s.length_lt

theorem shownLen_range (t : SpecText) (s : Option Str) : -2 ^ 31 ≤ shownLen t s ∧ shownLen t s < 2 ^ 31 := by
  have hlen := textLen_lt s
  rw [shownLen]
  cases t.prec with
  | none =>
    rw [Option.elim_none]
    omega
  | some p =>
    have hp := int_range (decimal p)
    rw [Option.elim_some]
    omega

theorem shownLen_le (t : SpecText) (s : Option Str) : shownLen t s ≤ textLen s := by
  rw [shownLen]
  cases t.prec with
  | none =>
    rw [Option.elim_none]
  | some p =>
    rw [Option.elim_some]
    omega

theorem stringConv_convLen (t : SpecText) (s : Option Str) : (stringConv t.spec s).convLen = shownLen t s := by
  have hlen := textLen_lt s
  have hint : int (textLen s) = textLen s := int_of_range (by omega) (by omega)
  have hconv : (stringConv t.spec s).convLen = t.spec.prec.elim (int (textLen s)) fun prec =>
      if prec < int (textLen s) then prec else int (textLen s) := rfl
  rw [hconv, t.spec_prec, hint, shownLen]
  cases t.prec with
  | none => rfl
  | some p =>
    rw [Option.map_some, Option.elim_some, Option.elim_some]
    split <;> omega

theorem stringConv_eq_nil (t : SpecText) (s : Option Str) : fieldChars t.spec (stringConv t.spec s) = [] ↔ Blank t s := by
  have hlen := stringConv_convLen t s
  have hrange := shownLen_range t s
  have hzero : zeroPrefix t.spec (stringConv t.spec s) = 0 := rfl
  have hfield : fieldLen t.spec (stringConv t.spec s) = shownLen t s := by
    rw [fieldLen, hzero, hlen]
    exact (congrArg int (by simp [stringConv])).trans (int_of_range hrange.1 hrange.2)
  have hpad : pad t.spec (stringConv t.spec s) ≤ 0 ↔
      int (decimal t.width) ≤ shownLen t s ∨ int (int (decimal t.width) - shownLen t s) ≤ 0 := by
    rw [pad, hfield, t.spec_width]
    split <;> omega
  have htake : (stringConv t.spec s).conv.take (shownLen t s).toNat = [] ↔ shownLen t s ≤ 0 := by
    rw [List.take_eq_nil_iff, Int.toNat_eq_zero]
    refine ⟨fun h => h.elim id fun hnil => ?_,.inl⟩
    have hle := textLen_le s
    have hz : textLen s = 0 := by
      have h0 : (s.elim nullText Str.bytes).length = 0 := congrArg List.length hnil
      omega
    exact (shownLen_le t s).trans (by omega)
  have hneg : (stringConv t.spec s).isNegative = false := rfl
  rw [fieldChars_eq_nil, hzero, hlen, hpad, htake, hneg, Blank]
  exact ⟨fun h => ⟨h.2.2.2,h.2.1⟩,fun h => ⟨rfl,h.2,le_refl _,h.1⟩⟩

theorem emitChars_eq_nil {t : SpecText} {c : UInt8} {args : List VaArg} {e : Emit × List VaArg}
    (h : convert t.spec c args = .ok e) :
    emitChars t.spec e.1 = [] ↔ c = 's'.toUInt8 ∧ ∃ s, args = .str s :: e.2 ∧ Blank t s := by
  cases harg : argType c with
  | none =>
    rw [convert_none _ _ harg] at h
    obtain rfl := Except.ok.inj h
    refine iff_of_false ?_ fun hs => by simp [argType_str.mpr hs.1] at harg
    rw [emitChars, plainText]
    split <;> simp
  | some ty =>
    cases ty with
    | word =>
      rw [convert_word _ _ harg] at h
      refine iff_of_false ?_ fun hs => by simp [argType_str.mpr hs.1] at harg
      cases hv : vaWord args with
      | error e => simp [hv, Except.map] at h
      | ok a =>
        rw [hv] at h
        obtain rfl := Except.ok.inj h
        have hwhole := wordConv_whole c a.1
        rw [emitChars, fieldChars_eq_nil, hwhole.convLen_eq]
        exact fun hnil => hwhole.conv_ne_nil (by simpa using hnil.2.2.2)
    | str =>
      rw [convert_str _ _ harg] at h
      cases args with
      | nil => cases h
      | cons a args =>
        cases a with
        | word v => cases h
        | str s =>
          obtain rfl := Except.ok.inj h
          rw [emitChars, stringConv_eq_nil]
          constructor
          · intro hb
            exact ⟨argType_str.mp harg,s,rfl,hb⟩
          · rintro ⟨-,s',he,hb⟩
            cases he
            exact hb

/-- There is nothing to put out: the format is empty, up to blank string fields and a '%' at
its end. -/
inductive Silent : List UInt8 → List VaArg → Prop
  | nul (rest : List UInt8) (args : List VaArg) : Silent (0 :: rest) args
  | percent (rest : List UInt8) (args : List VaArg) : Silent ('%'.toUInt8 :: 0 :: rest) args
  | blank {t : SpecText} {s : Option Str} {rest : List UInt8} {args : List VaArg} :
      Blank t s → Silent rest args → Silent ('%'.toUInt8 :: (t.text ++ 's'.toUInt8 :: rest)) (.str s :: args)

theorem chars_cut (t : SpecText) (fuel : ℕ) (args : List VaArg) (out : List UInt8) :
    chars (fuel + 1) ('%'.toUInt8 :: t.text) args ≠ .ok out := by
  intro h
  obtain ⟨d,hd,h⟩ := exists_of_bind h
  have hne : d.1 ≠ 0 := by
    intro h0
    cases htext : t.text with
    | nil => simp [htext, next] at hd
    | cons x r =>
      obtain rfl : (x,r) = d := by simpa [htext, next] using hd
      exact t.zero_notMem (by simp [htext, ← h0])
  rw [if_neg hne] at h
  obtain ⟨e,he,-⟩ := exists_of_bind h
  exact directive_cut t args e he

theorem SpecText.ends_s (t : SpecText) : t.Ends 's'.toUInt8 :=
  t.ends_of (by decide) (by decide) (by decide) (by decide)

theorem silent_directive {t : SpecText} {c : UInt8} (h : t.Ends c) (hc : t.text ≠ [] ∨ c ≠ 0) {rest : List UInt8}
    {args : List VaArg} : Silent ('%'.toUInt8 :: (t.text ++ c :: rest)) args ↔
      c = 's'.toUInt8 ∧ ∃ s args', args = .str s :: args' ∧ Blank t s ∧ Silent rest args' := by
  constructor
  · intro hs
    generalize hfmt : '%'.toUInt8 :: (t.text ++ c :: rest) = fmt at hs
    cases hs with
    | nul r args => exact absurd (List.cons.inj hfmt).1 (by decide)
    | percent r args =>
      exfalso
      have htail := (List.cons.inj hfmt).2
      cases htext : t.text with
      | nil =>
        rw [htext] at htail
        exact hc.elim (fun h => h htext) fun h => h (List.cons.inj htail).1
      | cons d x =>
        rw [htext] at htail
        have h0 : d = 0 := (List.cons.inj htail).1
        exact t.zero_notMem (by simp [htext, h0])
    | @blank t' s rest' args' hb hs =>
      obtain ⟨hspec,rfl,rfl⟩ := specText_unique h t'.ends_s (List.cons.inj hfmt).2
      refine ⟨rfl,s,args',rfl,?_,hs⟩
      rw [← stringConv_eq_nil] at hb ⊢
      rwa [hspec]
  · rintro ⟨rfl,s,args',rfl,hb,hs⟩
    exact .blank hb hs

theorem silent_iff {fuel : ℕ} {fmt : List UInt8} {args : List VaArg} {out : List UInt8}
    (h : chars fuel fmt args = .ok out) : out = [] ↔ Silent fmt args := by
  induction fuel generalizing fmt args out with
  | zero => cases h
  | succ fuel ih =>
    cases fmt with
    | nil => cases h
    | cons c rest =>
      by_cases h0 : c = 0
      · subst h0
        obtain rfl := Except.ok.inj h
        exact iff_of_true rfl (.nul rest args)
      by_cases hp : c = '%'.toUInt8
      · subst hp
        obtain ⟨t,r,rfl,hends⟩ := exists_specText rest
        cases r with
        | nil =>
          rw [List.append_nil] at h
          exact absurd h (chars_cut t fuel args out)
        | cons d r =>
          by_cases hd : t.text ≠ [] ∨ d ≠ 0
          · rw [chars_dir fuel r args (hends d rfl) hd] at h
            obtain ⟨e,he,h⟩ := exists_of_bind h
            cases hr : chars fuel r e.2 with
            | error x => simp [hr, Except.map] at h
            | ok out' =>
              rw [hr] at h
              obtain rfl := Except.ok.inj h
              rw [silent_directive (hends d rfl) hd, List.append_eq_nil_iff, emitChars_eq_nil he, ih hr]
              constructor
              · rintro ⟨⟨hs,s,rfl,hb⟩,hsil⟩
                exact ⟨hs,s,e.2,rfl,hb,hsil⟩
              · rintro ⟨rfl,s,args',rfl,hb,hsil⟩
                rw [convert_str _ _ (by decide)] at he
                obtain rfl := Except.ok.inj he
                exact ⟨⟨rfl,s,rfl,hb⟩,hsil⟩
          · obtain ⟨htext,rfl⟩ : t.text = [] ∧ d = 0 := by simpa [not_or] using hd
            rw [htext] at h ⊢
            obtain rfl := Except.ok.inj h
            exact iff_of_true rfl (.percent r args)
      · rw [chars_lit fuel rest args h0 hp] at h
        refine iff_of_false ?_ fun hs => ?_
        · rintro rfl
          cases hr : chars fuel rest args <;> simp [hr, Except.map] at h
        · cases hs with
          | nul r args => exact h0 rfl
          | percent r args => exact hp rfl
          | blank hb hs => exact hp rfl

/-- A call with size zero writes nothing only if there is nothing to write: `size - 1` is the
largest number then, and every character has room below it. -/
theorem vsnprintf_zero_silent (fmt : List UInt8) (args : List VaArg) (out : List UInt8) (h : output fmt args = .ok out) :
    (∀ buf : ℕ → UInt8, ∃ r o, vsnprintf buf 0 fmt args = .ok (r,o) ∧ o.writes = [] ∧
      ∀ n, ∃ o', vsnprintf buf n fmt args = .ok (r,o')) ↔ Silent fmt args := by
  rw [← silent_iff (h : chars (fmt.length + 1) fmt args = .ok out)]
  have hcall : ∀ buf n, vsnprintf buf n fmt args =
      .ok (int (UInt32.ofNat out.length).toNat,terminate n (out.foldl (outChar n) ⟨0,buf,[]⟩)) := by
    intro buf n
    rw [vsnprintf_eq, h, Except.map]
  constructor
  · intro hzero
    obtain ⟨r,o,ho,hwrites,-⟩ := hzero fun _ => 0
    rw [hcall] at ho
    obtain rfl := congrArg Prod.snd (Except.ok.inj ho)
    cases out with
    | nil => rfl
    | cons c out =>
      have hpre := writes_foldl 0 out (outChar 0 ⟨0,fun _ => 0,[]⟩ c)
      have hfirst : (outChar 0 ⟨0,fun _ => 0,[]⟩ c).writes = [0] := rfl
      rw [hfirst] at hpre
      have hnil : (out.foldl (outChar 0) (outChar 0 ⟨0,fun _ => 0,[]⟩ c)).writes = [] := hwrites
      rw [hnil] at hpre
      simp at hpre
  · rintro rfl buf
    exact ⟨_,_,hcall buf 0,rfl,fun n => ⟨_,hcall buf n⟩⟩

/-- The format "%s" with an empty string. -/
theorem vsnprintf_zero_silent_blank : output ['%'.toUInt8, 's'.toUInt8, 0] [.str (some ⟨[],by decide⟩)] = .ok [] ∧
    ((∀ buf : ℕ → UInt8, ∃ r o, vsnprintf buf 0 ['%'.toUInt8, 's'.toUInt8, 0] [.str (some ⟨[],by decide⟩)] = .ok (r,o) ∧
      o.writes = [] ∧ ∀ n, ∃ o', vsnprintf buf n ['%'.toUInt8, 's'.toUInt8, 0] [.str (some ⟨[],by decide⟩)] = .ok (r,o')) ↔
        Silent ['%'.toUInt8, 's'.toUInt8, 0] [.str (some ⟨[],by decide⟩)]) :=
  ⟨rfl,vsnprintf_zero_silent _ _ [] rfl⟩

/-- The format "a" with size zero: the first byte of the buffer is written. -/
theorem vsnprintf_zero_writes :
    ∃ r o, vsnprintf (fun _ => 0) 0 ['a'.toUInt8, 0] [] = .ok (r,o) ∧ o.writes = [0] := ⟨_,_,rfl,rfl⟩

end ApPa.Libc

import ApPa.Libc.Format

/-! # The end of the format

The loop stops at the NUL of the format unless the NUL comes where a conversion character is
expected: then it is taken for one, and the loop goes on behind it.
-/
namespace ApPa.Libc
open Klibc Varargs

/-- The arguments suit every directive that the string has. -/
def Supplied (s : List UInt8) (args : List VaArg) : Prop := ∀ ps tail, s = formatText ps ++ tail → Matches ps args

/-- The string ends inside a directive, behind some of what may stand before its conversion
character. -/
def Cut (s : List UInt8) : Prop := ∃ (ps : List Piece) (t : SpecText), t.text ≠ [] ∧ s = formatText ps ++ '%'.toUInt8 :: t.text

/-- Every string is made of pieces, up to a '%' at its end or a directive that is cut off. -/
theorem exists_pieces (s : List UInt8) (h0 : 0 ∉ s) : ∃ (ps : List Piece) (tail : List UInt8), s = formatText ps ++ tail ∧
    (tail = [] ∨ tail = ['%'.toUInt8] ∨ ∃ t : SpecText, t.text ≠ [] ∧ tail = '%'.toUInt8 :: t.text) := by
  induction hn : s.length using Nat.strong_induction_on generalizing s with
  | _ n ih =>
    subst hn
    have hcons : ∀ (p : Piece) (r : List UInt8), s = p.text ++ r → 0 ∉ r → r.length < s.length →
        ∃ (ps : List Piece) (tail : List UInt8), s = formatText ps ++ tail ∧
          (tail = [] ∨ tail = ['%'.toUInt8] ∨ ∃ t : SpecText, t.text ≠ [] ∧ tail = '%'.toUInt8 :: t.text) := by
      intro p r hs hr hlen
      obtain ⟨ps,tail,hps,htail⟩ := ih r.length hlen r hr rfl
      exact ⟨p :: ps,tail,by simp only [hs, hps, formatText, List.flatMap_cons, List.append_assoc],htail⟩
    cases s with
    | nil => exact ⟨[],[],rfl,.inl rfl⟩
    | cons c s =>
      rw [List.mem_cons, not_or] at h0
      by_cases hp : c = '%'.toUInt8
      · subst hp
        obtain ⟨t,r,rfl,hends⟩ := exists_specText s
        cases r with
        | nil =>
          by_cases ht : t.text = []
          · exact ⟨[],['%'.toUInt8],by rw [ht]; rfl,.inr (.inl rfl)⟩
          · exact ⟨[],_,rfl,.inr (.inr ⟨t,ht,by rw [List.append_nil]⟩)⟩
        | cons d r =>
          have hd : d ≠ 0 ∧ 0 ∉ r := by
            have h := h0.2
            simp only [List.mem_append, List.mem_cons, not_or] at h
            exact ⟨Ne.symm h.2.1,h.2.2⟩
          refine hcons (.dir ⟨t,d,hd.1,hends d rfl⟩) r ?_ hd.2 ?_
          · simp [Piece.text]
          · simp
            omega
      · exact hcons (.lit c (Ne.symm h0.1) hp) s rfl h0.2 (by simp)

/-- The loop stops at the NUL of a format, and reads on behind it only where the NUL stands in
the place of a conversion character. -/
theorem vsnprintf_stops_iff (s : List UInt8) (h0 : 0 ∉ s) (args : List VaArg) (hargs : Supplied s args)
    (buf : ℕ → UInt8) (size : UInt32) : (∃ r, vsnprintf buf size (s ++ [0]) args = .ok r) ↔ ¬ Cut s := by
  have hcall : (∃ r, vsnprintf buf size (s ++ [0]) args = .ok r) ↔ ∃ out, output (s ++ [0]) args = .ok out := by
    rw [vsnprintf_eq]
    cases output (s ++ [0]) args with
    | error e => simp [Except.map]
    | ok out => exact iff_of_true ⟨_,rfl⟩ ⟨out,rfl⟩
  have hsplit : ∀ ps tail, s = formatText ps ++ tail → ∃ (r : List UInt8 × List VaArg) (fuel : ℕ),
      output (s ++ [0]) args = (chars (fuel + 1) (tail ++ [0]) r.2).map (r.1 ++ ·) := by
    rintro ps tail rfl
    obtain ⟨r,hr⟩ := (hargs ps tail rfl).render
    obtain ⟨fuel,-,hout⟩ := output_formatText ps (tail ++ [0]) args
    exact ⟨r,fuel,by rw [List.append_assoc, hout, hr, Except.bind]⟩
  rw [hcall]
  constructor
  · rintro ⟨out,hout⟩ ⟨ps,t,ht,hs⟩
    obtain ⟨r,fuel,hr⟩ := hsplit ps _ hs
    have hends : t.Ends 0 := t.ends_of (by decide) (by decide) (by decide) (by decide)
    rw [List.cons_append, chars_dir fuel [] r.2 hends (.inl ht), convert_none _ _ (by decide), Except.bind] at hr
    cases fuel <;> simp [hout, chars, formatLoop, next, bind, Except.bind, Except.map] at hr
  · intro hcut
    obtain ⟨ps,tail,hs,htail⟩ := exists_pieces s h0
    obtain ⟨r,fuel,hr⟩ := hsplit ps tail hs
    rcases htail with rfl | rfl | ⟨t,ht,rfl⟩
    · exact ⟨_,hr⟩
    · exact ⟨_,hr⟩
    · exact absurd ⟨ps,t,ht,hs⟩ hcut

theorem supplied_d (v : UInt32) : Supplied ['%'.toUInt8, 'd'.toUInt8] [.word v] := by
  intro ps tail h
  cases ps with
  | nil => exact .nil _
  | cons p ps =>
    cases p with
    | lit c h0 hp => exact absurd (List.cons.inj h).1.symm hp
    | dir d =>
      let bare : Directive := .bare 'd'.toUInt8 (by decide) (by decide) (by decide) (by decide) (by decide)
      have htext : formatText (.dir d :: ps) ++ tail =
          '%'.toUInt8 :: (d.toSpecText.text ++ d.conv :: (formatText ps ++ tail)) := by simp [formatText, Piece.text]
      rw [htext] at h
      obtain ⟨-,hconv,hrest⟩ := specText_unique bare.ends d.ends (List.cons.inj h).2
      obtain rfl := formatText_eq_nil (List.append_eq_nil_iff.mp hrest.symm).1
      exact .word v (by rw [← hconv]; decide) (.nil _)

/-- The format "%d" with 7. -/
theorem vsnprintf_stops_iff_d : (∃ r, vsnprintf (fun _ => 0) 8 ['%'.toUInt8, 'd'.toUInt8, 0] [.word 7] = .ok r) ↔
    ¬ Cut ['%'.toUInt8, 'd'.toUInt8] :=
  vsnprintf_stops_iff ['%'.toUInt8, 'd'.toUInt8] (by decide) [.word 7] (supplied_d 7) (fun _ => 0) 8

/-- The format "%5" is read behind its NUL. -/
theorem vsnprintf_cut_overread :
    vsnprintf (fun _ => 0) 8 ['%'.toUInt8, '5'.toUInt8, 0] [] = .error .overread := rfl

end ApPa.Libc

import ApPa.Libc.Stdio
import Mathlib.Data.List.TakeWhile

/-! # What stands before a conversion character

The flags, the width, the precision and the length modifier of a directive. They are parsed
back from their text whatever follows it, and every string starts with the text of one
specification that the rest of the string does not continue.
-/
namespace ApPa.Libc
open Klibc Varargs

theorem int_eq (x : ℤ) : int x = if x % 2 ^ 32 < 2 ^ 31 then x % 2 ^ 32 else x % 2 ^ 32 - 2 ^ 32 := by
  rw [int, Int.bmod_def]
  rfl

theorem int_range (x : ℤ) : -2 ^ 31 ≤ int x ∧ int x < 2 ^ 31 := by
  rw [int_eq]
  split <;> omega

theorem int_of_range {x : ℤ} (h : -2 ^ 31 ≤ x) (h' : x < 2 ^ 31) : int x = x := by
  rw [int_eq]
  split <;> omega

def decimal (digits : List UInt8) : ℕ := digits.foldl (fun n c => n * 10 + (c.toNat - '0'.toNat)) 0

/-- The flags, the width, the precision and the length modifier of a directive. -/
structure SpecText where
  flags : List UInt8
  width : List UInt8
  prec : Option (List UInt8)
  long : Bool
  flags_isFlag : ∀ c ∈ flags, isFlag c = true
  width_isDigit : ∀ c ∈ width, isDigit c = true
  /-- A zero at the front is a flag. -/
  width_head : ∀ c ∈ width.head?, isFlag c = false
  prec_isDigit : ∀ p ∈ prec, ∀ c ∈ p, isDigit c = true

namespace SpecText

def lengthText (t : SpecText) : List UInt8 := if t.long then ['l'.toUInt8] else []
def precText (t : SpecText) : List UInt8 := t.prec.elim [] fun p => '.'.toUInt8 :: p
def text (t : SpecText) : List UInt8 := t.flags ++ (t.width ++ (t.precText ++ t.lengthText))

/-- The character `c` belongs to none of the four parts when it follows them. -/
structure Ends (t : SpecText) (c : UInt8) : Prop where
  not_flag : t.width = [] → t.prec = none → t.long = false → isFlag c = false
  not_digit : t.long = false → isDigit c = false
  not_point : t.prec = none → t.long = false → c ≠ '.'.toUInt8
  not_long : t.long = false → c ≠ 'l'.toUInt8

theorem ends_of (t : SpecText) {c : UInt8} (hflag : isFlag c = false) (hdigit : isDigit c = false)
    (hpoint : c ≠ '.'.toUInt8) (hlong : c ≠ 'l'.toUInt8) : t.Ends c :=
  ⟨fun _ _ _ => hflag,fun _ => hdigit,fun _ _ => hpoint,fun _ => hlong⟩

def spec (t : SpecText) : Spec where
  flagLeft := '-'.toUInt8 ∈ t.flags
  flagZero := '0'.toUInt8 ∈ t.flags ∧ '-'.toUInt8 ∉ t.flags
  width := int (decimal t.width)
  prec := t.prec.map fun p => int (decimal p)

theorem flagZero_of_left (t : SpecText) (h : t.spec.flagLeft = true) : t.spec.flagZero = false := by
  simp only [spec, decide_eq_true_eq, decide_eq_false_iff_not] at h ⊢
  exact fun hz => hz.2 h

@[simp] theorem spec_width (t : SpecText) : t.spec.width = int (decimal t.width) := by rw [spec]
@[simp] theorem spec_prec (t : SpecText) : t.spec.prec = t.prec.map fun p => int (decimal p) := by rw [spec]

end SpecText

section Scan
variable {σ : Type}

/-- A scan stops at the front of `rest`. -/
def Stops (p : UInt8 → Bool) (rest : List UInt8) : Prop := ∃ c r, rest = c :: r ∧ p c = false

theorem scanWhile_append {p : UInt8 → Bool} (f : σ → UInt8 → σ) {xs rest : List UInt8} (hxs : ∀ c ∈ xs, p c = true)
    (hrest : Stops p rest) (s : σ) : scanWhile p f (xs ++ rest) s = .ok (xs.foldl f s,rest) := by
  induction xs generalizing s with
  | nil =>
    obtain ⟨c,r,rfl,hc⟩ := hrest
    simp [scanWhile, hc]
  | cons x xs ih =>
    rw [List.forall_mem_cons] at hxs
    simp only [List.cons_append, scanWhile, hxs.1, if_true]
    exact ih hxs.2 (f s x)

theorem flags_foldl (xs : List UInt8) (left zero : Bool) :
    xs.foldl (fun f c => (f.1 || decide (c = '-'.toUInt8),f.2 || decide (c = '0'.toUInt8))) (left,zero) =
      (left || decide ('-'.toUInt8 ∈ xs),zero || decide ('0'.toUInt8 ∈ xs)) := by
  induction xs generalizing left zero with
  | nil => simp
  | cons c xs ih =>
    rw [List.foldl_cons, ih]
    simp [Bool.or_assoc, eq_comm]

theorem int_step (n d : ℤ) : int (int n * 10 + d) = int (n * 10 + d) := by
  unfold int
  rw [← Int.bmod_add_bmod, Int.bmod_mul_bmod, Int.bmod_add_bmod]

theorem number_foldl (xs : List UInt8) (hxs : ∀ c ∈ xs, isDigit c = true) (n : ℕ) :
    xs.foldl (fun (n : ℤ) c => int (n * 10 + (c.toNat - '0'.toNat))) (int n) =
      int (xs.foldl (fun n c => n * 10 + (c.toNat - '0'.toNat)) n : ℕ) := by
  induction xs generalizing n with
  | nil => rw [List.foldl_nil, List.foldl_nil]
  | cons c xs ih =>
    rw [List.forall_mem_cons] at hxs
    have hc : '0'.toNat ≤ c.toNat := by
      have h := hxs.1
      simp only [isDigit, decide_eq_true_eq, UInt8.le_iff_toNat_le] at h
      exact h.1
    have hcast : ((n * 10 + (c.toNat - '0'.toNat) : ℕ) : ℤ) = n * 10 + (c.toNat - '0'.toNat) := by
      rw [Nat.cast_add, Nat.cast_sub hc, Nat.cast_mul, Nat.cast_ofNat]
    have h := ih hxs.2 (n * 10 + (c.toNat - '0'.toNat))
    rw [hcast] at h
    rw [List.foldl_cons, List.foldl_cons, int_step]
    exact h

theorem scanFlags_append {xs rest : List UInt8} (hxs : ∀ c ∈ xs, isFlag c = true) (hrest : Stops isFlag rest) :
    scanFlags (xs ++ rest) = .ok ((decide ('-'.toUInt8 ∈ xs),decide ('0'.toUInt8 ∈ xs)),rest) := by
  rw [scanFlags, scanWhile_append _ hxs hrest, flags_foldl]
  simp

theorem scanNumber_append {xs rest : List UInt8} (hxs : ∀ c ∈ xs, isDigit c = true) (hrest : Stops isDigit rest) :
    scanNumber (xs ++ rest) = .ok (int (decimal xs),rest) := by
  have hzero : int ((0 : ℕ) : ℤ) = 0 := by decide
  rw [scanNumber, scanWhile_append _ hxs hrest, ← hzero, number_foldl xs hxs 0, decimal]

end Scan

namespace SpecText
variable {t : SpecText} {c : UInt8} (h : t.Ends c) (rest : List UInt8)

theorem stops_length (p : UInt8 → Bool) (hp : p 'l'.toUInt8 = false) (hc : t.long = false → p c = false) :
    Stops p (t.lengthText ++ c :: rest) := by
  unfold lengthText
  by_cases hl : t.long = true
  · rw [if_pos hl]
    exact ⟨_,_,rfl,hp⟩
  · rw [if_neg hl]
    exact ⟨c,rest,rfl,hc (Bool.eq_false_iff.mpr hl)⟩

theorem stops_prec (p : UInt8 → Bool) (hp : p 'l'.toUInt8 = false) (hpt : p '.'.toUInt8 = false)
    (hc : t.prec = none → t.long = false → p c = false) : Stops p (t.precText ++ (t.lengthText ++ c :: rest)) := by
  unfold precText
  cases hprec : t.prec with
  | none => exact stops_length rest p hp (hc hprec)
  | some q => exact ⟨_,_,rfl,hpt⟩

include h

theorem scanLength_text : scanLength (t.lengthText ++ c :: rest) = .ok (c :: rest) := by
  unfold lengthText
  by_cases hl : t.long = true
  · rw [if_pos hl]
    rfl
  · rw [if_neg hl]
    exact if_neg (h.not_long (Bool.eq_false_iff.mpr hl))

theorem scanPrec_text : scanPrec (t.precText ++ (t.lengthText ++ c :: rest)) =
    .ok (t.prec.map fun p => int (decimal p),t.lengthText ++ c :: rest) := by
  unfold precText
  cases hprec : t.prec with
  | none =>
    obtain ⟨d,r,he,hd⟩ := stops_length rest (fun d => d = '.'.toUInt8) (by decide)
      fun hl => decide_eq_false (h.not_point hprec hl)
    rw [Option.elim_none, List.nil_append, he]
    exact if_neg (of_decide_eq_false hd)
  | some p =>
    have hnum := scanNumber_append (t.prec_isDigit p hprec) (stops_length rest isDigit (by decide) h.not_digit)
    rw [Option.elim_some, List.cons_append]
    simp only [scanPrec, next, bind, Except.bind, if_true, hnum]
    rfl

theorem stops_width : Stops isFlag (t.width ++ (t.precText ++ (t.lengthText ++ c :: rest))) := by
  cases hw : t.width with
  | nil => exact stops_prec rest isFlag (by decide) (by decide) (h.not_flag hw)
  | cons d w => exact ⟨d,_,rfl,t.width_head d (by simp [hw])⟩

/-- A directive is read back from its text. -/
theorem parseSpec_text : parseSpec (t.text ++ c :: rest) = .ok (t.spec,c :: rest) := by
  have hflags := scanFlags_append t.flags_isFlag (stops_width h rest)
  have hwidth := scanNumber_append t.width_isDigit
    (stops_prec rest isDigit (by decide) (by decide) fun _ => h.not_digit)
  simp only [text, List.append_assoc]
  simp only [parseSpec, bind, Except.bind, hflags, hwidth, scanPrec_text h rest, scanLength_text h rest]
  simp [pure, Except.pure, spec]

end SpecText

theorem SpecText.zero_notMem (t : SpecText) : 0 ∉ t.text := by
  have hflag : isFlag 0 = false := by decide
  have hdigit : isDigit 0 = false := by decide
  simp only [SpecText.text, List.mem_append, not_or]
  refine ⟨fun h => ?_,fun h => ?_,fun h => ?_,fun h => ?_⟩
  · exact absurd (t.flags_isFlag 0 h) (by decide)
  · exact absurd (t.width_isDigit 0 h) (by decide)
  · unfold SpecText.precText at h
    cases hp : t.prec with
    | none => simp [hp] at h
    | some p =>
      rw [hp, Option.elim_some, List.mem_cons] at h
      rcases h with h | h
      · exact absurd h (by decide)
      · exact absurd (t.prec_isDigit p hp 0 h) (by decide)
  · unfold SpecText.lengthText at h
    split at h
    · exact absurd (List.mem_singleton.mp h) (by decide)
    · simp at h

/-- A directive is read in one way only. -/
theorem specText_unique {t t' : SpecText} {c c' : UInt8} {r r' : List UInt8} (h : t.Ends c) (h' : t'.Ends c')
    (heq : t.text ++ c :: r = t'.text ++ c' :: r') : t.spec = t'.spec ∧ c = c' ∧ r = r' := by
  have hp := SpecText.parseSpec_text h r
  rw [heq, SpecText.parseSpec_text h' r'] at hp
  have hpair := Except.ok.inj hp
  simp only [Prod.mk.injEq, List.cons.injEq] at hpair
  exact ⟨hpair.1.symm,hpair.2.1.symm,hpair.2.2.symm⟩

theorem exists_span (p : UInt8 → Bool) (s : List UInt8) : ∃ xs rest, s = xs ++ rest ∧ (∀ c ∈ xs, p c = true) ∧
    ∀ c ∈ rest.head?, p c = false := by
  refine ⟨s.takeWhile p,s.dropWhile p,List.takeWhile_append_dropWhile.symm,fun c => List.mem_takeWhile_imp,?_⟩
  intro c hc
  have h := List.head?_dropWhile_not p s
  rw [hc] at h
  exact h

theorem exists_lengthText (s : List UInt8) : ∃ (long : Bool) (rest : List UInt8),
    s = (if long then ['l'.toUInt8] else []) ++ rest ∧ (long = false → ∀ c ∈ rest.head?, c ≠ 'l'.toUInt8) := by
  by_cases h : s.head? = some 'l'.toUInt8
  · obtain ⟨rest,rfl⟩ := List.head?_eq_some_iff.mp h
    exact ⟨true,rest,rfl,fun h => absurd h (by decide)⟩
  · exact ⟨false,s,rfl,fun _ c hc he => h (he ▸ hc)⟩

theorem exists_precText (s : List UInt8) : ∃ (prec : Option (List UInt8)) (rest : List UInt8),
    s = (prec.elim [] fun p => '.'.toUInt8 :: p) ++ rest ∧ (∀ p ∈ prec, ∀ c ∈ p, isDigit c = true) ∧
      ∀ c ∈ rest.head?, if prec = none then c ≠ '.'.toUInt8 else isDigit c = false := by
  by_cases h : s.head? = some '.'.toUInt8
  · obtain ⟨s,rfl⟩ := List.head?_eq_some_iff.mp h
    obtain ⟨p,rest,rfl,hp,hrest⟩ := exists_span isDigit s
    exact ⟨some p,rest,rfl,by simpa using hp,by simpa using hrest⟩
  · refine ⟨none,s,rfl,by simp,?_⟩
    intro c hc
    rw [if_pos rfl]
    exact fun he => h (he ▸ hc)

theorem exists_specText (s : List UInt8) : ∃ (t : SpecText) (rest : List UInt8), s = t.text ++ rest ∧
    ∀ c ∈ rest.head?, t.Ends c := by
  obtain ⟨flags,s₁,rfl,hflags,hs₁⟩ := exists_span isFlag s
  obtain ⟨width,s₂,rfl,hwidth,hs₂⟩ := exists_span isDigit s₁
  obtain ⟨prec,s₃,rfl,hprec,hs₃⟩ := exists_precText s₂
  obtain ⟨long,s₄,rfl,hs₄⟩ := exists_lengthText s₃
  have hhead : ∀ c ∈ width.head?, isFlag c = false := by
    intro c hc
    apply hs₁
    rw [List.head?_append, hc]
    rfl
  refine ⟨⟨flags,width,prec,long,hflags,hwidth,hhead,hprec⟩,s₄,?_,?_⟩
  · simp only [SpecText.text, SpecText.precText, SpecText.lengthText, List.append_assoc]
  · intro c hc
    constructor
    · rintro rfl rfl rfl
      exact hs₁ c hc
    · rintro rfl
      by_cases hnone : prec = none
      · subst hnone
        exact hs₂ c hc
      · have h := hs₃ c hc
        rwa [if_neg hnone] at h
    · rintro rfl rfl
      have h := hs₃ c hc
      rwa [if_pos rfl] at h
    · rintro rfl
      exact hs₄ rfl c hc

end ApPa.Libc

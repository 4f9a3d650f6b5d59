import ApPa.Libc.Stdio
import Mathlib.Data.List.GetD

/-! # The characters a format puts out

Every character goes through one function, so that a run is known from the list of its
characters: `out_char` keeps as many of them as the buffer has room for, and counts them all.
-/
namespace ApPa.Libc
open Klibc Varargs

def fieldChars (sp : Spec) (v : Conversion) : List UInt8 :=
  let flagZero := sp.flagZero && !extended sp v
  (if !sp.flagLeft && !flagZero then List.replicate (pad sp v).toNat ' '.toUInt8 else []) ++
    (if v.isNegative then ['-'.toUInt8] else []) ++
    (if flagZero then List.replicate (pad sp v).toNat '0'.toUInt8 else []) ++
    List.replicate (zeroPrefix sp v).toNat '0'.toUInt8 ++ v.conv.take v.convLen.toNat ++
    (if sp.flagLeft then List.replicate (pad sp v).toNat ' '.toUInt8 else [])

def emitChars (sp : Spec) : Emit → List UInt8
  | .field v => fieldChars sp v
  | .plain text => text

def chars (fuel : ℕ) (fmt : List UInt8) (args : List VaArg) : Except Fault (List UInt8) :=
  formatLoop (fun out c => out ++ [c]) fuel fmt args []

section Emission
variable {σ : Type} (put : σ → UInt8 → σ)

theorem foldl_ite (b : Prop) [Decidable b] (l : List UInt8) (s : σ) :
    (if b then l.foldl put s else s) = (if b then l else []).foldl put s := by
  split <;> rfl

theorem emitField_eq (sp : Spec) (v : Conversion) (s : σ) : emitField put sp v s = (fieldChars sp v).foldl put s := by
  simp only [fieldChars, List.foldl_append, ← foldl_ite, List.foldl_cons, List.foldl_nil]
  rfl

theorem emit_eq (sp : Spec) (e : Emit) (s : σ) : emit put sp e s = (emitChars sp e).foldl put s := by
  cases e with
  | field v => exact emitField_eq put sp v s
  | plain text => rfl

theorem foldl_snoc (l out : List UInt8) : l.foldl (fun out c => out ++ [c]) out = out ++ l := by
  induction l generalizing out with
  | nil => simp
  | cons c l ih => simp [ih]

/-- The loop hands its characters to `put` one after the other and does nothing else with them. -/
theorem formatLoop_eq (fuel : ℕ) (fmt : List UInt8) (args : List VaArg) (s : σ) :
    formatLoop put fuel fmt args s = (chars fuel fmt args).map fun out => out.foldl put s := by
  suffices h : ∀ (fuel : ℕ) (fmt : List UInt8) (args : List VaArg) (l : List UInt8) (s : σ),
      formatLoop put fuel fmt args (l.foldl put s) =
        (formatLoop (fun out c => out ++ [c]) fuel fmt args l).map fun out => out.foldl put s from h fuel fmt args [] s
  intro fuel
  induction fuel with
  | zero => exact fun _ _ _ _ => rfl
  | succ fuel ih =>
    intro fmt args l s
    rw [formatLoop, formatLoop]
    cases next fmt with
    | error e => rfl
    | ok c =>
      simp only [bind, Except.bind, pure, Except.pure]
      by_cases h0 : c.1 = 0
      · simp [h0, Except.map]
      by_cases hp : c.1 = '%'.toUInt8
      · simp only [hp, ne_eq, not_true_eq_false, if_false]
        rw [if_neg (by decide), if_neg (by decide)]
        cases next c.2 with
        | error e => rfl
        | ok d =>
          by_cases hd : d.1 = 0
          · simp [hd, Except.map]
          · simp only [hd, if_false]
            cases directive c.2 args with
            | error e => rfl
            | ok e =>
              simp only
              rw [emit_eq, emit_eq, foldl_snoc, ← List.foldl_append]
              exact ih e.2.1 e.2.2 _ s
      · simp only [h0, if_false, hp, ne_eq, not_false_eq_true, if_true]
        exact (congrArg (formatLoop put fuel c.2 args) (List.foldl_concat put s c.1 l).symm).trans (ih c.2 args (l ++ [c.1]) s)

end Emission

section Buffer
variable (size : UInt32)

theorem outChar_pos (o : Out) (c : UInt8) : (outChar size o c).pos = o.pos + 1 := by
  unfold outChar
  dsimp only
  split <;> rfl

theorem foldl_outChar_pos (out : List UInt8) (o : Out) :
    (out.foldl (outChar size) o).pos = o.pos + UInt32.ofNat out.length := by
  induction out generalizing o with
  | nil => simp
  | cons c out ih =>
    rw [List.foldl_cons, ih, outChar_pos, List.length_cons, UInt32.ofNat_add]
    grind

theorem vsnprintf_eq (buf : ℕ → UInt8) (fmt : List UInt8) (args : List VaArg) :
    vsnprintf buf size fmt args = (output fmt args).map fun out =>
      (int (UInt32.ofNat out.length).toNat,terminate size (out.foldl (outChar size) ⟨0,buf,[]⟩)) := by
  rw [vsnprintf, formatLoop_eq, chars, ← output]
  cases output fmt args with
  | error e => rfl
  | ok out =>
    have hpos := foldl_outChar_pos size out ⟨0,buf,[]⟩
    rw [UInt32.zero_add] at hpos
    simp only [Except.map, ← hpos]
    rfl

/-- What the buffer holds after the characters `out`. -/
structure Kept (buf : ℕ → UInt8) (out : List UInt8) (o : Out) : Prop where
  pos : o.pos.toNat = out.length
  buf : ∀ i, o.buf i = if i < min out.length (size - 1).toNat then out.getD i 0 else buf i
  writes : o.writes = List.range (min out.length (size - 1).toNat)

theorem Kept.outChar {buf : ℕ → UInt8} {out : List UInt8} {o : Out} (h : Kept size buf out o)
    (hlen : out.length + 1 < 2 ^ 32) (c : UInt8) : Kept size buf (out ++ [c]) (outChar size o c) := by
  have hpos : (Libc.outChar size o c).pos.toNat = (out ++ [c]).length := by
    rw [outChar_pos, UInt32.toNat_add, h.pos, List.length_append]
    exact Nat.mod_eq_of_lt hlen
  have hlt : o.pos < size - 1 ↔ out.length < (size - 1).toNat := by rw [UInt32.lt_iff_toNat_lt, h.pos]
  by_cases hroom : o.pos < size - 1
  · have hmin : min (out ++ [c]).length (size - 1).toNat = out.length + 1 := by
      have := hlt.mp hroom
      rw [List.length_append, List.length_singleton]
      omega
    have hmin' : min out.length (size - 1).toNat = out.length := by
      have := hlt.mp hroom
      omega
    have hbuf : (Libc.outChar size o c).buf = Function.update o.buf out.length c := by
      rw [Libc.outChar, if_pos hroom, ← h.pos]
      rfl
    have hwrites : (Libc.outChar size o c).writes = o.writes ++ [out.length] := by
      rw [Libc.outChar, if_pos hroom, ← h.pos]
      rfl
    refine ⟨hpos,?_,?_⟩
    · intro i
      rw [hbuf, hmin]
      by_cases hi : i = out.length
      · subst hi
        simp
      · rw [Function.update_of_ne hi, h.buf, hmin']
        by_cases hlt : i < out.length
        · rw [if_pos hlt, if_pos (by omega), List.getD_append _ _ _ _ hlt]
        · rw [if_neg hlt, if_neg (by omega)]
    · rw [hwrites, hmin, h.writes, hmin', List.range_succ]
  · have hmin : min (out ++ [c]).length (size - 1).toNat = min out.length (size - 1).toNat := by
      have := mt hlt.mpr hroom
      rw [List.length_append, List.length_singleton]
      omega
    have heq : Libc.outChar size o c = { o with pos := o.pos + 1 } := by
      rw [Libc.outChar, if_neg hroom]
    refine ⟨hpos,?_,?_⟩
    · intro i
      rw [heq, hmin]
      refine (h.buf i).trans ?_
      by_cases hlt : i < min out.length (size - 1).toNat
      · rw [if_pos hlt, if_pos hlt, List.getD_append _ _ _ _ (by omega)]
      · rw [if_neg hlt, if_neg hlt]
    · rw [heq, hmin]
      exact h.writes

theorem kept_foldl (buf : ℕ → UInt8) (out : List UInt8) (hlen : out.length < 2 ^ 32) :
    Kept size buf out (out.foldl (outChar size) ⟨0,buf,[]⟩) := by
  induction out using List.reverseRecOn with
  | nil => exact ⟨rfl,fun i => by simp,by simp⟩
  | append_singleton out c ih =>
    rw [List.length_append, List.length_singleton] at hlen
    rw [List.foldl_concat]
    exact (ih (by omega)).outChar size hlen c

theorem writes_foldl (out : List UInt8) (o : Out) : o.writes <+: (out.foldl (outChar size) o).writes := by
  induction out generalizing o with
  | nil => exact List.prefix_refl _
  | cons c out ih =>
    have hstep : o.writes <+: (outChar size o c).writes := by
      unfold outChar
      dsimp only
      split
      · exact List.prefix_append _ _
      · exact List.prefix_refl _
    exact hstep.trans (ih (outChar size o c))

end Buffer

end ApPa.Libc

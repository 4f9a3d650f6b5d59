import ApPa.Libc.Format
import ApPa.Sys.LogText

/-! # The three formatters

The kernel's `kprintf`, the log and the user's `vsnprintf` each parse their format and convert
their arguments with code of their own. On the directives that they have in common they spell
the same characters.
-/
namespace ApPa.Sys
open Klibc Varargs Libc

/-- The conversions that all three know. -/
inductive Conv
  | d
  | i
  | u
  | x
  | s
  | percent
  deriving DecidableEq

def Conv.char : Conv → UInt8
  | .d => 'd'.toUInt8
  | .i => 'i'.toUInt8
  | .u => 'u'.toUInt8
  | .x => 'x'.toUInt8
  | .s => 's'.toUInt8
  | .percent => '%'.toUInt8

/-- A character that stands for itself, or a conversion directly after its '%'. -/
inductive Common
  | lit (c : UInt8) (h0 : c ≠ 0) (hp : c ≠ '%'.toUInt8)
  | dir (k : Conv)

def Common.text : Common → List UInt8
  | .lit c _ _ => [c]
  | .dir k => ['%'.toUInt8, k.char]

def commonText (ps : List Common) : List UInt8 := ps.flatMap Common.text

/-- The arguments suit the conversions, and no string is NULL. -/
inductive Suits : List Common → List VaArg → Prop
  | nil (args : List VaArg) : Suits [] args
  | lit {c : UInt8} {h0 : c ≠ 0} {hp : c ≠ '%'.toUInt8} {ps : List Common} {args : List VaArg} :
      Suits ps args → Suits (.lit c h0 hp :: ps) args
  | word {k : Conv} {ps : List Common} {args : List VaArg} (v : UInt32) :
      k ∈ [Conv.d, .i, .u, .x] → Suits ps args → Suits (.dir k :: ps) (.word v :: args)
  | str {ps : List Common} {args : List VaArg} (s : Str) : Suits ps args → Suits (.dir .s :: ps) (.str (some s) :: args)
  | percent {ps : List Common} {args : List VaArg} : Suits ps args → Suits (.dir .percent :: ps) args

theorem kprintText_of_notMem {text : List UInt8} (h : 0 ∉ text) (screen : List UInt8) : kprintText screen text = screen ++ text := by
  rw [kprintText, cstr_of_notMem h]

theorem Conv.char_ne_zero (k : Conv) : k.char ≠ 0 := by
  cases k <;> decide

theorem commonText_cons (p : Common) (ps : List Common) (rest : List UInt8) :
    commonText (p :: ps) ++ rest = p.text ++ (commonText ps ++ rest) := by
  simp only [commonText, List.flatMap_cons, List.append_assoc]

/-! ## One directive -/

/-- The conversion as a directive of `vsnprintf`. -/
def Conv.directive (k : Conv) : Directive :=
  .bare k.char k.char_ne_zero (by cases k <;> decide) (by cases k <;> decide) (by cases k <;> decide) (by cases k <;> decide)

/-- The three formatters take the same argument and stand for one text. -/
structure Agrees (k : Conv) (args : List VaArg) (text : List UInt8) (args' : List VaArg) : Prop where
  klog : meaning k.char args = .ok (text,args')
  notMem : 0 ∉ text
  kprintf : ∀ screen, kprintfConv k.char args screen = .ok (screen ++ text,args')
  vsnprintf : ∃ e, convert k.directive.spec k.directive.conv args = .ok (e,args') ∧ emitChars k.directive.spec e = text

section
variable (args : List VaArg)

theorem agrees_signed {k : Conv} (hk : k = .d ∨ k = .i) (v : UInt32) : Agrees k (.word v :: args) (itoa v 10) args := by
  have hnot := zero_notMem_itoa v
  refine ⟨by rcases hk with rfl | rfl <;> rfl,hnot,fun screen => ?_,?_⟩
  · rw [← kprintText_of_notMem hnot]
    rcases hk with rfl | rfl <;> rfl
  · rcases hk with rfl | rfl
    all_goals
      refine ⟨_,convert_word _ _ (by decide),(fieldChars_number rfl rfl rfl _ _ (by decide) (by decide)).trans ?_⟩
      rw [itoa_eq, utoa_eq (by decide)]
      rfl

theorem agrees_u (v : UInt32) : Agrees .u (.word v :: args) (utoa v 10) args := by
  have hnot : 0 ∉ utoa v 10 := (utoa_text (by decide) (by decide) v).1
  refine ⟨rfl,hnot,fun screen => ?_,_,convert_word _ _ (by decide),fieldChars_number rfl rfl rfl v false (by decide) (by decide)⟩
  rw [← kprintText_of_notMem hnot]
  rfl

theorem agrees_x (v : UInt32) : Agrees .x (.word v :: args) (utoa v 16) args := by
  have hnot : 0 ∉ utoa v 16 := (utoa_text (by decide) (by decide) v).1
  refine ⟨rfl,hnot,fun screen => ?_,_,convert_word _ _ (by decide),fieldChars_number rfl rfl rfl v false (by decide) (by decide)⟩
  rw [← kprintText_of_notMem hnot]
  rfl

theorem agrees_s (s : Str) : Agrees .s (.str (some s) :: args) (cstr s.bytes) args := by
  refine ⟨rfl,zero_notMem_cstr s.bytes,fun _ => rfl,_,convert_str _ _ (by decide),?_⟩
  have hlen : (cstr s.bytes).length < 2 ^ 31 := Nat.lt_of_le_of_lt (cstr_prefix_self s.bytes).length_le s.length_lt
  have hconv : stringConv Conv.s.directive.spec (some s) = ⟨s.bytes,(cstr s.bytes).length,false,false⟩ := by
    have hint : int (strlen s.bytes) = (cstr s.bytes).length := by
      rw [strlen_eq, int_of_range (by omega) (by omega)]
    have hprec : Conv.s.directive.spec.prec = none := rfl
    simp only [stringConv, hprec, Option.elim_none, Option.elim_some, hint]
  rw [hconv, emitChars, fieldChars_bare rfl rfl rfl (Int.natCast_nonneg _) (by simpa using by omega)]
  exact (List.prefix_iff_eq_take.mp (cstr_prefix_self s.bytes)).symm

theorem agrees_percent : Agrees .percent args ['%'.toUInt8] args := by
  refine ⟨rfl,by decide,fun screen => ?_,_,convert_none _ _ (by decide),rfl⟩
  rw [← kprintText_of_notMem (show (0 : UInt8) ∉ ['%'.toUInt8] by decide)]
  rfl

end

theorem Suits.agrees {k : Conv} {ps : List Common} {args : List VaArg} (h : Suits (.dir k :: ps) args) :
    ∃ text args', Agrees k args text args' ∧ Suits ps args' := by
  cases h with
  | word v hk h =>
    simp only [List.mem_cons, List.not_mem_nil, or_false] at hk
    rcases hk with rfl | rfl | rfl | rfl
    · exact ⟨_,_,agrees_signed _ (.inl rfl) v,h⟩
    · exact ⟨_,_,agrees_signed _ (.inr rfl) v,h⟩
    · exact ⟨_,_,agrees_u _ v,h⟩
    · exact ⟨_,_,agrees_x _ v,h⟩
  | str s h => exact ⟨_,_,agrees_s _ s,h⟩
  | percent h => exact ⟨_,_,agrees_percent args,h⟩

/-! ## A format -/

def Common.logPiece : Common → LogPiece
  | .lit c _ _ => .lit c
  | .dir k => .dir k.char

def Common.piece : Common → Piece
  | .lit c h0 hp => .lit c h0 hp
  | .dir k => .dir k.directive

theorem formatText_piece (ps : List Common) : formatText (ps.map Common.piece) = commonText ps := by
  induction ps with
  | nil => rfl
  | cons p ps ih =>
    cases p with
    | lit c h0 hp => exact congrArg (c :: ·) ih
    | dir k => exact congrArg (['%'.toUInt8, k.char] ++ ·) ih

theorem logPieces_commonText (ps : List Common) : logPieces (commonText ps) = ps.map Common.logPiece := by
  induction ps with
  | nil => rfl
  | cons p ps ih =>
    cases p with
    | lit c h0 hp =>
      change logPieces (c :: commonText ps) = .lit c :: ps.map Common.logPiece
      rw [← ih]
      cases commonText ps with
      | nil => rfl
      | cons d s => exact if_neg hp
    | dir k =>
      change logPieces ('%'.toUInt8 :: k.char :: commonText ps) = .dir k.char :: ps.map Common.logPiece
      rw [← ih, logPieces, if_pos rfl]

theorem zero_notMem_commonText (ps : List Common) : 0 ∉ commonText ps := by
  rw [commonText, List.mem_flatMap]
  rintro ⟨p,-,hp⟩
  cases p with
  | lit c h0 _ => exact h0 (List.mem_singleton.mp hp).symm
  | dir k =>
    rw [Common.text, List.mem_cons, List.mem_singleton] at hp
    rcases hp with hp | hp
    · exact absurd hp (by decide)
    · exact k.char_ne_zero hp.symm

theorem known_of_common {ps : List Common} {c : UInt8} (h : .dir c ∈ ps.map Common.logPiece) : Known c := by
  obtain ⟨p,-,hp⟩ := List.mem_map.mp h
  cases p with
  | lit _ _ _ => cases hp
  | dir k =>
    cases hp
    cases k <;> decide

/-- The text that a format and its arguments stand for, as `kprintf` prints it and as `vsnprintf` renders it. -/
theorem Suits.expands {ps : List Common} {args : List VaArg} (h : Suits ps args) :
    ∃ out args', expand (ps.map Common.logPiece) args = .ok (out,args') ∧ 0 ∉ out ∧
      render (ps.map Common.piece) args = .ok (out,args') ∧
      ∀ fuel rest screen, kprintfLoop (ps.length + fuel + 1) (commonText ps ++ 0 :: rest) args screen = .ok (screen ++ out) := by
  induction ps generalizing args with
  | nil => exact ⟨[],args,rfl,List.not_mem_nil,rfl,fun _ _ screen => by rw [List.append_nil]; rfl⟩
  | cons p ps ih =>
    cases p with
    | lit c h0 hp =>
      cases h with
      | lit h =>
      obtain ⟨out,args',hexpand,hnot,hrender,hprint⟩ := ih h
      refine ⟨c :: out,args',?_,?_,?_,fun fuel rest screen => ?_⟩
      · exact expand_lit.mpr ⟨_,hexpand,rfl⟩
      · rw [List.mem_cons, not_or]
        exact ⟨Ne.symm h0,hnot⟩
      · simp only [List.map_cons, Common.piece, Libc.render, hrender]
        rfl
      · have hone : kprintText screen [c, 0] = screen ++ [c] := by simp [kprintText, cstr_cons, h0]
        rw [commonText_cons, Common.text, List.length_cons, Nat.add_right_comm ps.length, Klibc.kprintfLoop]
        simp only [List.cons_append, next, bind, Except.bind, h0, if_false, ne_eq, hp, not_false_eq_true, if_true,
          List.nil_append, hone, hprint, List.append_assoc]
    | dir k =>
      obtain ⟨text,args₁,hagree,h⟩ := h.agrees
      obtain ⟨out,args',hexpand,hnot,hrender,hprint⟩ := ih h
      obtain ⟨e,he,htext⟩ := hagree.vsnprintf
      refine ⟨text ++ out,args',?_,?_,?_,fun fuel rest screen => ?_⟩
      · exact expand_dir.mpr ⟨_,_,hagree.klog,hexpand,rfl⟩
      · rw [List.mem_append, not_or]
        exact ⟨hagree.notMem,hnot⟩
      · simp only [List.map_cons, Common.piece, Libc.render, bind, Except.bind, he, hrender, htext]
        rfl
      · rw [commonText_cons, Common.text, List.length_cons, Nat.add_right_comm ps.length, Klibc.kprintfLoop]
        simp only [List.cons_append, next, bind, Except.bind, ne_eq, not_true_eq_false, if_false, k.char_ne_zero,
          hagree.kprintf, List.nil_append, hprint, List.append_assoc]
        rfl

theorem cstr_storeMessage {message : List UInt8} (h : message.length = klogMsgMaxLen) (temp : List UInt8) :
    cstr (storeMessage message temp) = (cstr temp).take (klogMsgMaxLen - 1) := by
  obtain ⟨c,hc⟩ : ∃ c, message.drop (klogMsgMaxLen - 1) = [c] := by
    apply List.length_eq_one_iff.mp
    rw [List.length_drop, h]
    rfl
  have hset : [c].set (klogMsgMaxLen - 1 - (strncpyBytes (temp ++ [0]) (klogMsgMaxLen - 1)).length) 0 = [0] := by simp
  rw [storeMessage, Klibc.strncpy, hc, List.set_append_right _ _ (by simp), hset, cstr_strncpyBytes_zero, cstr_append_nul]

/-- `kprintf` prints the complete output of `vsnprintf`, and the log stores its first 127
characters. -/
theorem formatters_agree (ps : List Common) (rest : List UInt8) (args : List VaArg) (h : Suits ps args) (k : Klog)
    (level : KlogLevel) : ∃ out, output (commonText ps ++ 0 :: rest) args = .ok out ∧
      kprintf (commonText ps ++ 0 :: rest) args = .ok out ∧
      ∃ k' screen, klog k level (commonText ps ++ 0 :: rest) args = .ok (k',screen) ∧
        cstr (k'.logBuffer k.logHead).message = out.take 127 := by
  obtain ⟨out,args',hexpand,hnot,hrender,hprint⟩ := h.expands
  obtain ⟨fuel,hfuel⟩ : ∃ fuel, (commonText ps ++ 0 :: rest).length + 1 = ps.length + fuel + 1 := by
    have hle := length_le_formatText (ps.map Common.piece)
    rw [formatText_piece, List.length_map] at hle
    exact ⟨(commonText ps).length - ps.length + (rest.length + 1),by rw [List.length_append, List.length_cons]; omega⟩
  obtain ⟨n,-,hvsn⟩ := output_formatText (ps.map Common.piece) (0 :: rest) args
  rw [formatText_piece, hrender, Except.bind, chars_nul, Except.map, List.append_nil] at hvsn
  have hkprintf := hprint fuel rest []
  rw [List.nil_append, ← hfuel] at hkprintf
  have hklog : klogLoop ((commonText ps ++ 0 :: rest).length + 1) (commonText ps ++ 0 :: rest) args [] =
      .ok (out.take (klogMsgMaxLen - 1)) := by
    rw [klogLoop_eq (zero_notMem_commonText ps) rest args [] (by rw [List.length_append]; omega), logPieces_commonText]
    exact runPieces_known (fun _ => known_of_common) hexpand (Nat.zero_le _)
  have htake : (out.take (klogMsgMaxLen - 1)).length ≤ klogMsgMaxLen - 1 := List.length_take_le _ _
  have hmem : 0 ∉ out.take (klogMsgMaxLen - 1) := fun hmem => hnot (List.mem_of_mem_take hmem)
  refine ⟨out,hvsn,hkprintf,_,_,by rw [klog, hklog]; rfl,?_⟩
  dsimp only
  rw [Function.update_self]
  rw [cstr_storeMessage (k.logBuffer k.logHead).message_length, cstr_of_notMem hmem]
  exact List.take_of_length_le htake

/-- The format "n=%d" with -7. -/
theorem formatters_agree_seven : ∃ out,
    output (commonText [.lit 'n'.toUInt8 (by decide) (by decide), .lit '='.toUInt8 (by decide) (by decide), .dir .d] ++ [0])
      [.word (-7)] = .ok out ∧
    kprintf (commonText [.lit 'n'.toUInt8 (by decide) (by decide), .lit '='.toUInt8 (by decide) (by decide), .dir .d] ++ [0])
      [.word (-7)] = .ok out ∧
    ∃ k' screen, klog klogInit .info
      (commonText [.lit 'n'.toUInt8 (by decide) (by decide), .lit '='.toUInt8 (by decide) (by decide), .dir .d] ++ [0])
      [.word (-7)] = .ok (k',screen) ∧ cstr (k'.logBuffer klogInit.logHead).message = out.take 127 :=
  formatters_agree _ [] [.word (-7)] (.lit (.lit (.word (-7) (by decide) (.nil [])))) klogInit .info

end ApPa.Sys

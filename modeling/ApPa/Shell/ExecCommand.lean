import ApPa.Exec.EntryFrame
import ApPa.Lib.Words
import ApPa.Shell.Shell

/-! # The exec command

`cmd_exec` copies its arguments into a static buffer and cuts them into words there: the space
behind a word is overwritten by a NUL while pointers to the words before it are kept.
-/
namespace ApPa.Shell
open Exec Klibc Memory Words

/-- `*p && *p != ' '`. -/
def inWord (c : UInt8) : Bool := c ≠ 0 && c ≠ ' '.toUInt8

def isSpace (c : UInt8) : Bool := c = ' '.toUInt8

/-- The first loop of `cmd_exec`, from `arg_buf[len]` on. -/
def copyArgs : List UInt8 → ℕ → (ℕ → UInt8) → ℕ → UInt8
  | [], len, argBuf => Function.update argBuf len 0
  | c :: args, len, argBuf =>
    if c ≠ 0 ∧ len < 255 then copyArgs args (len + 1) (Function.update argBuf len c) else Function.update argBuf len 0

/-- The second loop of `cmd_exec` with room for `n` more pointers: the buffer with the NULs in it and the
pointers. A scan inside the buffer of 256 bytes takes at most 256 turns. -/
def splitArgs (argBuf : ℕ → UInt8) (p : ℕ) : ℕ → (ℕ → UInt8) × List ℕ
  | 0 => (argBuf, [])
  | n + 1 =>
    if argBuf p = 0 then (argBuf, [])
    else
      let token := scan isSpace argBuf 256 p
      if argBuf token = 0 then (argBuf, [])
      else
        let p := scan inWord argBuf 256 token
        let (argBuf, argv) :=
          if argBuf p ≠ 0 then splitArgs (Function.update argBuf p 0) (p + 1) n else splitArgs argBuf p n
        (argBuf, token :: argv)

/-- What `elf_exec` is called with: `argv` points into the buffer and ends with a null pointer. -/
structure ExecCall where
  argBuf : ℕ → UInt8
  argv : List (Option ℕ)
  argc : ℕ

def stringAt (argBuf : ℕ → UInt8) (p : ℕ) : List UInt8 := cstr ((List.range 256).map fun i => argBuf (p + i))

theorem length_stringAt_le (argBuf : ℕ → UInt8) (p : ℕ) : (stringAt argBuf p).length ≤ 256 := by
  refine (cstr_prefix_self _).length_le.trans (Nat.le_of_eq ?_)
  rw [List.length_map, List.length_range]

/-- The strings as `setup_user_stack_args` reads them. -/
def ExecCall.arg (c : ExecCall) (i : ℕ) : Arg :=
  match c.argv.getD i none with
  | none => ⟨[],by decide⟩
  | some p => ⟨stringAt c.argBuf p,(length_stringAt_le ..).trans_lt (by decide)⟩

/-- `cmd_exec` up to its call of `elf_exec`; no call where it prints its usage. -/
def cmdExec (argBuf : ℕ → UInt8) (args : List UInt8) : Option ExecCall :=
  if cstr args = [] then none
  else
    let (argBuf, argv) := splitArgs (copyArgs args 0 argBuf) 0 maxExecArgs
    if argv.length = 0 then none else some ⟨argBuf,argv.map some ++ [none],argv.length⟩

/-! ## The words -/

theorem not_isSpace : (fun c => !isSpace c) = fun c : UInt8 => decide (c ≠ ' '.toUInt8) := by
  funext c
  exact (decide_not ..).symm

theorem words_skipSpaces (l : List UInt8) : words isSpace (skipSpaces l) = words isSpace l := words_dropWhile isSpace l

theorem words_skipWord (l : List UInt8) : words isSpace ((skipWord l).drop 1) = words isSpace (skipWord l) := by
  have h := words_rest isSpace l
  rwa [not_isSpace] at h

/-- The first word of a text is what stands between its leading spaces and the next one. -/
theorem words_of_skipSpaces {l rest : List UInt8} {c : UInt8} (h : skipSpaces l = c :: rest) :
    words isSpace l = (c :: rest).takeWhile (fun c => c ≠ ' '.toUInt8) :: words isSpace (skipWord (c :: rest)) := by
  have hc := List.head?_dropWhile_not isSpace l
  rw [show l.dropWhile isSpace = c :: rest from h] at hc
  rw [← words_skipSpaces, h, words_cons isSpace hc, not_isSpace, ← words_skipWord]
  rfl

theorem execWords_eq (n : ℕ) (l : List UInt8) : execWords n l = (words isSpace l).take n := by
  induction n generalizing l with
  | zero => rfl
  | succ n ih =>
    rw [execWords]
    cases hl : skipSpaces l with
    | nil =>
      rw [← words_skipSpaces, hl]
      rfl
    | cons c rest =>
      rw [words_of_skipSpaces hl, List.take_succ_cons]
      dsimp only
      rw [ih, words_skipWord]

/-! ## The buffer -/

section
variable {argBuf : ℕ → UInt8}

theorem copyArgs_of_lt (args : List UInt8) {len x : ℕ} (hx : x < len) : copyArgs args len argBuf x = argBuf x := by
  induction args generalizing len argBuf with
  | nil => exact Function.update_of_ne hx.ne ..
  | cons c args ih =>
    rw [copyArgs]
    split
    · rw [ih (Nat.lt_succ_of_lt hx), Function.update_of_ne hx.ne]
    · exact Function.update_of_ne hx.ne ..

theorem reads_copyArgs {args : List UInt8} (h0 : 0 ∉ args) (len : ℕ) (argBuf : ℕ → UInt8) :
    Reads 0 (copyArgs args len argBuf) len (args.take (255 - len)) := by
  induction args generalizing len argBuf with
  | nil =>
    rw [List.take_nil]
    exact .nil (Function.update_self ..)
  | cons c args ih =>
    have hc : c ≠ 0 := fun h => h0 (h ▸ List.mem_cons_self)
    rw [copyArgs]
    by_cases hlen : len < 255
    · rw [if_pos ⟨hc,hlen⟩, show 255 - len = 255 - (len + 1) + 1 by omega, List.take_succ_cons]
      have hrest := ih (fun h => h0 (List.mem_cons_of_mem c h)) (len + 1) (Function.update argBuf len c)
      refine .cons hc ?_ hrest
      rw [copyArgs_of_lt args (Nat.lt_succ_self len), Function.update_self]
    · rw [if_neg fun h => hlen h.2, show 255 - len = 0 by omega, List.take_zero]
      exact .nil (Function.update_self ..)

theorem splitArgs_of_stop {p : ℕ} (h : argBuf p = 0) (n : ℕ) : splitArgs argBuf p n = (argBuf, []) := by
  cases n with
  | zero => rfl
  | succ n => rw [splitArgs, if_pos h]

theorem takeWhile_inWord {l : List UInt8} (h : 0 ∉ l) : l.takeWhile inWord = l.takeWhile fun c => c ≠ ' '.toUInt8 := by
  induction l with
  | nil => rfl
  | cons c l ih =>
    have hc : c ≠ 0 := fun hc => h (hc ▸ List.mem_cons_self)
    rw [List.takeWhile_cons, List.takeWhile_cons, ih fun hl => h (List.mem_cons_of_mem c hl)]
    simp only [inWord, hc, ne_eq, not_false_eq_true, decide_true, Bool.true_and]

/-- What a run of the loop from `p` on leaves: pointers to the words `ws`, and the bytes before `p`. -/
def Cut (argBuf : ℕ → UInt8) (p : ℕ) (r : (ℕ → UInt8) × List ℕ) (ws : List (List UInt8)) : Prop :=
  List.Forall₂ (Reads 0 r.1) r.2 ws ∧ ∀ x < p, r.1 x = argBuf x

/-- One word. Later NULs stand behind its own, so it stays as it is. -/
theorem cut_word {token n : ℕ} {l : List UInt8} (h : Reads 0 argBuf token l) (hl : l.length ≤ 256)
    (ih : ∀ {argBuf p t}, Reads 0 argBuf p t → t.length ≤ 256 → Cut argBuf p (splitArgs argBuf p n) (execWords n t)) :
    let p := scan inWord argBuf 256 token
    let r := if argBuf p ≠ 0 then splitArgs (Function.update argBuf p 0) (p + 1) n else splitArgs argBuf p n
    Cut argBuf token (r.1, token :: r.2) (l.takeWhile (fun c => c ≠ ' '.toUInt8) :: execWords n ((skipWord l).drop 1)) := by
  have hend : scan inWord argBuf 256 token = token + (l.takeWhile fun c => c ≠ ' '.toUInt8).length := by
    rw [← takeWhile_inWord h.notMem]
    exact h.scan rfl hl
  have hrest : Reads 0 argBuf (token + (l.takeWhile fun c => c ≠ ' '.toUInt8).length) (skipWord l) := h.skip _
  have hcut := h.cut_takeWhile fun c => c ≠ ' '.toUInt8
  have hle : (skipWord l).length ≤ 256 := (List.dropWhile_suffix _).length_le.trans hl
  intro p r
  have hp : p = token + (l.takeWhile fun c => c ≠ ' '.toUInt8).length := hend
  rw [← hp] at hrest hcut
  cases hs : skipWord l with
  | nil =>
    -- the word ends with the text, whose own NUL is behind it
    rw [hs] at hrest
    have hnul : argBuf p = 0 := hrest.ends
    have hr : r = (argBuf, []) := (if_neg (not_not.mpr hnul)).trans (splitArgs_of_stop hnul n)
    rw [← hnul, Function.update_eq_self, hnul] at hcut
    rw [hr, List.drop_nil, show execWords n [] = [] by cases n <;> rfl]
    exact ⟨.cons hcut .nil,fun _ _ => rfl⟩
  | cons s more =>
    rw [hs] at hrest hle
    have hsep : argBuf p ≠ 0 := fun h => List.cons_ne_nil s more (hrest.nil_iff.mp h)
    have hr : r = splitArgs (Function.update argBuf p 0) (p + 1) n := if_pos hsep
    have hmore : Reads 0 (Function.update argBuf p 0) (p + 1) more :=
      (hrest.drop (k := 1) (Nat.succ_pos _)).congr fun x hx _ => Function.update_of_ne (by omega) ..
    obtain ⟨hwords,hframe⟩ := ih hmore (Nat.le_of_succ_le hle)
    rw [← hr] at hwords hframe
    refine ⟨.cons (hcut.congr fun x _ hx => hframe x ?_) hwords,fun x hx => ?_⟩
    · rw [← hp] at hx
      exact Nat.lt_succ_of_le hx
    · dsimp only at hx ⊢
      rw [hframe x (by omega), Function.update_of_ne (by omega)]

theorem cut_splitArgs (n : ℕ) {argBuf : ℕ → UInt8} {p : ℕ} {t : List UInt8} (h : Reads 0 argBuf p t)
    (ht : t.length ≤ 256) : Cut argBuf p (splitArgs argBuf p n) (execWords n t) := by
  induction n generalizing argBuf p t with
  | zero => exact ⟨.nil,fun _ _ => rfl⟩
  | succ n ih =>
    by_cases hp : argBuf p = 0
    · rw [splitArgs_of_stop hp, h.nil_iff.mp hp]
      exact ⟨.nil,fun _ _ => rfl⟩
    have hstart : scan isSpace argBuf 256 p = p + (t.takeWhile isSpace).length := h.scan rfl ht
    have htoken : Reads 0 argBuf (p + (t.takeWhile isSpace).length) (skipSpaces t) := h.skip isSpace
    have hle : (skipSpaces t).length ≤ 256 := (List.dropWhile_suffix _).length_le.trans ht
    rw [splitArgs, if_neg hp, hstart, execWords]
    dsimp only
    cases hword : skipSpaces t with
    | nil =>
      rw [hword] at htoken
      rw [if_pos (htoken.nil_iff.mpr rfl)]
      exact ⟨.nil,fun _ _ => rfl⟩
    | cons c rest =>
      rw [hword] at htoken hle
      rw [if_neg fun h => List.cons_ne_nil c rest (htoken.nil_iff.mp h)]
      obtain ⟨hwords,hframe⟩ := cut_word htoken hle ih
      exact ⟨hwords,fun x hx => hframe x (by omega)⟩

theorem stringAt_of_reads {p : ℕ} {w : List UInt8} (h : Reads 0 argBuf p w) (hw : w.length < 256) :
    stringAt argBuf p = w := by
  obtain ⟨k,hk⟩ : ∃ k, 256 = w.length + (k + 1) := ⟨255 - w.length,by omega⟩
  have hword : (List.range w.length).map (fun i => argBuf (p + i)) = w := by
    refine List.ext_getElem (by rw [List.length_map, List.length_range]) fun i hi hi' => ?_
    rw [List.getElem_map, List.getElem_range, h.get i hi']
  rw [stringAt, hk, List.range_add, List.map_append, hword, List.range_succ_eq_map, List.map_cons, List.map_cons,
    Nat.add_zero, h.ends, cstr_append_zero h.notMem]

end

/-! ## The command line -/

theorem shellExecute_exec {cmd : List UInt8} (h0 : 0 ∉ cmd) {ws : List (List UInt8)}
    (h : words isSpace cmd = ascii "exec" :: ws) :
    ∃ args, shellExecute cmd = some (.exec args) ∧ words isSpace args = ws ∧ args <:+ cmd := by
  cases hcmd : skipSpaces cmd with
  | nil =>
    rw [← words_skipSpaces, hcmd] at h
    exact nomatch h
  | cons c rest =>
    rw [words_of_skipSpaces hcmd, List.cons.injEq] at h
    have hword : firstWord (c :: rest) = ascii "exec" := h.1
    have hfind : (commandTable.find? fun x => ascii x.1 = ascii "exec") = some ("exec",.exec) := by
      refine List.find?_eq_some_iff_getElem.mpr ⟨decide_eq_true rfl,17,by decide,rfl,?_⟩
      decide +kernel
    refine ⟨skipSpaces (skipWord (c :: rest)),?_,(words_skipSpaces _).trans h.2,?_⟩
    · rw [shellExecute_eq h0, commandOf, hcmd]
      rw [if_neg (List.cons_ne_nil c rest), hword, hfind]
    · rw [← hcmd]
      exact (List.dropWhile_suffix _).trans ((List.dropWhile_suffix _).trans (List.dropWhile_suffix _))

/-- `cmd_exec` calls `elf_exec` with pointers to the words. -/
theorem cmdExec_eq {args : List UInt8} (h0 : 0 ∉ args) (hlen : args.length ≤ 255) (hne : words isSpace args ≠ [])
    (argBuf : ℕ → UInt8) :
    ∃ buf ptrs, cmdExec argBuf args = some ⟨buf,ptrs.map some ++ [none],ptrs.length⟩ ∧
      List.Forall₂ (Reads 0 buf) ptrs ((words isSpace args).take maxExecArgs) := by
  have htext := reads_copyArgs h0 0 argBuf
  rw [List.take_of_length_le hlen] at htext
  obtain ⟨hptrs,-⟩ := cut_splitArgs maxExecArgs htext (hlen.trans (by decide))
  rw [execWords_eq] at hptrs
  refine ⟨_,_,?_,hptrs⟩
  have hargs : cstr args ≠ [] := fun h => by
    rw [cstr_of_notMem h0] at h
    exact hne (by rw [h, words_nil])
  have hcount : (splitArgs (copyArgs args 0 argBuf) 0 maxExecArgs).2.length ≠ 0 := by
    rw [hptrs.length_eq, List.length_take]
    have hpos := List.length_pos_iff.mpr hne
    have hmax : maxExecArgs = 16 := rfl
    omega
  rw [cmdExec, if_neg hargs]
  exact if_neg hcount

theorem ExecCall.arg_eq {buf : ℕ → UInt8} {ptrs : List ℕ} {ws : List (List UInt8)} (h : List.Forall₂ (Reads 0 buf) ptrs ws)
    (hws : ∀ w ∈ ws, w.length < 256) (n : ℕ) {i : ℕ} (hi : i < ws.length) :
    ((⟨buf,ptrs.map some ++ [none],n⟩ : ExecCall).arg i).1 = ws.getD i [] := by
  have hi' : i < ptrs.length := h.length_eq ▸ hi
  have hget : (ptrs.map some ++ [none]).getD i none = some (ptrs.get ⟨i,hi'⟩) := by
    rw [List.getD_append _ _ _ _ (by rwa [List.length_map]), List.getD_eq_getElem _ _ (by rwa [List.length_map]),
      List.getElem_map]
    rfl
  have hword := h.get hi' hi
  rw [ExecCall.arg, hget, List.getD_eq_getElem _ _ hi]
  exact stringAt_of_reads hword (hws _ (List.getElem_mem hi))

theorem cmdExec_none {args : List UInt8} (h0 : 0 ∉ args) (hlen : args.length ≤ 255) (hnil : words isSpace args = [])
    (argBuf : ℕ → UInt8) : cmdExec argBuf args = none := by
  have htext := reads_copyArgs h0 0 argBuf
  rw [List.take_of_length_le hlen] at htext
  obtain ⟨hptrs,-⟩ := cut_splitArgs maxExecArgs htext (hlen.trans (by decide))
  rw [execWords_eq, hnil, List.take_nil] at hptrs
  rw [cmdExec]
  split
  · rfl
  · exact if_pos hptrs.length_eq

/-- What `elf_exec` gets from a line with words: they fit on the stack page. -/
structure ExecCall.Carries (call : ExecCall) (ws : List (List UInt8)) : Prop where
  argc : call.argc = min 16 ws.length
  arg : ∀ i < call.argc, (call.arg i).1 = ws.getD i []
  clean : ∀ i < call.argc, 0 ∉ (call.arg i).1
  fits : frameBytes call.arg call.argc ≤ argvMaxTotal

theorem cmdExec_some {args : List UInt8} (h0 : 0 ∉ args) (hlen : args.length ≤ 255) (hne : words isSpace args ≠ [])
    (argBuf : ℕ → UInt8) : ∃ call, cmdExec argBuf args = some call ∧ call.Carries (words isSpace args) := by
  obtain ⟨buf,ptrs,hcall,hptrs⟩ := cmdExec_eq h0 hlen hne argBuf
  have hsum := (execWords_length maxExecArgs args).2
  rw [execWords_eq] at hsum
  have hargs : ∀ i < ((words isSpace args).take maxExecArgs).length, _ := fun i hi =>
    ExecCall.arg_eq hptrs (fun w hw => Nat.lt_succ_of_le
      ((List.le_sum_of_mem (List.mem_map_of_mem hw)).trans (hsum.trans hlen))) ptrs.length hi
  have hfit := frameBytes_le hargs (List.length_take_le ..) (hsum.trans hlen)
  rw [← hptrs.length_eq] at hargs hfit
  refine ⟨_,hcall,⟨hptrs.length_eq.trans List.length_take,fun i hi => ?_,fun i hi => ?_,hfit⟩⟩
  · rw [hargs i hi, List.getD_eq_getElem?_getD, List.getElem?_take, if_pos, ← List.getD_eq_getElem?_getD]
    exact hi.trans_le (hptrs.length_eq.le.trans (List.length_take_le ..))
  · have hi' : i < ((words isSpace args).take maxExecArgs).length := hptrs.length_eq ▸ hi
    rw [hargs i hi, List.getD_eq_getElem _ _ hi']
    exact (hptrs.get hi hi').notMem

/-- The `argv` of a line that begins with `exec` holds its other words, up to 16 of them, each ended by a NUL, and
a null pointer behind them. They pass the check of `setup_user_stack_args`, so the new task gets them all. -/
theorem exec_passes_words {cmd : List UInt8} (h0 : 0 ∉ cmd) (hlen : cmd.length ≤ 255) {ws : List (List UInt8)}
    (hws : words isSpace cmd = ascii "exec" :: ws) (hne : ws ≠ []) (argBuf : ℕ → UInt8) :
    ∃ args call, shellExecute cmd = some (.exec args) ∧ cmdExec argBuf args = some call ∧
      call.argc = min 16 ws.length ∧ call.argv[call.argc]? = some none ∧
      (∀ i < call.argc, ∃ p, call.argv[i]? = some (some p) ∧ Reads 0 call.argBuf p (ws.getD i [])) ∧
      Passes call.arg call.argc ∧
      ∀ m a, ∃ esp m' array strs, setupUserStackArgs m (a * pageSize) (some call.arg) call.argc = some (esp, m') ∧
        ArgFrame m' (a * pageSize) esp call.argc call.arg array strs := by
  obtain ⟨args,hexec,rfl,hsuffix⟩ := shellExecute_exec h0 hws
  have hle : args.length ≤ 255 := hsuffix.length_le.trans hlen
  obtain ⟨buf,ptrs,hcall,hptrs⟩ := cmdExec_eq (fun h => h0 (hsuffix.mem h)) hle hne argBuf
  have hsum := (execWords_length maxExecArgs args).2
  rw [execWords_eq] at hsum
  have hpos := List.length_pos_iff.mpr hne
  have hcount : ptrs.length = min 16 (words isSpace args).length := hptrs.length_eq.trans List.length_take
  have harg : ∀ i < ((words isSpace args).take maxExecArgs).length, _ := fun i hi =>
    ExecCall.arg_eq hptrs (fun w hw => Nat.lt_succ_of_le
      ((List.le_sum_of_mem (List.mem_map_of_mem hw)).trans (hsum.trans hle))) ptrs.length hi
  have hfit := frameBytes_le harg (List.length_take_le ..) (hsum.trans hle)
  rw [← hptrs.length_eq] at hfit
  refine ⟨args,_,hexec,hcall,hcount,?_,fun i hi => ?_,.of_fits hfit,fun m a =>
    setupUserStackArgs_frame m a (by dsimp only; omega) (by dsimp only; omega) hfit⟩
  · dsimp only
    rw [List.getElem?_append_right (by rw [List.length_map]), List.length_map, Nat.sub_self]
    rfl
  · dsimp only at hi ⊢
    have hi' : i < ((words isSpace args).take maxExecArgs).length := hptrs.length_eq ▸ hi
    refine ⟨ptrs.get ⟨i,hi⟩,?_,?_⟩
    · rw [List.getElem?_append_left (by rwa [List.length_map]), List.getElem?_map, List.getElem?_eq_getElem hi]
      rfl
    · have hword := hptrs.get hi hi'
      rwa [List.get_eq_getElem, List.get_eq_getElem, List.getElem_take, ← List.getD_eq_getElem _ []] at hword

theorem exec_passes_words_two : ∃ args call,
    shellExecute (ascii " exec a  bc ") = some (.exec args) ∧
      cmdExec (fun _ => 0x78) args = some call ∧ call.argc = 2 := by
  have hws : words isSpace (ascii " exec a  bc ") = [ascii "exec", ascii "a", ascii "bc"] := by decide +kernel
  obtain ⟨args,call,hexec,hcall,hargc,-⟩ := exec_passes_words (by decide +kernel) (by decide +kernel) hws (by decide)
    fun _ => 0x78
  exact ⟨args,call,hexec,hcall,hargc⟩

end ApPa.Shell

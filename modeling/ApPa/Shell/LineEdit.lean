import ApPa.Drivers.Console
import ApPa.Shell.Shell

/-! # Editing the command line

The shell keeps the line in its buffer and echoes every key to the screen, which has a
position of its own. The two stay in step: the cells in front of the cursor hold the line,
also when it has run over the end of a row or the screen has scrolled.
-/
namespace ApPa.Shell
open Klibc Drivers TextGrid

def echo (s : Screen) : Echo → Screen
  | .print msg => s.kprint msg
  | .backspace => s.kprintBackspace

/-- A key that does not execute the line, in the shell and on the screen. -/
def key (st : State × Screen) (c : UInt8) : State × Screen :=
  let r := shellInput st.1 c
  (r.shell,(r.before ++ r.after).foldl echo st.2)

/-- What a key does to the line: a stack of at most 255 characters. -/
def edit (line : List UInt8) (c : UInt8) : List UInt8 :=
  if c = 0x08 then line.dropLast else if line.length < 255 then line ++ [c] else line

/-- The buffer holds the line and a NUL. -/
structure Holds (st : State) (line : List UInt8) : Prop where
  pos : st.bufferPos = line.length
  le : line.length ≤ 255
  chars : (List.range line.length).map st.commandBuffer = line
  nul : st.commandBuffer line.length = 0

/-- The cells in front of the next one. -/
def before (g : Grid Cell) (n : ℕ) : List UInt8 := (List.range n).map fun i => (g.cell (g.pos - n + i)).1

/-- The cells in front of the cursor hold the line. -/
def Echoed (s : Screen) (line : List UInt8) : Prop := ∃ g, Shows s g ∧ line.length ≤ g.pos ∧ before g line.length = line

section Grid
variable {g : Grid Cell}

theorem before_type (color : UInt8) {n : ℕ} (hn : n ≤ 255) (hle : n ≤ g.pos) (hpos : g.pos < 2000) {c : UInt8}
    (hc : c ≠ '\n'.toUInt8) :
    n + 1 ≤ (type color g c).pos ∧ before (type color g c) (n + 1) = before g n ++ [c] := by
  have hnl : ¬isNewline (c,color) := hc
  have hsize : maxCols * maxRows = 2000 := rfl
  have hlast : maxCols * (maxRows - 1) = 1920 := rfl
  -- the cells are those of the grid with the character on it, seen from the position behind it
  have hcells : ∀ i ≤ n, (type color g c).cell ((type color g c).pos - (n + 1) + i) =
      Function.update g.cell g.pos (c,color) (g.pos + 1 - (n + 1) + i) := by
    intro i hi
    rw [type, put, if_neg hnl, scrollAt, hsize, hlast]
    by_cases hfull : 2000 ≤ g.pos + 1
    · rw [if_pos hfull]
      dsimp only
      rw [scrolled, hlast, if_pos (by omega)]
      congr 1
      have hcols : maxCols = 80 := rfl
      omega
    · rw [if_neg hfull]
  constructor
  · rw [type, put, if_neg hnl, scrollAt, hsize, hlast]
    split
    · dsimp only
      omega
    · dsimp only
      omega
  · rw [before, List.range_succ, List.map_append, List.map_singleton, before]
    congr 1
    · apply List.map_congr_left
      intro i hi
      have hi' := List.mem_range.mp hi
      rw [hcells i (by omega), Function.update_of_ne (by omega)]
      congr 2
      omega
    · have heq : g.pos + 1 - (n + 1) + n = g.pos := by omega
      rw [hcells n (Nat.le_refl n), heq, Function.update_self]

end Grid

theorem kprintBackspace_shows {s : Screen} {g : Grid Cell} (h : Shows s g) (hpos : 0 < g.pos) :
    Shows s.kprintBackspace ⟨Function.update g.cell (g.pos - 1) (' '.toUInt8,s.currentColor),g.pos - 1⟩ := by
  have hlt := h.pos
  have hoff : 2 * g.pos - 2 = 2 * (g.pos - 1) := by omega
  rw [Screen.kprintBackspace, h.cursor, if_pos (by omega), hoff]
  have hdrawn := (Redrawn.refl s).putCell (o := 2 * (g.pos - 1)) (by omega) ' '.toUInt8 s.currentColor
  refine ⟨fun i hi => ?_,Screen.getCursorOffset_set _ (by omega),by dsimp only; omega⟩
  have hvid := hdrawn.vidmem
  generalize s.putCell (2 * (g.pos - 1)) ' '.toUInt8 s.currentColor = t at hvid
  have hsame : (t.setCursorOffset (2 * (g.pos - 1))).vidmem = t.vidmem := rfl
  rw [hsame, hvid, hvid, cell_update, h.cell i hi]
  exact (Function.update_apply ..).symm

section Key
variable {st : State} {s : Screen} {c : UInt8}

theorem key_backspace_empty (h : st.bufferPos = 0) : key (st,s) 0x08 = (st,s) := by
  simp [key, shellInput, h]

theorem key_backspace {n : ℕ} (h : st.bufferPos = n + 1) :
    key (st,s) 0x08 = (⟨Function.update st.commandBuffer n 0,n⟩,s.kprintBackspace) := by
  simp [key, shellInput, h, echo]

theorem key_char (hback : c ≠ 0x08) (hnl : c ≠ '\n'.toUInt8) (h0 : c ≠ 0) (h : st.bufferPos < 255) :
    key (st,s) c = (⟨Function.update (Function.update st.commandBuffer st.bufferPos c) (st.bufferPos + 1) 0,
      st.bufferPos + 1⟩,s.putc c) := by
  have hnl' : ¬c = 0x0A := hnl
  have hone : cstr [c] = [c] := cstr_of_notMem (by simpa using Ne.symm h0)
  have hprint : s.kprint [c] = s.putc c := by rw [s.kprint_eq, hone]; rfl
  rw [key, shellInput, if_neg hback, if_neg hnl', if_pos (show (st,s).1.bufferPos < shellBufferSize - 1 from h), hone, ← hprint]
  rfl

theorem key_full (hback : c ≠ 0x08) (hnl : c ≠ '\n'.toUInt8) (h : ¬st.bufferPos < 255) : key (st,s) c = (st,s) := by
  have hnl' : ¬c = 0x0A := hnl
  rw [key, shellInput, if_neg hback, if_neg hnl', if_neg (show ¬(st,s).1.bufferPos < shellBufferSize - 1 from h)]
  rfl

end Key

/-- The buffer and the screen have the same line. -/
def InStep (st : State × Screen) (line : List UInt8) : Prop := Holds st.1 line ∧ Echoed st.2 line

section Step
variable {st : State} {s : Screen} {front line : List UInt8}

theorem Holds.pop {x : UInt8} (h : Holds st (front ++ [x])) :
    Holds ⟨Function.update st.commandBuffer front.length 0,front.length⟩ front := by
  have hle := h.le
  have hchars := h.chars
  rw [List.length_append, List.length_singleton] at hle hchars
  rw [List.range_succ, List.map_append] at hchars
  refine ⟨rfl,by omega,?_,Function.update_self ..⟩
  refine Eq.trans (List.map_congr_left fun i hi => ?_) (List.append_inj hchars (by simp)).1
  exact Function.update_of_ne (Nat.ne_of_lt (List.mem_range.mp hi)) ..

theorem Holds.push (h : Holds st line) (hroom : line.length < 255) (c : UInt8) :
    Holds ⟨Function.update (Function.update st.commandBuffer line.length c) (line.length + 1) 0,line.length + 1⟩
      (line ++ [c]) := by
  have hlen : (line ++ [c]).length = line.length + 1 := by rw [List.length_append, List.length_singleton]
  refine ⟨hlen.symm,by omega,?_,by rw [hlen]; exact Function.update_self ..⟩
  rw [hlen, List.range_succ, List.map_append, List.map_singleton]
  congr 1
  · refine Eq.trans (List.map_congr_left fun i hi => ?_) h.chars
    have hi' := List.mem_range.mp hi
    dsimp only
    rw [Function.update_of_ne (by omega), Function.update_of_ne (by omega)]
  · dsimp only
    rw [Function.update_of_ne (by omega), Function.update_self]

theorem Echoed.pop {x : UInt8} (h : Echoed s (front ++ [x])) : Echoed s.kprintBackspace front := by
  obtain ⟨g,hshows,hle,hcells⟩ := h
  rw [List.length_append, List.length_singleton] at hle hcells
  refine ⟨_,kprintBackspace_shows hshows (by omega),by dsimp only; omega,?_⟩
  rw [before, List.range_succ, List.map_append] at hcells
  refine Eq.trans (List.map_congr_left fun i hi => ?_) (List.append_inj hcells (by simp)).1
  have hi' := List.mem_range.mp hi
  have hcell : g.pos - 1 - front.length + i = g.pos - (front.length + 1) + i := by omega
  dsimp only
  rw [Function.update_of_ne (by omega), hcell]

theorem Echoed.push (h : Echoed s line) (hroom : line.length < 255) {c : UInt8} (hnl : c ≠ '\n'.toUInt8) :
    Echoed (s.putc c) (line ++ [c]) := by
  obtain ⟨g,hshows,hle,hcells⟩ := h
  obtain ⟨hle',hcells'⟩ := before_type s.currentColor (Nat.le_of_lt hroom) hle hshows.pos hnl
  refine ⟨_,(hshows.putc c).1,?_,?_⟩
  · rw [List.length_append, List.length_singleton]
    exact hle'
  · rw [List.length_append, List.length_singleton, hcells', hcells]

theorem InStep.key (h : InStep (st,s) line) {c : UInt8} (hnl : c ≠ '\n'.toUInt8) (h0 : c ≠ 0) :
    InStep (key (st,s) c) (edit line c) := by
  obtain ⟨hbuf,hscreen⟩ := h
  have hpos : st.bufferPos = line.length := hbuf.pos
  rw [edit]
  by_cases hback : c = 0x08
  · subst hback
    rw [if_pos rfl]
    rcases List.eq_nil_or_concat line with rfl | ⟨front,x,rfl⟩
    · rw [key_backspace_empty hpos]
      exact ⟨hbuf,hscreen⟩
    · rw [List.concat_eq_append] at *
      rw [List.length_append, List.length_singleton] at hpos
      rw [key_backspace hpos, List.dropLast_concat]
      exact ⟨hbuf.pop,hscreen.pop⟩
  · rw [if_neg hback]
    by_cases hroom : line.length < 255
    · rw [if_pos hroom, key_char hback hnl h0 (by rwa [hpos]), hpos]
      exact ⟨hbuf.push hroom c,hscreen.push hroom hnl⟩
    · rw [if_neg hroom, key_full hback hnl (by rwa [hpos])]
      exact ⟨hbuf,hscreen⟩

end Step

theorem InStep.run {st : State × Screen} {line : List UInt8} (h : InStep st line) (keys : List UInt8)
    (hkeys : ∀ c ∈ keys, c ≠ '\n'.toUInt8 ∧ c ≠ 0) : InStep (keys.foldl Shell.key st) (keys.foldl edit line) := by
  induction keys generalizing st line with
  | nil => exact h
  | cons c keys ih =>
    obtain ⟨hnl,h0⟩ := hkeys c List.mem_cons_self
    exact ih (h.key hnl h0) fun d hd => hkeys d (List.mem_cons_of_mem c hd)

/-- **Buffer and screen stay in step** from an empty line on, wherever the cursor stands. -/
theorem line_echoed (st : State) (s : Screen) (hpos : st.bufferPos = 0) (hnul : st.commandBuffer 0 = 0)
    (hcursor : s.getCursorOffset < 4000) (keys : List UInt8) (hkeys : ∀ c ∈ keys, c ≠ '\n'.toUInt8 ∧ c ≠ 0) :
    let sh := (keys.foldl key (st,s)).1
    let scr := (keys.foldl key (st,s)).2
    sh.bufferPos ≤ shellBufferSize - 1 ∧ sh.commandBuffer sh.bufferPos = 0 ∧
    (List.range sh.bufferPos).map sh.commandBuffer = keys.foldl edit [] ∧
    sh.bufferPos ≤ scr.getCursorOffset / 2 ∧ scr.getCursorOffset < 4000 ∧
    (List.range sh.bufferPos).map (fun i => scr.vidmem (2 * (scr.getCursorOffset / 2 - sh.bufferPos + i))) =
      keys.foldl edit [] := by
  have hstart : InStep (st,s) [] := ⟨⟨hpos,by decide,rfl,hnul⟩,_,shows_gridOf hcursor,Nat.zero_le _,rfl⟩
  obtain ⟨hbuf,g,hshows,hle,hcells⟩ := hstart.run keys hkeys
  dsimp only
  generalize keys.foldl key (st,s) = r at hbuf hshows
  have hg : r.2.getCursorOffset / 2 = g.pos := by
    rw [hshows.cursor]
    omega
  have hlt := hshows.pos
  rw [hbuf.pos, hg]
  refine ⟨hbuf.le,hbuf.nul,hbuf.chars,hle,by rw [hshows.cursor]; omega,?_⟩
  refine Eq.trans (List.map_congr_left fun i hi => ?_) hcells
  have hi' := List.mem_range.mp hi
  exact congrArg Prod.fst (hshows.cell _ (by omega))

/-- A screen with the cursor on its last cell. -/
def fullScreen : Screen := ⟨fun _ => 0,7,0xCF,0x0F,[],[]⟩

/-- Two characters are typed, and one of them is taken back. -/
theorem line_echoed_full : fullScreen.getCursorOffset = 3998 ∧
    (let sh := ([0x61, 0x62, 0x08].foldl key (⟨fun _ => 0,0⟩,fullScreen)).1
    let scr := ([0x61, 0x62, 0x08].foldl key (⟨fun _ => 0,0⟩,fullScreen)).2
    sh.bufferPos ≤ shellBufferSize - 1 ∧ sh.commandBuffer sh.bufferPos = 0 ∧
    (List.range sh.bufferPos).map sh.commandBuffer = [0x61] ∧
    sh.bufferPos ≤ scr.getCursorOffset / 2 ∧ scr.getCursorOffset < 4000 ∧
    (List.range sh.bufferPos).map (fun i => scr.vidmem (2 * (scr.getCursorOffset / 2 - sh.bufferPos + i))) = [0x61]) :=
  ⟨by decide,line_echoed ⟨fun _ => 0,0⟩ fullScreen rfl rfl (by decide) [0x61, 0x62, 0x08] (by decide +kernel)⟩

end ApPa.Shell

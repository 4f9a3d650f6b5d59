import ApPa.Drivers.Screen
import ApPa.Lib.TextGrid

/-! # What the screen shows

The bytes of video memory and the cursor registers are a grid of cells with a next one, and
printing a character on the screen is putting it on that grid.
-/
namespace ApPa.Drivers
open Klibc Loop TextGrid

/-- Everything written since has been written to the screen. -/
def WritesInside (s s' : Screen) : Prop := ∃ new, s'.writes = s.writes ++ new ∧ ∀ x ∈ new, x < 4000

theorem WritesInside.refl (s : Screen) : WritesInside s s := ⟨[],(List.append_nil _).symm,by simp⟩

theorem WritesInside.trans {s t u : Screen} (h : WritesInside s t) (h' : WritesInside t u) : WritesInside s u := by
  obtain ⟨l,hl,hin⟩ := h
  obtain ⟨l',hl',hin'⟩ := h'
  refine ⟨l ++ l',by rw [hl', hl, List.append_assoc],fun x hx => ?_⟩
  rcases List.mem_append.mp hx with hx | hx
  · exact hin x hx
  · exact hin' x hx

/-- What a loop leaves in video memory, and that it touches nothing else. -/
structure Redrawn (s s' : Screen) (f : ℕ → UInt8) : Prop where
  vidmem : ∀ x, s'.vidmem x = f x
  cursor : s'.getCursorOffset = s.getCursorOffset
  color : s'.currentColor = s.currentColor
  serial : s'.serial = s.serial
  writes : WritesInside s s'

def blankByte (color : UInt8) (x : ℕ) : UInt8 := if x % 2 = 0 then ' '.toUInt8 else color

namespace Redrawn
variable {s s' : Screen} {f : ℕ → UInt8}

theorem refl (s : Screen) : Redrawn s s s.vidmem := ⟨fun _ => rfl,rfl,rfl,rfl,.refl s⟩

theorem congr (h : Redrawn s s' f) {f' : ℕ → UInt8} (hf : ∀ x, f x = f' x) : Redrawn s s' f' :=
  ⟨fun x => (h.vidmem x).trans (hf x),h.cursor,h.color,h.serial,h.writes⟩

theorem poke (h : Redrawn s s' f) {o : ℕ} (ho : o < 4000) (b : UInt8) :
    Redrawn s (s'.poke o b) (Function.update f o b) := by
  have hpoke : WritesInside s' (s'.poke o b) := ⟨[o],rfl,fun x hx => List.mem_singleton.mp hx ▸ ho⟩
  refine ⟨fun x => ?_,h.cursor,h.color,h.serial,h.writes.trans hpoke⟩
  rw [Screen.poke, funext h.vidmem]

theorem putCell (h : Redrawn s s' f) {o : ℕ} (ho : o + 1 < 4000) (c attr : UInt8) :
    Redrawn s (s'.putCell o c attr) (Function.update (Function.update f o c) (o + 1) attr) :=
  (h.poke (Nat.lt_of_succ_lt ho) c).poke ho attr

end Redrawn

section Loops
variable (s : Screen)

theorem clearLoop_redrawn :
    Redrawn s ((List.range (maxCols * maxRows)).foldl (fun s i => s.putCell (i * 2) ' '.toUInt8 s.currentColor) s)
      fun x => if x < 4000 then blankByte s.currentColor x else s.vidmem x := by
  refine foldl_range (fun i s' => Redrawn s s' fun x => if x < 2 * i then blankByte s.currentColor x else s.vidmem x)
    ((Redrawn.refl s).congr fun x => (if_neg (Nat.not_lt_zero x)).symm) fun i hi s' h => ?_
  have hi' : i < 2000 := hi
  refine (h.putCell (by omega) _ _).congr fun x => ?_
  rw [h.color, Function.update_apply, Function.update_apply, blankByte]
  split_ifs <;> first | rfl | omega

theorem moveRow_redrawn {r : ℕ} (hr : r < maxRows - 1) :
    Redrawn s (s.moveRow (r + 1)) fun x => if 160 * r ≤ x ∧ x < 160 * r + 160 then s.vidmem (x + 160) else s.vidmem x := by
  have hr' : r < 24 := hr
  refine foldl_range
    (fun i s' => Redrawn s s' fun x => if 160 * r ≤ x ∧ x < 160 * r + 2 * i then s.vidmem (x + 160) else s.vidmem x)
    ((Redrawn.refl s).congr fun x => (if_neg (by omega)).symm) fun i hi s' h => ?_
  have hi' : i < 80 := hi
  have hsrc : getOffset i (r + 1) = getOffset i r + 160 := by
    simp only [getOffset, maxCols]
    omega
  have hdst : getOffset i r = 160 * r + 2 * i := by
    simp only [getOffset, maxCols]
    omega
  -- the source lies behind everything that has been written
  have hread : ∀ x, 160 * r + 2 * i ≤ x → s'.vidmem x = s.vidmem x := fun x hx => (h.vidmem x).trans (if_neg (by omega))
  have hcell : s'.moveCell (r + 1) i = (s'.poke (160 * r + 2 * i) (s.vidmem (160 * r + 2 * i + 160))).poke
      (160 * r + 2 * i + 1) (s.vidmem (160 * r + 2 * i + 160 + 1)) := by
    rw [Screen.moveCell, Nat.add_sub_cancel, hsrc, hdst]
    rw [hread _ (by omega)]
    congr 1
    rw [Screen.poke_vidmem, Function.update_of_ne (by omega), hread _ (by omega)]
  rw [hcell]
  refine ((h.poke (by omega) _).poke (by omega) _).congr fun x => ?_
  rw [Function.update_apply, Function.update_apply]
  by_cases h1 : x = 160 * r + 2 * i + 1
  · rw [if_pos h1, if_pos (by omega), h1, Nat.add_right_comm]
  by_cases h2 : x = 160 * r + 2 * i
  · rw [if_neg h1, if_pos h2, if_pos (by omega), h2]
  · rw [if_neg h1, if_neg h2]
    split_ifs <;> first | rfl | omega

theorem scrollScreen_redrawn : Redrawn s s.scrollScreen fun x =>
    if x < 3840 then s.vidmem (x + 160) else if x < 4000 then blankByte s.currentColor x else s.vidmem x := by
  have hmove : Redrawn s ((List.range (maxRows - 1)).foldl (fun s i => s.moveRow (i + 1)) s)
      fun x => if x < 160 * (maxRows - 1) then s.vidmem (x + 160) else s.vidmem x := by
    refine foldl_range (fun r s' => Redrawn s s' fun x => if x < 160 * r then s.vidmem (x + 160) else s.vidmem x)
      ((Redrawn.refl s).congr fun x => (if_neg (Nat.not_lt_zero x)).symm) fun r hr s' h => ?_
    have hrow := moveRow_redrawn s' hr
    refine ⟨fun x => ?_,hrow.cursor.trans h.cursor,hrow.color.trans h.color,hrow.serial.trans h.serial,
      h.writes.trans hrow.writes⟩
    rw [hrow.vidmem, h.vidmem, h.vidmem]
    split_ifs <;> first | rfl | omega
  have hend : 160 * (maxRows - 1) = 3840 := rfl
  rw [hend] at hmove
  refine (foldl_range (fun i s' => Redrawn s s' fun x => if x < 3840 then s.vidmem (x + 160)
      else if x < 3840 + 2 * i then blankByte s.currentColor x else s.vidmem x)
    (hmove.congr fun x => ?_) fun i hi s' h => ?_)
  · split_ifs <;> rfl
  · have hi' : i < 80 := hi
    have hoff : getOffset i (maxRows - 1) = 3840 + 2 * i := by
      simp only [getOffset, maxCols, maxRows]
      omega
    rw [hoff]
    refine (h.putCell (by omega) _ _).congr fun x => ?_
    rw [h.color, Function.update_apply, Function.update_apply, blankByte]
    split_ifs <;> first | rfl | omega

end Loops

abbrev Cell := UInt8 × UInt8

def isNewline (c : Cell) : Prop := c.1 = '\n'.toUInt8

instance : DecidablePred isNewline := fun _ => instDecidableEqUInt8 _ _

theorem cell_update (f : ℕ → UInt8) (p i : ℕ) (c attr : UInt8) :
    (Function.update (Function.update f (2 * p) c) (2 * p + 1) attr (2 * i),
      Function.update (Function.update f (2 * p) c) (2 * p + 1) attr (2 * i + 1)) =
        if i = p then (c,attr) else (f (2 * i),f (2 * i + 1)) := by
  by_cases he : i = p
  · rw [if_pos he, he, Function.update_self, Function.update_of_ne (by omega), Function.update_self]
  · rw [if_neg he, Function.update_of_ne (by omega), Function.update_of_ne (by omega), Function.update_of_ne (by omega),
      Function.update_of_ne (by omega)]

/-- The screen is a grid, and the cursor stands on it. -/
structure Shows (s : Screen) (g : Grid Cell) : Prop where
  cell : ∀ i < 2000, (s.vidmem (2 * i),s.vidmem (2 * i + 1)) = g.cell i
  cursor : s.getCursorOffset = 2 * g.pos
  pos : g.pos < 2000

theorem Shows.cursor_lt {s : Screen} {g : Grid Cell} (h : Shows s g) : s.getCursorOffset < 4000 := by
  have hpos := h.pos
  rw [h.cursor]
  omega

def gridOf (s : Screen) : Grid Cell := ⟨fun i => (s.vidmem (2 * i),s.vidmem (2 * i + 1)),s.getCursorOffset / 2⟩

theorem shows_gridOf {s : Screen} (h : s.getCursorOffset < 4000) : Shows s (gridOf s) := by
  obtain ⟨p,-,hp⟩ := s.cursor_cell
  refine ⟨fun i _ => rfl,?_,?_⟩
  · simp only [gridOf, hp]
    omega
  · simp only [gridOf, hp]
    omega

/-- A character on the grid in the colour of the screen. -/
abbrev type (color : UInt8) (g : Grid Cell) (c : UInt8) : Grid Cell :=
  put maxCols maxRows isNewline (' '.toUInt8,color) g (c,color)

section Putc
variable {s : Screen} {g : Grid Cell}

theorem Shows.drawChar (h : Shows s g) (c : UInt8) : ∃ f, Redrawn s (s.drawChar c).2 f ∧
    (∀ i < 2000, (f (2 * i),f (2 * i + 1)) =
      (if isNewline (c,s.currentColor) then g.cell else Function.update g.cell g.pos (c,s.currentColor)) i) ∧
    (s.drawChar c).1 = 2 * if isNewline (c,s.currentColor) then (g.pos / maxCols + 1) * maxCols else g.pos + 1 := by
  have hpos := h.pos
  rw [Screen.drawChar, h.cursor]
  by_cases hc : c = '\n'.toUInt8
  · have hnl : isNewline (c,s.currentColor) := hc
    rw [if_pos hc, if_pos hnl, if_pos hnl]
    refine ⟨s.vidmem,Redrawn.refl s,h.cell,?_⟩
    simp only [getOffset, getOffsetRow, maxCols]
    omega
  · have hnl : ¬isNewline (c,s.currentColor) := hc
    rw [if_neg hc, if_neg hnl, if_neg hnl]
    refine ⟨_,(Redrawn.refl s).putCell (by omega) c s.currentColor,fun i hi => ?_,rfl⟩
    rw [cell_update, h.cell i hi, Function.update_apply]

theorem Shows.putc (h : Shows s g) (c : UInt8) : Shows (s.putc c) (type s.currentColor g c) ∧
    (s.putc c).currentColor = s.currentColor ∧ (s.putc c).serial = s.serial ++ [c] ∧
    WritesInside s (s.putc c) := by
  obtain ⟨f,hdraw,hcell,hoff⟩ := h.drawChar c
  have hprint : s.putc c = ((Screen.scrollIfFull (s.drawChar c)).2.setCursorOffset
      (Screen.scrollIfFull (s.drawChar c)).1).serialPutc c := by
    rw [Screen.putc, s.printChar_eq c (-1) (-1) (if_neg (by decide))]
  obtain ⟨p,hp,hscroll⟩ := s.scrollIfFull_cell c
  have hcursor : (s.putc c).getCursorOffset = 2 * p := by
    rw [hprint, hscroll]
    exact Screen.getCursorOffset_set (Screen.scrollIfFull (s.drawChar c)).2 (by omega)
  have hput : type s.currentColor g c = scrollAt maxCols maxRows (' '.toUInt8,s.currentColor)
      ⟨if isNewline (c,s.currentColor) then g.cell else Function.update g.cell g.pos (c,s.currentColor),
        if isNewline (c,s.currentColor) then (g.pos / maxCols + 1) * maxCols else g.pos + 1⟩ := by
    rw [type, put]
    split <;> rfl
  rw [hput]
  generalize (if isNewline (c,s.currentColor) then g.cell else Function.update g.cell g.pos (c,s.currentColor)) = cell at hcell
  generalize (if isNewline (c,s.currentColor) then (g.pos / maxCols + 1) * maxCols else g.pos + 1) = q at hoff
  have hsize : maxCols * maxRows = 2000 := rfl
  have hbytes : maxRows * maxCols * 2 = 4000 := rfl
  rw [Screen.scrollIfFull, hoff, hbytes] at hprint hscroll
  by_cases hfull : 4000 ≤ 2 * q
  · -- the last row has ended
    rw [if_pos hfull] at hprint hscroll
    have hrow := scrollScreen_redrawn (s.drawChar c).2
    generalize (s.drawChar c).2.scrollScreen = t at hprint hrow
    obtain rfl : p = 1920 := by
      have hstart : getOffset 0 (maxRows - 1) = 2 * 1920 := rfl
      omega
    rw [scrollAt, hsize, if_pos (by dsimp only; omega)]
    refine ⟨⟨fun i hi => ?_,hcursor,hp⟩,?_,?_,?_⟩
    · have hvid : ∀ x, (s.putc c).vidmem x = t.vidmem x := fun x => by rw [hprint]; rfl
      have hlast : maxCols * (maxRows - 1) = 1920 := rfl
      simp only [hvid, hrow.vidmem, hdraw.vidmem, hdraw.color, scrolled, hlast]
      by_cases hi' : i < 1920
      · rw [if_pos (by omega), if_pos (by omega), if_pos hi']
        exact hcell (i + 80) (by omega)
      · rw [if_neg (by omega), if_pos (by omega), if_neg (by omega), if_pos (by omega), if_neg hi', blankByte, blankByte,
          if_pos (by omega), if_neg (by omega)]
    · rw [hprint]
      exact hrow.color.trans hdraw.color
    · rw [hprint]
      exact congrArg (· ++ [c]) (hrow.serial.trans hdraw.serial)
    · rw [hprint]
      exact hdraw.writes.trans hrow.writes
  · rw [if_neg hfull] at hprint hscroll
    obtain rfl : p = q := by omega
    rw [scrollAt, hsize, if_neg (by dsimp only; omega)]
    refine ⟨⟨fun i hi => ?_,hcursor,hp⟩,?_,?_,?_⟩
    · have hvid : ∀ x, (s.putc c).vidmem x = f x := fun x => by rw [← hdraw.vidmem x, hprint]; rfl
      rw [hvid, hvid]
      exact hcell i hi
    · rw [hprint]
      exact hdraw.color
    · rw [hprint]
      exact congrArg (· ++ [c]) hdraw.serial
    · rw [hprint]
      exact hdraw.writes

theorem Shows.run (h : Shows s g) (text : List UInt8) :
    Shows (text.foldl Screen.putc s) (text.foldl (type s.currentColor) g) ∧
    (text.foldl Screen.putc s).currentColor = s.currentColor ∧ (text.foldl Screen.putc s).serial = s.serial ++ text ∧
    WritesInside s (text.foldl Screen.putc s) := by
  induction text generalizing s g with
  | nil => exact ⟨h,rfl,(List.append_nil _).symm,.refl s⟩
  | cons c text ih =>
    obtain ⟨hshows,hcolor,hserial,hwrites⟩ := h.putc c
    obtain ⟨hshows',hcolor',hserial',hwrites'⟩ := ih hshows
    rw [hcolor] at hshows' hcolor'
    refine ⟨hshows',hcolor',?_,hwrites.trans hwrites'⟩
    rw [List.foldl_cons, hserial', hserial, List.append_assoc, List.singleton_append]

end Putc

theorem Redrawn.shows_blank {s t : Screen}
    (h : Redrawn s t fun x => if x < 4000 then blankByte s.currentColor x else s.vidmem x) :
    Shows (t.setCursorOffset (getOffset 0 0)) ⟨fun _ => (' '.toUInt8,s.currentColor),0⟩ ∧
      (t.setCursorOffset (getOffset 0 0)).currentColor = s.currentColor ∧
      WritesInside s (t.setCursorOffset (getOffset 0 0)) := by
  refine ⟨⟨fun i hi => ?_,t.getCursorOffset_set (show 0 < 2 ^ 16 by decide),Nat.succ_pos _⟩,h.color,h.writes⟩
  have hvid : (t.setCursorOffset (getOffset 0 0)).vidmem = t.vidmem := rfl
  rw [hvid, h.vidmem, h.vidmem, if_pos (by omega), if_pos (by omega), blankByte, blankByte, if_pos (by omega),
    if_neg (by omega)]

theorem shows_clearScreen (s : Screen) : Shows s.clearScreen ⟨fun _ => (' '.toUInt8,s.currentColor),0⟩ ∧
    s.clearScreen.currentColor = s.currentColor ∧ WritesInside s s.clearScreen := by
  rw [Screen.clearScreen]
  exact (clearLoop_redrawn s).shows_blank

/-- The screen shows the text that has gone to it. -/
theorem foldl_kprintText (msgs : List (List UInt8)) (text : List UInt8) (s : Screen) :
    (msgs.foldl kprintText text).foldl Screen.putc s = msgs.foldl Screen.kprint (text.foldl Screen.putc s) := by
  induction msgs generalizing text with
  | nil => rfl
  | cons msg msgs ih => rw [List.foldl_cons, List.foldl_cons, ih, kprintText, List.foldl_append, Screen.kprint_eq]

theorem foldl_kprintText_eq (msgs : List (List UInt8)) (text : List UInt8) :
    msgs.foldl kprintText text = text ++ msgs.flatMap cstr := by
  induction msgs generalizing text with
  | nil => exact (List.append_nil text).symm
  | cons msg msgs ih => rw [List.foldl_cons, ih, kprintText, List.flatMap_cons, List.append_assoc]

theorem foldl_kprint (msgs : List (List UInt8)) (s : Screen) :
    msgs.foldl Screen.kprint s = (msgs.flatMap cstr).foldl Screen.putc s := by
  rw [← List.nil_append (msgs.flatMap cstr), ← foldl_kprintText_eq, foldl_kprintText]
  rfl

theorem kprint_append (s : Screen) (a b : List UInt8) : (s.kprint a).kprint b = s.kprint (cstr a ++ b) := by
  have hcstr : ∀ a : List UInt8, cstr (cstr a ++ b) = cstr a ++ cstr b := by
    intro a
    induction a with
    | nil => rfl
    | cons c a ih =>
      rw [cstr_cons]
      by_cases hc : c = 0
      · rw [if_neg (not_not.mpr hc)]
        rfl
      · rw [if_pos hc, List.cons_append, cstr_cons, if_pos hc, ih, List.cons_append]
  rw [Screen.kprint_eq, Screen.kprint_eq, Screen.kprint_eq, hcstr, List.foldl_append]

/-- **After a call of `clear_screen` the screen shows the last rows of what has been printed**,
with the cursor behind them, and nothing outside the screen has been written. -/
theorem kprint_shows_tail (s : Screen) (msgs : List (List UInt8)) :
    let s' := msgs.foldl Screen.kprint s.clearScreen
    let g := shown maxCols maxRows ' '.toUInt8 (rows maxCols (· = '\n'.toUInt8) (msgs.flatMap cstr))
    (∀ i < 2000, s'.vidmem (2 * i) = g.cell i ∧ s'.vidmem (2 * i + 1) = s.currentColor) ∧
    s'.getCursorOffset = 2 * g.pos ∧ s'.getCursorOffset < 4000 ∧
    WritesInside s s' ∧
    ∀ a b, (s'.kprint a).kprint b = s'.kprint (cstr a ++ b) := by
  intro s' g
  obtain ⟨hclear,hcolor,hwrites⟩ := shows_clearScreen s
  obtain ⟨hshows,-,-,hwrites'⟩ := hclear.run (msgs.flatMap cstr)
  have hs' : s' = (msgs.flatMap cstr).foldl Screen.putc s.clearScreen := foldl_kprint msgs _
  rw [← hs'] at hshows hwrites'
  have hgrid : (msgs.flatMap cstr).foldl (type s.currentColor) ⟨fun _ => (' '.toUInt8,s.currentColor),0⟩ =
      ⟨fun i => (g.cell i,s.currentColor),g.pos⟩ := by
    let text : List Cell := (msgs.flatMap cstr).map fun c => (c,s.currentColor)
    have hput : text.foldl (put maxCols maxRows isNewline (' '.toUInt8,s.currentColor))
        ⟨fun _ => (' '.toUInt8,s.currentColor),0⟩ = _ := foldl_put (by decide) (by decide) text
    rw [List.foldl_map] at hput
    exact hput.trans (shown_map (fun c => (c,s.currentColor)) isNewline maxRows ' '.toUInt8 (msgs.flatMap cstr))
  rw [hcolor, hgrid] at hshows
  exact ⟨fun i hi => Prod.mk.inj (hshows.cell i hi),hshows.cursor,hshows.cursor_lt,hwrites.trans hwrites',kprint_append s'⟩

end ApPa.Drivers

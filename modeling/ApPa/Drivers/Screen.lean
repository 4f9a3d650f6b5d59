import ApPa.Klibc.CString
import ApPa.Lib.Loop
import ApPa.Lib.Numeral
import Mathlib.Data.UInt

/-! # The text screen

`screen.c`: 80 columns and 25 rows of two bytes each at the video address, a character and
its colour. The position of the cursor is kept in two registers of the video controller
and nowhere else. Every byte written to video memory is recorded by its offset.
-/
namespace ApPa.Drivers
open Klibc Loop Numeral

def maxRows : ℕ := 25
def maxCols : ℕ := 80

structure Screen where
  vidmem : ℕ → UInt8
  /-- Registers 14 and 15 of the controller. -/
  cursorHigh : UInt8
  cursorLow : UInt8
  currentColor : UInt8
  /-- What has been sent to the serial port. -/
  serial : List UInt8
  writes : List ℕ

def getOffset (col row : ℕ) : ℕ := 2 * (row * maxCols + col)
def getOffsetRow (offset : ℕ) : ℕ := offset / (2 * maxCols)
def getOffsetCol (offset : ℕ) : ℕ := offset / 2 - getOffsetRow offset * maxCols

namespace Screen

def poke (s : Screen) (offset : ℕ) (b : UInt8) : Screen :=
  { s with vidmem := Function.update s.vidmem offset b, writes := s.writes ++ [offset] }

@[simp] theorem poke_vidmem (s : Screen) (offset : ℕ) (b : UInt8) :
    (s.poke offset b).vidmem = Function.update s.vidmem offset b := rfl

def putCell (s : Screen) (offset : ℕ) (c attr : UInt8) : Screen := (s.poke offset c).poke (offset + 1) attr

def getCursorOffset (s : Screen) : ℕ := (s.cursorHigh.toNat <<< 8 + s.cursorLow.toNat) * 2

def setCursorOffset (s : Screen) (offset : ℕ) : Screen :=
  { s with cursorHigh := UInt8.ofNat ((offset / 2) >>> 8), cursorLow := UInt8.ofNat ((offset / 2) &&& 0xff) }

def clearScreen (s : Screen) : Screen :=
  ((List.range (maxCols * maxRows)).foldl (fun s i => s.putCell (i * 2) ' '.toUInt8 s.currentColor) s).setCursorOffset
    (getOffset 0 0)

/-- One turn of the loop that moves the lines up. -/
def moveCell (s : Screen) (row col : ℕ) : Screen :=
  let src := getOffset col row
  let dst := getOffset col (row - 1)
  let s := s.poke dst (s.vidmem src)
  s.poke (dst + 1) (s.vidmem (src + 1))

def moveRow (s : Screen) (row : ℕ) : Screen := (List.range maxCols).foldl (fun s col => s.moveCell row col) s

def scrollScreen (s : Screen) : Screen :=
  let s := (List.range (maxRows - 1)).foldl (fun s i => s.moveRow (i + 1)) s
  (List.range maxCols).foldl (fun s col => s.putCell (getOffset col (maxRows - 1)) ' '.toUInt8 s.currentColor) s

/-- The offset behind the character; a negative coordinate stands for the cursor. -/
def printChar (s : Screen) (c : UInt8) (col row : ℤ) (attr : UInt8) : ℕ × Screen :=
  let attr := if attr = 0 then s.currentColor else attr
  let offset := if 0 ≤ col ∧ 0 ≤ row then getOffset col.toNat row.toNat else s.getCursorOffset
  let r := if c = '\n'.toUInt8 then (getOffset 0 (getOffsetRow offset + 1),s) else (offset + 2,s.putCell offset c attr)
  let r := if maxRows * maxCols * 2 ≤ r.1 then (getOffset 0 (maxRows - 1),r.2.scrollScreen) else r
  (r.1,r.2.setCursorOffset r.1)

def serialPutc (s : Screen) (c : UInt8) : Screen := { s with serial := s.serial ++ [c] }

def printLoop : List UInt8 → ℕ → ℕ → Screen → Screen
  | [], _, _, s => s
  | c :: msg, col, row, s =>
    if c = 0 then s
    else
      let r := s.printChar c col row s.currentColor
      printLoop msg (getOffsetCol r.1) (getOffsetRow r.1) (r.2.serialPutc c)

def kprintAt (s : Screen) (msg : List UInt8) (col row : ℤ) : Screen :=
  if 0 ≤ col ∧ 0 ≤ row then printLoop msg col.toNat row.toNat s
  else printLoop msg (getOffsetCol s.getCursorOffset) (getOffsetRow s.getCursorOffset) s

def kprint (s : Screen) (message : List UInt8) : Screen := s.kprintAt message (-1) (-1)

def kprintBackspace (s : Screen) : Screen :=
  let offset := s.getCursorOffset
  if 0 < offset then (s.putCell (offset - 2) ' '.toUInt8 s.currentColor).setCursorOffset (offset - 2) else s

/-- `num_str`; the digits are turned around by a loop over half of them. -/
def uintText (value : UInt32) : List UInt8 :=
  if value = 0 then ['0'.toUInt8]
  else
    let digits := (digitsLoop 10 10 value.toNat).map fun d => '0'.toUInt8 + UInt8.ofNat d
    (List.range (digits.length / 2)).foldl (fun num j => swap 0 num j (digits.length - 1 - j)) digits

def kprintUint (s : Screen) (value : UInt32) : Screen := s.kprint (uintText value)

theorem getCursorOffset_set (s : Screen) {p : ℕ} (hp : p < 2 ^ 16) : (s.setCursorOffset (2 * p)).getCursorOffset = 2 * p := by
  have hhigh : (UInt8.ofNat (p / 2 ^ 8)).toNat = p / 256 := by
    rw [UInt8.toNat_ofNat']
    omega
  have hlow : (UInt8.ofNat (p % 2 ^ 8)).toNat = p % 256 := by
    rw [UInt8.toNat_ofNat']
    omega
  have hmask : p &&& 0xff = p % 2 ^ 8 := Nat.and_two_pow_sub_one_eq_mod p 8
  rw [getCursorOffset, setCursorOffset, Nat.mul_div_cancel_left p Nat.two_pos, Nat.shiftRight_eq_div_pow, hmask]
  dsimp only
  rw [hhigh, hlow, Nat.shiftLeft_eq]
  omega

theorem cursor_cell (s : Screen) : ∃ p < 2 ^ 16, s.getCursorOffset = 2 * p := by
  have hhigh := s.cursorHigh.toNat_lt
  have hlow := s.cursorLow.toNat_lt
  refine ⟨s.cursorHigh.toNat <<< 8 + s.cursorLow.toNat,?_,Nat.mul_comm _ _⟩
  rw [Nat.shiftLeft_eq]
  omega

theorem getOffset_split (p : ℕ) : getOffset (getOffsetCol (2 * p)) (getOffsetRow (2 * p)) = 2 * p := by
  simp only [getOffset, getOffsetCol, getOffsetRow, maxCols]
  omega

def putc (s : Screen) (c : UInt8) : Screen := (s.printChar c (-1) (-1) s.currentColor).2.serialPutc c

/-- Where the character goes before it is seen whether the screen has to scroll. -/
def drawChar (s : Screen) (c : UInt8) : ℕ × Screen :=
  if c = '\n'.toUInt8 then (getOffset 0 (getOffsetRow s.getCursorOffset + 1),s)
  else (s.getCursorOffset + 2,s.putCell s.getCursorOffset c s.currentColor)

def scrollIfFull (r : ℕ × Screen) : ℕ × Screen :=
  if maxRows * maxCols * 2 ≤ r.1 then (getOffset 0 (maxRows - 1),r.2.scrollScreen) else r

/-- The coordinates that the loop over a message keeps are those of the cursor. -/
theorem printChar_eq (s : Screen) (c : UInt8) (col row : ℤ)
    (h : (if 0 ≤ col ∧ 0 ≤ row then getOffset col.toNat row.toNat else s.getCursorOffset) = s.getCursorOffset) :
    s.printChar c col row s.currentColor = ((scrollIfFull (s.drawChar c)).1,
      (scrollIfFull (s.drawChar c)).2.setCursorOffset (scrollIfFull (s.drawChar c)).1) := by
  have hattr : (if s.currentColor = 0 then s.currentColor else s.currentColor) = s.currentColor := ite_self _
  simp only [printChar, h, hattr]
  rfl

theorem scrollIfFull_cell (s : Screen) (c : UInt8) : ∃ p < 2000, (scrollIfFull (s.drawChar c)).1 = 2 * p := by
  obtain ⟨q,-,hq⟩ := s.cursor_cell
  have heven : ∃ p, (s.drawChar c).1 = 2 * p := by
    unfold drawChar
    split
    · exact ⟨_,rfl⟩
    · exact ⟨q + 1,by rw [hq]; omega⟩
  obtain ⟨p,hp⟩ := heven
  simp only [scrollIfFull, hp, maxRows, maxCols]
  split
  · exact ⟨1920,by decide,rfl⟩
  · exact ⟨p,by omega,hp⟩

theorem printLoop_eq (msg : List UInt8) (s : Screen) {p : ℕ} (hp : s.getCursorOffset = 2 * p) :
    printLoop msg (getOffsetCol (2 * p)) (getOffsetRow (2 * p)) s = (cstr msg).foldl putc s := by
  induction msg generalizing s p with
  | nil => rfl
  | cons c msg ih =>
    rw [printLoop, cstr_cons]
    by_cases hc : c = 0
    · rw [if_pos hc, if_neg (not_not.mpr hc)]
      rfl
    obtain ⟨q,hq,hoff⟩ := s.scrollIfFull_cell c
    have hat := s.printChar_eq c (getOffsetCol (2 * p)) (getOffsetRow (2 * p))
      (by rw [if_pos ⟨Int.natCast_nonneg _,Int.natCast_nonneg _⟩, Int.toNat_natCast, Int.toNat_natCast, getOffset_split, hp])
    have hcursor := s.printChar_eq c (-1) (-1) (if_neg (by decide))
    rw [if_neg hc, if_pos hc, List.foldl_cons, putc, hat, hcursor, hoff]
    exact ih _ (getCursorOffset_set (scrollIfFull (s.drawChar c)).2 (by omega))

theorem kprint_eq (s : Screen) (msg : List UInt8) : s.kprint msg = (cstr msg).foldl putc s := by
  obtain ⟨p,-,hp⟩ := s.cursor_cell
  rw [kprint, kprintAt, if_neg (by decide), hp]
  exact printLoop_eq msg s hp

end Screen

end ApPa.Drivers

import ApPa.Shell.Shell

/-! # The keyboard driver

From a scan code to the character that the shell gets.
-/
namespace ApPa.Drivers
open Shell

def keyLshift : UInt8 := 0x2A
def keyRshift : UInt8 := 0x36

/-- `scancode_to_ascii`, eight keys a line; the keys from 0x58 on have no character. -/
def scancodeToAscii : List UInt8 :=
  [0, 0, 0x31, 0x32, 0x33, 0x34, 0x35, 0x36,
    0x37, 0x38, 0x39, 0x30, 0x2D, 0x3D, 0x08, 0x09,
    0x71, 0x77, 0x65, 0x72, 0x74, 0x79, 0x75, 0x69,
    0x6F, 0x70, 0x5B, 0x5D, 0x0A, 0, 0x61, 0x73,
    0x64, 0x66, 0x67, 0x68, 0x6A, 0x6B, 0x6C, 0x3B,
    0x27, 0x60, 0, 0x5C, 0x7A, 0x78, 0x63, 0x76,
    0x62, 0x6E, 0x6D, 0x2C, 0x2E, 0x2F, 0, 0x2A,
    0, 0x20, 0, 0, 0, 0, 0, 0,
    0, 0, 0, 0, 0, 0, 0, 0x37,
    0x38, 0x39, 0x2D, 0x34, 0x35, 0x36, 0x2B, 0x31,
    0x32, 0x33, 0x30, 0x2E, 0, 0, 0, 0]

/-- The characters that change with shift, and what they become. -/
def shiftTable : List (UInt8 × UInt8) :=
  [(0x31, 0x21), (0x32, 0x40), (0x33, 0x23), (0x34, 0x24), (0x35, 0x25), (0x36, 0x5E), (0x37, 0x26),
    (0x38, 0x2A), (0x39, 0x28), (0x30, 0x29), (0x2D, 0x5F), (0x3D, 0x2B), (0x5B, 0x7B), (0x5D, 0x7D),
    (0x3B, 0x3A), (0x27, 0x22), (0x60, 0x7E), (0x5C, 0x7C), (0x2C, 0x3C), (0x2E, 0x3E), (0x2F, 0x3F)]

def applyShift (c : UInt8) : UInt8 :=
  if 0x61 ≤ c ∧ c ≤ 0x7A then c - 32 else (shiftTable.lookup c).getD c

structure Keyboard where
  shiftPressed : Bool
  shell : State

/-- What a key does: nothing that is seen, a dump of the log, or a character for the shell. -/
inductive Reaction where
  | quiet
  | dumpLog
  | shell (r : Response)

def keyboardHandler (kb : Keyboard) (scancode : UInt8) : Reaction × Keyboard :=
  if scancode &&& 0x80 ≠ 0 then
    let releaseCode := scancode &&& 0x7F
    if releaseCode = keyLshift ∨ releaseCode = keyRshift then (.quiet, { kb with shiftPressed := false })
    else (.quiet, kb)
  else if scancode = keyLshift ∨ scancode = keyRshift then (.quiet, { kb with shiftPressed := true })
  else if scancode = 0x3B then (.dumpLog, kb)
  else
    let ascii := scancodeToAscii.getD scancode.toNat 0
    if ascii ≠ 0 then
      let response := shellInput kb.shell (if kb.shiftPressed then applyShift ascii else ascii)
      (.shell response, { kb with shell := response.shell })
    else (.quiet, kb)

def Reaction.line : Reaction → Option (List UInt8)
  | quiet => none
  | dumpLog => none
  | shell r => r.line

theorem newline_iff (shift : Bool) (scancode : UInt8) :
    (if shift then applyShift (scancodeToAscii.getD scancode.toNat 0) else scancodeToAscii.getD scancode.toNat 0) = 0x0A ↔
      scancode = 0x1C := by
  have hall : ∀ (shift : Bool) (n : Fin 256), (if shift then applyShift (scancodeToAscii.getD n 0)
      else scancodeToAscii.getD n 0) = 0x0A ↔ n = 0x1C := by
    decide +kernel
  refine (hall shift ⟨scancode.toNat,scancode.toNat_lt⟩).trans ?_
  rw [Fin.ext_iff, ← UInt8.toNat_inj]
  rfl

/-- The Enter key executes the line in the buffer, and no other key executes anything. -/
theorem keyboardHandler_line (kb : Keyboard) (scancode : UInt8) :
    (keyboardHandler kb scancode).1.line =
      if scancode = 0x1C ∧ 0 < kb.shell.bufferPos then some kb.shell.line else none := by
  have hnl := newline_iff kb.shiftPressed scancode
  unfold keyboardHandler
  by_cases henter : scancode = 0x1C
  · subst henter
    have hkey : (if kb.shiftPressed then applyShift (scancodeToAscii.getD (0x1C : UInt8).toNat 0)
        else scancodeToAscii.getD (0x1C : UInt8).toNat 0) = 0x0A := hnl.mpr rfl
    rw [if_neg (by decide), if_neg (by decide), if_neg (by decide), if_pos (by decide)]
    simp only [hkey, Reaction.line, shellInput_line, true_and]
  · have hnone : (if scancode = 0x1C ∧ 0 < kb.shell.bufferPos then some kb.shell.line else none) = none :=
      if_neg fun h => henter h.1
    rw [hnone]
    split
    · dsimp only
      split <;> rfl
    split
    · rfl
    split
    · rfl
    dsimp only
    by_cases hascii : scancodeToAscii.getD scancode.toNat 0 = 0
    · rw [if_neg (not_not.mpr hascii)]
      rfl
    · rw [if_pos hascii]
      exact (shellInput_line ..).trans (if_neg fun h => henter (hnl.mp h.1))

end ApPa.Drivers

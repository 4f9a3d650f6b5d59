import ApPa.Klibc.CString
import Mathlib.Algebra.Order.BigOperators.Group.List
import Mathlib.Data.List.Find

/-! # The shell

The line buffer, the lookup of a command, and the words that `exec` hands on.
-/
namespace ApPa.Shell
open Klibc

def shellBufferSize : ℕ := 256
def maxExecArgs : ℕ := 16

structure State where
  commandBuffer : ℕ → UInt8
  bufferPos : ℕ

def shellInit (s : State) : State := ⟨Function.update s.commandBuffer 0 0,0⟩

def State.line (s : State) : List UInt8 := cstr ((List.range s.bufferPos).map s.commandBuffer)

/-- What the shell does to the screen itself. -/
inductive Echo where
  | print (s : List UInt8)
  | backspace
  deriving DecidableEq, Repr

/-- The shell after a character, and the line it executes, between two pieces of output. -/
structure Response where
  before : List Echo
  line : Option (List UInt8)
  after : List Echo
  shell : State

def shellInput (s : State) (c : UInt8) : Response :=
  if c = 0x08 then
    if 0 < s.bufferPos then
      ⟨[.backspace],none,[],⟨Function.update s.commandBuffer (s.bufferPos - 1) 0,s.bufferPos - 1⟩⟩
    else ⟨[],none,[],s⟩
  else if c = 0x0A then
    let buffer := Function.update s.commandBuffer s.bufferPos 0
    ⟨[.print [0x0A]],
      -- the buffer ends at `buffer_pos` now
      if 0 < s.bufferPos then some (cstr ((List.range s.bufferPos).map buffer)) else none,
      [.print ['>'.toUInt8, ' '.toUInt8]],⟨Function.update buffer 0 0,0⟩⟩
  else if s.bufferPos < shellBufferSize - 1 then
    ⟨[.print (cstr [c])],none,[],
      ⟨Function.update (Function.update s.commandBuffer s.bufferPos c) (s.bufferPos + 1) 0,s.bufferPos + 1⟩⟩
  else ⟨[],none,[],s⟩

inductive Command where
  | help
  | clear
  | echo (args : List UInt8)
  | mem
  | pmem
  | color (args : List UInt8)
  | uptime
  | pagedir
  | ls (args : List UInt8)
  | cat (args : List UInt8)
  | write (args : List UInt8)
  | mkdir (args : List UInt8)
  | rm (args : List UInt8)
  | disk
  | tasktest
  | usertest
  | addrtest
  | exec (args : List UInt8)
  | elftest
  | dmesg (args : List UInt8)
  | unknown (cmd : List UInt8)
  deriving DecidableEq, Repr

/-- The names `shell_execute` compares with, in its order. -/
def commandTable : List (String × (List UInt8 → Command)) :=
  [("help",fun _ => .help),
    ("clear",fun _ => .clear),
    ("echo",.echo),
    ("mem",fun _ => .mem),
    ("pmem",fun _ => .pmem),
    ("color",.color),
    ("uptime",fun _ => .uptime),
    ("pagedir",fun _ => .pagedir),
    ("ls",.ls),
    ("cat",.cat),
    ("write",.write),
    ("mkdir",.mkdir),
    ("rm",.rm),
    ("disk",fun _ => .disk),
    ("tasktest",fun _ => .tasktest),
    ("usertest",fun _ => .usertest),
    ("addrtest",fun _ => .addrtest),
    ("exec",.exec),
    ("elftest",fun _ => .elftest),
    ("dmesg",.dmesg)]

def skipSpaces (s : List UInt8) : List UInt8 := s.dropWhile fun c => c = ' '.toUInt8

def skipWord (s : List UInt8) : List UInt8 := s.dropWhile fun c => c ≠ ' '.toUInt8

def wordLength (s : List UInt8) : ℕ := s.length - (skipWord s).length

/-- The command that `shell_execute` calls for a line, if the line is not blank. -/
def shellExecute (cmd : List UInt8) : Option Command :=
  match skipSpaces cmd with
  | [] => none
  | c :: rest =>
    let cmd := c :: rest
    let args := skipWord cmd
    let cmdLen := wordLength cmd
    match commandTable.find? fun x => strncmp cmd (ascii x.1) cmdLen = 0 && cmdLen = x.1.length with
    | some x => some (x.2 (skipSpaces args))
    | none => some (.unknown cmd)

/-- The loop of `cmd_exec` with room for `n` more words; each space behind a word becomes its
NUL. -/
def execWords : ℕ → List UInt8 → List (List UInt8)
  | 0, _ => []
  | n + 1, p =>
    match skipSpaces p with
    | [] => []
    | c :: rest => (c :: rest).takeWhile (fun c => c ≠ ' '.toUInt8) :: execWords n ((skipWord (c :: rest)).drop 1)

theorem shellInput_line (s : State) (c : UInt8) :
    (shellInput s c).line = if c = 0x0A ∧ 0 < s.bufferPos then some s.line else none := by
  have hsame : (List.range s.bufferPos).map (Function.update s.commandBuffer s.bufferPos 0) =
      (List.range s.bufferPos).map s.commandBuffer := by
    refine List.map_congr_left fun i hi => Function.update_of_ne ?_ ..
    exact Nat.ne_of_lt (List.mem_range.mp hi)
  unfold shellInput
  by_cases hback : c = 0x08
  · rw [if_pos hback, hback, if_neg (show ¬((0x08 : UInt8) = 0x0A ∧ _) from fun h => absurd h.1 (by decide))]
    split <;> rfl
  · rw [if_neg hback]
    by_cases hnl : c = 0x0A
    · simp only [hnl, if_true, true_and, hsame, State.line]
    · have hnone : (if c = 0x0A ∧ 0 < s.bufferPos then some s.line else none) = none := if_neg fun h => hnl h.1
      rw [if_neg hnl, hnone]
      split <;> rfl

theorem execWords_length (n : ℕ) (p : List UInt8) :
    (execWords n p).length ≤ n ∧ ((execWords n p).map List.length).sum ≤ p.length := by
  induction n generalizing p with
  | zero => exact ⟨Nat.le_refl 0,Nat.zero_le _⟩
  | succ n ih =>
    rw [execWords]
    split
    · exact ⟨Nat.zero_le _,Nat.zero_le _⟩
    · rename_i c rest hp
      obtain ⟨hlen,hsum⟩ := ih ((skipWord (c :: rest)).drop 1)
      refine ⟨Nat.succ_le_succ hlen,?_⟩
      have hle : (c :: rest).length ≤ p.length := by
        rw [← hp]
        exact (List.dropWhile_suffix _).length_le
      have hsplit : ((c :: rest).takeWhile fun c => c ≠ ' '.toUInt8).length + (skipWord (c :: rest)).length =
          (c :: rest).length := by
        rw [← List.length_append, skipWord, List.takeWhile_append_dropWhile]
      rw [List.length_drop] at hsum
      rw [List.map_cons, List.sum_cons]
      omega

/-! ## The lookup -/

def firstWord (args : List UInt8) : List UInt8 := args.takeWhile fun c => c ≠ ' '.toUInt8

/-- The command of a line: the first word is looked up, and what follows it is the argument. -/
def commandOf (line : List UInt8) : Option Command :=
  let cmd := skipSpaces line
  if cmd = [] then none
  else match commandTable.find? fun x => ascii x.1 = firstWord cmd with
    | some x => some (x.2 (skipSpaces (skipWord cmd)))
    | none => some (.unknown cmd)

theorem wordLength_eq (args : List UInt8) : wordLength args = (firstWord args).length := by
  have hsplit : (firstWord args).length + (skipWord args).length = args.length := by
    rw [← List.length_append, firstWord, skipWord, List.takeWhile_append_dropWhile]
  rw [wordLength]
  omega

/-- The comparison of `shell_execute` holds for the first word and nothing else, for neither a beginning of it nor a
continuation. -/
theorem isCommand_iff {cmd name : List UInt8} (h0 : 0 ∉ cmd) (hname : 0 ∉ name) :
    (strncmp cmd name (wordLength cmd) = 0 ∧ wordLength cmd = name.length) ↔ name = firstWord cmd := by
  have htake : cmd.take (wordLength cmd) = firstWord cmd := by
    rw [wordLength_eq]
    exact (List.prefix_iff_eq_take.mp (List.takeWhile_prefix _)).symm
  rw [strncmp_eq_zero_iff, cstr_of_notMem h0, cstr_of_notMem hname, htake]
  constructor
  · rintro ⟨hcmp,hlen⟩
    rw [hcmp, hlen, List.take_length]
  · rintro rfl
    rw [wordLength_eq, List.take_length]
    exact ⟨rfl,rfl⟩

theorem commandTable_names : ∀ x ∈ commandTable, 0 ∉ ascii x.1 := by decide +kernel

theorem length_ascii (s : String) : (ascii s).length = s.length := by
  rw [ascii, List.length_map, String.length_toList]

theorem shellExecute_eq {line : List UInt8} (h0 : 0 ∉ line) : shellExecute line = commandOf line := by
  have hcmd : 0 ∉ skipSpaces line := fun h => h0 ((List.dropWhile_sublist _).subset h)
  unfold shellExecute commandOf
  cases hskip : skipSpaces line with
  | nil => rfl
  | cons c rest =>
    rw [hskip] at hcmd
    dsimp only
    have hfind : (commandTable.find? fun x => strncmp (c :: rest) (ascii x.1) (wordLength (c :: rest)) = 0 &&
        wordLength (c :: rest) = x.1.length) = commandTable.find? fun x => ascii x.1 = firstWord (c :: rest) := by
      refine List.find?_congr fun x hx => ?_
      rw [← Bool.decide_and, decide_eq_decide, ← isCommand_iff hcmd (commandTable_names x hx), length_ascii]
    rw [if_neg (List.cons_ne_nil c rest), ← hfind]

end ApPa.Shell

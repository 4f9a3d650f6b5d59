import ApPa.Drivers.Console
import ApPa.Shell.Shell
import ApPa.Sys.LogFile

/-! # The commands of the shell

Each command is what it does to the screen, piece by piece, and to the file system and the kernel log. Strings come without
the NUL behind them.
-/
namespace ApPa.Shell
open Drivers Fs Klibc Sys

/-- One call of the screen driver. -/
inductive Output where
  | print (message : List UInt8)
  | backspace
  | clear
  | color (attr : UInt8)
  deriving DecidableEq, Repr

def display (s : Screen) : Output → Screen
  | .print message => s.kprint message
  | .backspace => s.kprintBackspace
  | .clear => s.clearScreen
  | .color attr => { s with currentColor := attr }

def say (text : String) : Output := .print (ascii text)

/-! ## Commands without files -/

def helpText : List String :=
  ["Available commands:\n",
    "  help         - Show this help message\n",
    "  clear        - Clear the screen\n",
    "  echo <text>  - Print text to screen\n",
    "  mem          - Display memory allocation statistics\n",
    "  pmem         - Display physical memory statistics\n",
    "  uptime       - Show system uptime\n",
    "  pagedir      - Display page directory info\n",
    "  ls           - List files and directories\n",
    "  cat <file>   - Display file contents\n",
    "  write <file> <text> - Write text to a file\n",
    "  mkdir <name> - Create a directory\n",
    "  rm <name>    - Delete a file or directory\n",
    "  disk         - Show ATA disk information\n",
    "  tasktest     - Run multitasking tests\n",
    "  usertest     - Run Ring 3 userspace tests\n",
    "  addrtest     - Run per-process address space tests\n",
    "  exec <file>  - Load & run ELF binary from filesystem\n",
    "  elftest      - Run ELF loader tests\n",
    "  dmesg        - Display kernel log buffer\n",
    "  dmesg save   - Flush kernel log to klog.txt\n",
    "  color <name> - Change text color\n",
    "               Colors: white, red, green, blue, yellow,\n",
    "                       cyan, magenta, grey, black\n"]

def cmdHelp : List Output := helpText.map say

def cmdClear : List Output := [.clear]

def cmdEcho (args : List UInt8) : List Output := if args ≠ [] then [.print args, say "\n"] else []

/-- The names that `parse_color_name` compares with, in its order. -/
def colorTable : List (String × UInt8) :=
  [("black",0x0), ("blue",0x1), ("green",0x2), ("cyan",0x3), ("red",0x4), ("magenta",0x5), ("brown",0x6), ("grey",0x7),
    ("darkgrey",0x8), ("lightblue",0x9), ("lightgreen",0xA), ("lightcyan",0xB), ("lightred",0xC), ("lightmagenta",0xD),
    ("yellow",0xE), ("white",0xF)]

def parseColorName (name : List UInt8) : UInt8 :=
  match colorTable.find? fun x => strcmp name (ascii x.1) = 0 with
  | some x => x.2
  | none => 0xFF

/-- A buffer that `strncpy` has filled with `n` characters and a NUL, read as a string. -/
def copied (s : List UInt8) (n : ℕ) : List UInt8 := cstr (strncpyBytes s n ++ [0])

/-- The name of a color is cut to fit `fg_name` and `bg_name`. -/
def colorName (s : List UInt8) : List UInt8 := copied s (if 32 ≤ wordLength s then 31 else wordLength s)

def vgaColor (fg bg : UInt8) : UInt8 := bg <<< 4 ||| fg

def cmdColor (args : List UInt8) : List Output :=
  if args = [] then [say "Usage: color <foreground> [background]\n", say "Example: color green black\n"]
  else
    let fgName := colorName args
    let fg := parseColorName fgName
    if fg = 0xFF then [say "Invalid foreground color: ", .print fgName, say "\n"]
    else
      let bgStart := skipSpaces (skipWord args)
      if bgStart = [] then [.color (vgaColor fg 0x0), say "Color changed.\n"]
      else
        let bgName := colorName bgStart
        let bg := parseColorName bgName
        if bg = 0xFF then [say "Invalid background color: ", .print bgName, say "\n"]
        else [.color (vgaColor fg bg), say "Color changed.\n"]

def unknownCommand (cmd : List UInt8) : List Output :=
  [say "Unknown command: ", .print cmd, say "\nType 'help' for available commands.\n"]

/-! ## Commands on files -/

/-- A line of `ls`, for an entry of the type and size shown. -/
def lsEntry (e : FsEntry) : List Output :=
  let sizeStr := uitoa e.size 10
  (if e.type = fsTypeFile then say "  FILE  " else if e.type = fsTypeDir then say "  DIR   " else say "  ???   ") ::
    (List.replicate (8 - strlen sizeStr) (say " ") ++ [.print sizeStr, say " B   ", .print (cstr e.name), say "\n"])

section
variable {σ : Type} (dev : BlockDevice σ)

def cmdLs (s : FsState σ) : List Output × FsState σ :=
  let (entries, s) := fsList dev fsMaxEntries s
  let count := entries.length
  if count = 0 then ([say "  (empty)\n"], s)
  else (entries.flatMap lsEntry ++ [say "  ", .print (uitoa (UInt32.ofNat count) 10), say " entries\n"], s)

/-- `read_buf` has room for 4095 bytes and a NUL. -/
def cmdCat (args : List UInt8) (s : FsState σ) : List Output × FsState σ :=
  if args = [] then ([say "Usage: cat <filename>\n"], s)
  else
    let (r, s) := fsReadFile dev args 4095 s
    match r.bytes with
    | none => ([say "Error: file not found '", .print args, say "'\n"], s)
    | some bytes => ([.print (cstr bytes), say "\n"], s)

/-- How far a text has come on its way into a file. -/
inductive Saved where
  | notCreated
  | notWritten
  | written
  deriving DecidableEq, Repr

/-- The file is created if it is not there, and written. -/
def save (filename text : List UInt8) (textLen : UInt32) (s : FsState σ) : Saved × FsState σ :=
  let write (s : FsState σ) : Saved × FsState σ :=
    let (r, s) := fsWriteFile dev filename text textLen s
    if r ≠ 0 then (.notWritten, s) else (.written, s)
  match fsStat dev filename s with
  | (some _, s) => write s
  | (none, s) =>
    let (r, s) := fsCreate dev filename fsTypeFile s
    if r ≠ 0 then (.notCreated, s) else write s

/-- What `write` prints. -/
def writeReport (filename : List UInt8) (textLen : UInt32) : Saved → List Output
  | .notCreated => [say "Error: could not create file\n"]
  | .notWritten => [say "Error: write failed\n"]
  | .written => [say "Written ", .print (uitoa textLen 10), say " bytes to '", .print filename, say "'\n"]

def cmdWrite (args : List UInt8) (s : FsState σ) : List Output × FsState σ :=
  if args = [] then ([say "Usage: write <filename> <text>\n"], s)
  else
    let nameLen := wordLength args
    if nameLen = 0 ∨ 23 < nameLen then ([say "Error: invalid filename\n"], s)
    else
      let filename := copied args nameLen
      let text := skipSpaces (skipWord args)
      if text = [] then ([say "Error: no text provided\n"], s)
      else
        let textLen := UInt32.ofNat (strlen text)
        let (saved, s) := save dev filename text textLen s
        (writeReport filename textLen saved, s)

def cmdMkdir (args : List UInt8) (s : FsState σ) : List Output × FsState σ :=
  if args = [] then ([say "Usage: mkdir <name>\n"], s)
  else
    let (r, s) := fsCreate dev args fsTypeDir s
    if r ≠ 0 then ([say "Error: could not create directory '", .print args, say "' (exists or full)\n"], s)
    else ([say "Created directory '", .print args, say "'\n"], s)

def cmdRm (args : List UInt8) (s : FsState σ) : List Output × FsState σ :=
  if args = [] then ([say "Usage: rm <name>\n"], s)
  else
    let (r, s) := fsDelete dev args s
    if r ≠ 0 then ([say "Error: '", .print args, say "' not found\n"], s) else ([say "Deleted '", .print args, say "'\n"], s)

/-- What `klog_clear` and `klog_dump` print is one text here. -/
def cmdDmesg (args : List UInt8) (k : Klog) (s : FsState σ) : Except Varargs.Fault (List Output × Klog × FsState σ) :=
  if args ≠ [] ∧ strcmp args (ascii "save") = 0 then
    let (r, s) := klogFlushToFile dev k (some (ascii "klog.txt")) s
    .ok (if r = 0 then [say "Kernel log saved to 'klog.txt'\n"] else [say "Error: could not save kernel log\n"], k, s)
  else if args ≠ [] ∧ strcmp args (ascii "clear") = 0 then do
    let (k, text) ← klogClear k
    .ok ([.print text], k, s)
  else do
    let text ← klogDump k
    .ok ([.print text], k, s)

end

/-! ## The kernel behind the shell -/

/-- `rest` is what the file system and the log do not reach. -/
structure Kernel (σ τ : Type) where
  fs : FsState σ
  log : Klog
  rest : τ

/-- The commands of other parts of the kernel: those that only print, and those that start programs. -/
structure Others (σ τ : Type) where
  report : Command → τ → List Output × τ
  start : Command → Kernel σ τ → List Output × Kernel σ τ

section
variable {σ τ : Type} (dev : BlockDevice σ) (others : Others σ τ)

def Kernel.onFs (k : Kernel σ τ) (cmd : FsState σ → List Output × FsState σ) : List Output × Kernel σ τ :=
  ((cmd k.fs).1, { k with fs := (cmd k.fs).2 })

def Kernel.reports (k : Kernel σ τ) (c : Command) : List Output × Kernel σ τ :=
  ((others.report c k.rest).1, { k with rest := (others.report c k.rest).2 })

/-- The handler that `shell_execute` calls. -/
def execute (k : Kernel σ τ) : Command → List Output × Kernel σ τ
  | .help => (cmdHelp, k)
  | .clear => (cmdClear, k)
  | .echo args => (cmdEcho args, k)
  | .color args => (cmdColor args, k)
  | .ls _ => k.onFs (cmdLs dev)
  | .cat args => k.onFs (cmdCat dev args)
  | .write args => k.onFs (cmdWrite dev args)
  | .mkdir args => k.onFs (cmdMkdir dev args)
  | .rm args => k.onFs (cmdRm dev args)
  | .dmesg args =>
    match cmdDmesg dev args k.log k.fs with
    | .ok (out, log, fs) => (out, { k with fs := fs, log := log })
    | .error _ => ([], k)
  | .unknown cmd => (unknownCommand cmd, k)
  | .mem => k.reports others .mem
  | .pmem => k.reports others .pmem
  | .uptime => k.reports others .uptime
  | .pagedir => k.reports others .pagedir
  | .disk => k.reports others .disk
  | .exec args => others.start (.exec args) k
  | .tasktest => others.start .tasktest k
  | .usertest => others.start .usertest k
  | .addrtest => others.start .addrtest k
  | .elftest => others.start .elftest k

def runLine (line : List UInt8) (k : Kernel σ τ) : List Output × Kernel σ τ :=
  match shellExecute line with
  | none => ([], k)
  | some c => execute dev others k c

def Echo.output : Echo → Output
  | .print s => .print s
  | .backspace => .backspace

structure Terminal (σ τ : Type) where
  shell : State
  kernel : Kernel σ τ

/-- A key, with everything that it sets off. -/
def pressKey (c : UInt8) (t : Terminal σ τ) : List Output × Terminal σ τ :=
  let r := shellInput t.shell c
  let (out, k) := match r.line with
    | none => ([], t.kernel)
    | some line => runLine dev others line t.kernel
  (r.before.map Echo.output ++ out ++ r.after.map Echo.output, ⟨r.shell,k⟩)

end

end ApPa.Shell

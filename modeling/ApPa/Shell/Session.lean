import ApPa.Shell.Terminal

/-! # Sessions

What a user can rely on from one line to the next: what `write` has reported as written is what `cat` prints, until the name
is written again or removed.
-/
namespace ApPa.Shell
open Drivers Fs Klibc Sys

/-! ## What a command leaves alone -/

/-- The command neither writes the name nor removes it or a directory above it. The self-test of the loader makes and removes
a file of its own. -/
def Command.Spares (f : List UInt8) : Command → Prop
  | .write args => firstWord args ≠ f
  | .rm args => args ≠ f ∧ ¬args ++ [0x2F] <+: f
  | .dmesg args => args = ascii "save" → f ≠ ascii "klog.txt"
  | .elftest => f ≠ ascii "hello.elf" ∧ ¬ascii "hello.elf/" <+: f
  | _ => True

def Command.Starts : Command → Prop
  | .exec _ | .tasktest | .usertest | .addrtest | .elftest => True
  | _ => False

section
variable {f name text : List UInt8} {m m' : NameMap} {w w' : World}

theorem SaveSpec.find {saved : Saved} (h : SaveSpec m name text saved m') (hf : f ≠ name) : m'.find f = m.find f := by
  cases saved with
  | notCreated =>
    obtain ⟨-,-,rfl⟩ := h
    rfl
  | notWritten =>
    obtain ⟨-,rfl⟩ | ⟨-,rfl⟩ := h
    · rfl
    · exact NameMap.find_insert_of_ne m _ hf
  | written =>
    obtain ⟨-,rfl⟩ := h
    exact NameMap.find_insert_of_ne m _ hf

theorem CommandSpec.find {c : Command} {out : List Output} (h : CommandSpec w c out w') (hc : c.Spares f)
    (hstart : c.Starts → w'.names.find f = w.names.find f) (h0 : 0 ∉ f) (hf : w.names.find f ≠ none) :
    w'.names.find f = w.names.find f := by
  have hsame : w' = w → w'.names.find f = w.names.find f := fun h => by rw [h]
  have hkept : w'.names = w.names → w'.names.find f = w.names.find f := fun h => by rw [h]
  cases c with
  | help | clear | echo _ | color _ | unknown _ => exact hsame h.2
  | ls _ | cat _ => exact hsame h.1
  | mem | pmem | uptime | pagedir | disk => exact hsame h
  | exec _ | tasktest | usertest | addrtest | elftest => exact hstart trivial
  | write args =>
    obtain ⟨-,h⟩ := h
    split_ifs at h
    · exact hkept h.2
    · exact hkept h.2
    · exact hkept h.2
    · obtain ⟨saved,hsave,-⟩ := h
      exact hsave.find (Ne.symm hc)
  | mkdir args =>
    obtain ⟨-,h⟩ := h
    split_ifs at h
    · exact hkept h.2
    · obtain ⟨haccepts,hnames,-⟩ | ⟨-,hnames,-⟩ := h
      · rw [hnames]
        refine NameMap.find_insert_of_ne _ _ fun heq => hf ?_
        subst heq
        have hfresh := haccepts.fresh
        rwa [cstr_of_notMem h0] at hfresh
      · exact hkept hnames
  | rm args =>
    obtain ⟨-,h⟩ := h
    split_ifs at h
    · exact hkept h.2
    · split at h
      · exact hkept h.2
      · rename_i node hfind
        rw [h.2, NameMap.find_remove, if_neg]
        rintro (heq | ⟨-,hchild⟩)
        · exact hc.1 heq.symm
        · exact hc.2 hchild
  | dmesg args =>
    by_cases hsave : args = ascii "save"
    · rw [CommandSpec, if_pos hsave] at h
      obtain ⟨-,h⟩ := h
      split_ifs at h
      · exact hkept h.2
      · obtain ⟨saved,hsaved,-⟩ := h
        exact hsaved.find (hc hsave)
    · rw [CommandSpec, if_neg hsave] at h
      split_ifs at h
      · exact hkept h.1
      · exact hsame h.1

end

/-! ## Write and cat -/

structure IsLine (line : List UInt8) : Prop where
  length_le : line.length ≤ 255
  nul : 0 ∉ line

section
variable {σ τ : Type} {dev : BlockDevice σ} (r : Reliable dev) {others : Others σ τ}

/-- What starts programs leaves the files alone, except for the one of the self-test. -/
def Others.Keeps (others : Others σ τ) : Prop :=
  ∀ c k f, Consistent dev.totalBlocks (r.volume k.fs) → c.Spares f →
    (world r (others.start c k).2).names.find f = (world r k).names.find f

variable (hothers : others.Sound r) (hkeeps : others.Keeps r) {k : Kernel σ τ}
  (hc : Consistent dev.totalBlocks (r.volume k.fs)) {f : List UInt8}
include hothers hc

theorem runLine_command {line : List UInt8} (hl : IsLine line) {c : Command} (hcmd : shellExecute line = some c) :
    CommandSpec (world r k) c (runLine dev others line k).1 (world r (runLine dev others line k).2) := by
  obtain ⟨-,hspec⟩ := runLine_refines r hothers hc hl.nul hl.length_le
  rwa [← shellExecute_eq hl.nul, hcmd] at hspec

include hkeeps

theorem runLine_find {line : List UInt8} (hl : IsLine line) (hspare : ∀ c, shellExecute line = some c → c.Spares f)
    (h0 : 0 ∉ f) (hf : (world r k).names.find f ≠ none) :
    (world r (runLine dev others line k).2).names.find f = (world r k).names.find f := by
  cases hcmd : shellExecute line with
  | none =>
    rw [runLine, hcmd]
  | some c =>
    have hc' := hspare c hcmd
    refine (runLine_command r hothers hc hl hcmd).find hc' (fun hstart => ?_) h0 hf
    rw [runLine, hcmd]
    cases c with
    | exec _ | tasktest | usertest | addrtest | elftest => exact hkeeps _ k f hc hc'
    | _ => exact hstart.elim

theorem run_find {lines : List (List UInt8)} (hlines : ∀ l ∈ lines, IsLine l)
    (hspare : ∀ l ∈ lines, ∀ c, shellExecute l = some c → c.Spares f) (h0 : 0 ∉ f)
    (hf : (world r k).names.find f ≠ none) :
    Consistent dev.totalBlocks (r.volume (Machine.run (runLine dev others) lines k).2.fs) ∧
      (world r (Machine.run (runLine dev others) lines k).2).names.find f = (world r k).names.find f := by
  induction lines generalizing k with
  | nil => exact ⟨hc,rfl⟩
  | cons l lines ih =>
    have hl := hlines l List.mem_cons_self
    have hfind := runLine_find r hothers hkeeps hc hl (hspare l List.mem_cons_self) h0 hf
    have hc₁ := (runLine_refines r hothers hc hl.nul hl.length_le).1
    obtain ⟨hc₂,hrest⟩ := ih hc₁ (fun l hl => hlines l (List.mem_cons_of_mem _ hl))
      (fun l hl => hspare l (List.mem_cons_of_mem _ hl)) (by rw [hfind]; exact hf)
    exact ⟨hc₂,hrest.trans hfind⟩

omit hkeeps in
/-- Where `write` reports that it has written, the file is there. The other reports are shorter. -/
theorem find_of_written {line args : List UInt8} (hl : IsLine line) (hcmd : shellExecute line = some (.write args))
    (hwritten : (runLine dev others line k).1 =
      writeReport (firstWord args) (UInt32.ofNat (skipSpaces (skipWord args)).length) .written) :
    firstWord args ≠ [] ∧
      (world r (runLine dev others line k).2).names.find (firstWord args) = some (.file (skipSpaces (skipWord args))) := by
  obtain ⟨-,hspec⟩ := runLine_command r hothers hc hl hcmd
  have hfive : (runLine dev others line k).1.length = 5 := congrArg List.length hwritten
  have hone : ∀ o, (runLine dev others line k).1 ≠ [o] := by
    intro o ho
    rw [ho] at hfive
    cases hfive
  split_ifs at hspec with hargs hname htext
  · exact absurd hspec.1 (hone _)
  · exact absurd hspec.1 (hone _)
  · exact absurd hspec.1 (hone _)
  obtain ⟨saved,hsave,hreport⟩ := hspec
  cases saved with
  | notCreated => exact absurd hreport (hone _)
  | notWritten => exact absurd hreport (hone _)
  | written =>
    rw [hsave.2]
    exact ⟨fun h => hname (.inl h),NameMap.find_insert_self ..⟩

/-- What `write` has reported as written is what `cat` prints, whatever else the session does to other names and whichever
programs it starts. The two lines may have more spaces than they need. -/
theorem cat_after_write {wline cline args : List UInt8} (hwline : IsLine wline) (hcline : IsLine cline)
    (hwrite : shellExecute wline = some (.write args)) (hcat : shellExecute cline = some (.cat (firstWord args)))
    {lines : List (List UInt8)} (hlines : ∀ l ∈ lines, IsLine l)
    (hspare : ∀ l ∈ lines, ∀ c, shellExecute l = some c → c.Spares (firstWord args))
    (hwritten : (runLine dev others wline k).1 =
      writeReport (firstWord args) (UInt32.ofNat (skipSpaces (skipWord args)).length) .written) :
    (runLine dev others cline (Machine.run (runLine dev others) lines (runLine dev others wline k).2).2).1 =
      [.print (skipSpaces (skipWord args)), say "\n"] := by
  have hsub : args.Sublist wline := shellExecute_args hwrite
  have h0 : 0 ∉ args := fun h => hwline.nul (hsub.subset h)
  obtain ⟨hne,hfound⟩ := find_of_written r hothers hc hwline hwrite hwritten
  have hc₁ := (runLine_refines r hothers hc hwline.nul hwline.length_le).1
  obtain ⟨hc₂,hkept⟩ := run_find r hothers hkeeps hc₁ hlines hspare (notMem_firstWord h0)
    (by rw [hfound]; exact Option.some_ne_none _)
  obtain ⟨-,hspec⟩ := runLine_command r hothers hc₂ hcline hcat
  rw [if_neg hne, hkept, hfound] at hspec
  have hlen : (skipSpaces (skipWord args)).length ≤ 4095 :=
    (length_rest_le args).trans (hsub.length_le.trans (hwline.length_le.trans (by decide)))
  rw [hspec, List.take_of_length_le hlen, cstr_of_notMem (notMem_rest h0)]

end

/-! ## On the screen -/

section
variable {s : Screen}

theorem display_inside (h : s.getCursorOffset < 4000) (o : Output) :
    (display s o).getCursorOffset < 4000 ∧ WritesInside s (display s o) := by
  have hgrid := shows_gridOf h
  cases o with
  | print message =>
    obtain ⟨hshows,-,-,hwrites⟩ := hgrid.run (cstr message)
    rw [display, Screen.kprint_eq]
    exact ⟨hshows.cursor_lt,hwrites⟩
  | backspace =>
    rw [display]
    rcases Nat.eq_zero_or_pos s.getCursorOffset with hzero | hpos
    · have hsame : s.kprintBackspace = s := if_neg (by omega)
      rw [hsame]
      exact ⟨h,.refl s⟩
    · have hcell : 0 < (gridOf s).pos := by
        have hcursor := hgrid.cursor
        omega
      refine ⟨(kprintBackspace_shows hgrid hcell).cursor_lt,?_⟩
      rw [Screen.kprintBackspace, if_pos hpos]
      exact ((Redrawn.refl s).putCell (by omega) ' '.toUInt8 s.currentColor).writes
  | clear =>
    obtain ⟨hshows,-,hwrites⟩ := shows_clearScreen s
    exact ⟨hshows.cursor_lt,hwrites⟩
  | color attr => exact ⟨h,.refl s⟩

theorem foldl_display_inside (h : s.getCursorOffset < 4000) (out : List Output) :
    (out.foldl display s).getCursorOffset < 4000 ∧ WritesInside s (out.foldl display s) := by
  induction out generalizing s with
  | nil => exact ⟨h,.refl s⟩
  | cons o out ih =>
    obtain ⟨hcursor,hwrites⟩ := display_inside h o
    obtain ⟨hcursor',hwrites'⟩ := ih hcursor
    exact ⟨hcursor',hwrites.trans hwrites'⟩

/-- Whatever is typed, the shell draws on the screen and keeps the cursor there. -/
theorem terminal_inside {σ τ : Type} (dev : BlockDevice σ) (others : Others σ τ) (t : Terminal σ τ) (keys : List UInt8)
    (h : s.getCursorOffset < 4000) :
    ((Machine.run (pressKey dev others) keys t).1.flatten.foldl display s).getCursorOffset < 4000 ∧
      WritesInside s ((Machine.run (pressKey dev others) keys t).1.flatten.foldl display s) :=
  foldl_display_inside h _

end

/-- A kernel with an empty file system of eight blocks. -/
def freshKernel : Kernel (ℕ → Block) ℕ := ⟨(fsInit (ramDevice 8) blankState).2,⟨fun _ => blankEntry,0,0,0⟩,0⟩

/-- A directory is made, a program and the tests of the loader are run, and another file is written. -/
def noteLines : List (List UInt8) := [ascii "mkdir d", ascii "exec p x", ascii "elftest", ascii "write b x"]

theorem cat_after_write_note :
    (runLine (ramDevice 8) countingOthers (ascii "  cat a") (Machine.run (runLine (ramDevice 8) countingOthers) noteLines
      (runLine (ramDevice 8) countingOthers (ascii "write  a  b c") freshKernel).2).2).1 = [say "b c", say "\n"] := by
  have hname : firstWord (ascii "a  b c") = ascii "a" := by decide +kernel
  have htext : skipSpaces (skipWord (ascii "a  b c")) = ascii "b c" := by decide +kernel
  obtain ⟨s₀,hinit,hc,-⟩ := (ramReliable 8).fsInit_unformatted blankState (by decide) (blank_unformatted 8)
  have hconsistent : Consistent (ramDevice 8).totalBlocks ((ramReliable 8).volume freshKernel.fs) := by
    rw [freshKernel, hinit]
    exact hc
  have hwline : IsLine (ascii "write  a  b c") := ⟨by decide +kernel,by decide +kernel⟩
  have hcline : IsLine (ascii "  cat a") := ⟨by decide +kernel,by decide +kernel⟩
  have hwrite : shellExecute (ascii "write  a  b c") = some (.write (ascii "a  b c")) := by decide +kernel
  have hcat : shellExecute (ascii "  cat a") = some (.cat (firstWord (ascii "a  b c"))) := by decide +kernel
  have hlines : ∀ l ∈ noteLines, IsLine l := by
    have hall : ∀ l ∈ noteLines, l.length ≤ 255 ∧ 0 ∉ l := by decide +kernel
    exact fun l hl => ⟨(hall l hl).1,(hall l hl).2⟩
  have hspare : ∀ l ∈ noteLines, ∀ c, shellExecute l = some c → c.Spares (firstWord (ascii "a  b c")) := by
    have hmkdir : shellExecute (ascii "mkdir d") = some (.mkdir (ascii "d")) := by decide +kernel
    have hexec : shellExecute (ascii "exec p x") = some (.exec (ascii "p x")) := by decide +kernel
    have htest : shellExecute (ascii "elftest") = some .elftest := by decide +kernel
    have hother : shellExecute (ascii "write b x") = some (.write (ascii "b x")) := by decide +kernel
    have htestFile : ascii "a" ≠ ascii "hello.elf" ∧ ¬ascii "hello.elf/" <+: ascii "a" := by decide +kernel
    have hotherFile : firstWord (ascii "b x") ≠ ascii "a" := by decide +kernel
    rw [hname, noteLines]
    simp only [List.forall_mem_cons, hmkdir, hexec, htest, hother, Option.some.injEq, forall_eq']
    exact ⟨trivial,trivial,htestFile,hotherFile,fun _ h => nomatch h⟩
  have hwritten : (runLine (ramDevice 8) countingOthers (ascii "write  a  b c") freshKernel).1 =
      writeReport (firstWord (ascii "a  b c")) (UInt32.ofNat (skipSpaces (skipWord (ascii "a  b c"))).length) .written := by
    decide +kernel
  have hsound : countingOthers.Sound (ramReliable 8) := fun _ _ h => h
  have hkeeps : countingOthers.Keeps (ramReliable 8) := fun _ _ _ _ _ => rfl
  have hshown := cat_after_write (ramReliable 8) hsound hkeeps hconsistent hwline hcline hwrite hcat hlines hspare hwritten
  rw [htext] at hshown
  exact hshown

end ApPa.Shell

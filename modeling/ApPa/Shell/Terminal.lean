import ApPa.Fs.Refinement
import ApPa.Shell.Commands
import ApPa.Shell.LineEdit

/-! # The shell as a terminal on a map of names

What a user of the shell sees, without devices, directory slots or buffers: a line that keys edit, a finite map of names, a
log, and for each command what it prints and how it changes them.
-/
namespace ApPa.Shell
open Fs Klibc Sys

structure World where
  names : NameMap
  log : Klog

/-- The outcomes of saving a text under a name. A text that does not fit leaves a new file behind, which is empty. -/
def SaveSpec (m : NameMap) (name text : List UInt8) : Saved → NameMap → Prop
  | .notCreated, m' => m.find name = none ∧ ¬m.Accepts name fsTypeFile ∧ m' = m
  | .notWritten, m' => m.find name ≠ none ∧ m' = m ∨ m.Accepts name fsTypeFile ∧ m' = m.insert name (.file [])
  | .written, m' =>
    ((∃ old, m.find name = some (.file old)) ∨ m.Accepts name fsTypeFile) ∧ m' = m.insert name (.file text)

def lsLine (x : List UInt8 × Node) : List Output :=
  let size := numeral 10 x.2.size
  (if x.2 = .dir then say "  DIR   " else say "  FILE  ") ::
    (List.replicate (8 - size.length) (say " ") ++ [.print size, say " B   ", .print x.1, say "\n"])

/-- What `ls` prints for the names that it lists. -/
def listing (entries : List (List UInt8 × Node)) : List Output :=
  if entries = [] then [say "  (empty)\n"]
  else entries.flatMap lsLine ++ [say "  ", .print (numeral 10 entries.length), say " entries\n"]

def colorOf (name : List UInt8) : Option UInt8 := (colorTable.find? fun x => ascii x.1 = name).map Prod.snd

/-- What `color` does. Longer names are cut to 31 characters. -/
def colorReply (args : List UInt8) : List Output :=
  let fgName := (firstWord args).take 31
  let rest := skipSpaces (skipWord args)
  let bgName := (firstWord rest).take 31
  if args = [] then [say "Usage: color <foreground> [background]\n", say "Example: color green black\n"]
  else match colorOf fgName with
    | none => [say "Invalid foreground color: ", .print fgName, say "\n"]
    | some fg =>
      if rest = [] then [.color fg, say "Color changed.\n"]
      else match colorOf bgName with
        | none => [say "Invalid background color: ", .print bgName, say "\n"]
        | some bg => [.color (16 * bg + fg), say "Color changed.\n"]

/-- The effect and the output of one command. Nothing is asked of the commands that start programs. -/
def CommandSpec (w : World) : Command → List Output → World → Prop
  | .help, out, w' => out = helpText.map say ∧ w' = w
  | .clear, out, w' => out = [.clear] ∧ w' = w
  | .echo args, out, w' => (out = if args = [] then [] else [.print args, say "\n"]) ∧ w' = w
  | .color args, out, w' => out = colorReply args ∧ w' = w
  | .unknown cmd, out, w' =>
      out = [say "Unknown command: ", .print cmd, say "\nType 'help' for available commands.\n"] ∧ w' = w
  | .ls _, out, w' => w' = w ∧ ∃ entries : List (List UInt8 × Node), out = listing entries ∧
      (entries.map Prod.fst).Nodup ∧ ∀ name node, (name, node) ∈ entries ↔ w.names.find name = some node
  | .cat args, out, w' => w' = w ∧
      if args = [] then out = [say "Usage: cat <filename>\n"]
      else match w.names.find args with
        | some (.file bytes) => out = [.print (cstr (bytes.take 4095)), say "\n"]
        | _ => out = [say "Error: file not found '", .print args, say "'\n"]
  | .write args, out, w' => w'.log = w.log ∧
      if args = [] then out = [say "Usage: write <filename> <text>\n"] ∧ w'.names = w.names
      else if firstWord args = [] ∨ 23 < (firstWord args).length then
        out = [say "Error: invalid filename\n"] ∧ w'.names = w.names
      else if skipSpaces (skipWord args) = [] then out = [say "Error: no text provided\n"] ∧ w'.names = w.names
      else ∃ saved, SaveSpec w.names (firstWord args) (skipSpaces (skipWord args)) saved w'.names ∧
        out = writeReport (firstWord args) (UInt32.ofNat (skipSpaces (skipWord args)).length) saved
  | .mkdir args, out, w' => w'.log = w.log ∧
      if args = [] then out = [say "Usage: mkdir <name>\n"] ∧ w'.names = w.names
      else (w.names.Accepts args fsTypeDir ∧ w'.names = w.names.insert args .dir ∧
          out = [say "Created directory '", .print args, say "'\n"]) ∨
        (¬w.names.Accepts args fsTypeDir ∧ w'.names = w.names ∧
          out = [say "Error: could not create directory '", .print args, say "' (exists or full)\n"])
  | .rm args, out, w' => w'.log = w.log ∧
      if args = [] then out = [say "Usage: rm <name>\n"] ∧ w'.names = w.names
      else match w.names.find args with
        | none => out = [say "Error: '", .print args, say "' not found\n"] ∧ w'.names = w.names
        | some node => out = [say "Deleted '", .print args, say "'\n"] ∧
            w'.names = w.names.remove fun n => n = args ∨ node = .dir ∧ args ++ [0x2F] <+: n
  | .dmesg args, out, w' =>
      if args = ascii "save" then w'.log = w.log ∧
        if held w.log = [] then out = [say "Kernel log saved to 'klog.txt'\n"] ∧ w'.names = w.names
        else ∃ saved, SaveSpec w.names (ascii "klog.txt") (klogFlush w.log).1 saved w'.names ∧
          out = if saved = .written then [say "Kernel log saved to 'klog.txt'\n"] else [say "Error: could not save kernel log\n"]
      else if args = ascii "clear" then w'.names = w.names ∧ held w'.log = [] ∧ out = [say "[INFO]  Log buffer cleared\n"]
      else w' = w ∧ out = [.print (dumpHeader (klogGetStats w.log).1 (klogGetStats w.log).2 ++
        (held w.log).flatMap dumpLine ++ ascii "\n=== End of Log ===\n")]
  | .mem, _, w' | .pmem, _, w' | .uptime, _, w' | .pagedir, _, w' | .disk, _, w' => w' = w
  | .exec _, _, _ | .tasktest, _, _ | .usertest, _, _ | .addrtest, _, _ | .elftest, _, _ => True

/-! ## The words of a line -/

theorem copied_word {args : List UInt8} (h0 : 0 ∉ args) : copied args (wordLength args) = firstWord args := by
  have htake : args.take (firstWord args).length = firstWord args :=
    (List.prefix_iff_eq_take.mp (List.takeWhile_prefix _)).symm
  rw [copied, cstr_strncpyBytes_zero, cstr_of_notMem h0, wordLength_eq, htake]

theorem notMem_firstWord {args : List UInt8} (h0 : 0 ∉ args) : 0 ∉ firstWord args :=
  fun h => h0 ((List.takeWhile_sublist _).subset h)

theorem notMem_rest {args : List UInt8} (h0 : 0 ∉ args) : 0 ∉ skipSpaces (skipWord args) :=
  fun h => h0 (((List.dropWhile_sublist _).trans (List.dropWhile_sublist _)).subset h)

theorem length_rest_le (args : List UInt8) : (skipSpaces (skipWord args)).length ≤ args.length :=
  ((List.dropWhile_sublist _).trans (List.dropWhile_sublist _)).length_le

/-! ## Colours -/

theorem colorName_eq {s : List UInt8} (h0 : 0 ∉ s) : colorName s = (firstWord s).take 31 := by
  have htake : s.take (wordLength s) = firstWord s := by
    rw [wordLength_eq]
    exact (List.prefix_iff_eq_take.mp (List.takeWhile_prefix _)).symm
  rw [colorName, copied, cstr_strncpyBytes_zero, cstr_of_notMem h0, ← htake, List.take_take]
  congr 1
  split
  · omega
  · omega

theorem colorTable_names : ∀ x ∈ colorTable, 0 ∉ ascii x.1 := by decide +kernel

theorem parseColorName_eq {name : List UInt8} (h0 : 0 ∉ name) : parseColorName name = (colorOf name).getD 0xFF := by
  have hfind : (colorTable.find? fun x => strcmp name (ascii x.1) = 0) = colorTable.find? fun x => ascii x.1 = name := by
    refine List.find?_congr fun x hx => ?_
    rw [decide_eq_decide, strcmp_eq_zero_iff, cstr_of_notMem h0, cstr_of_notMem (colorTable_names x hx)]
    exact eq_comm
  rw [parseColorName, hfind, colorOf]
  cases colorTable.find? fun x => ascii x.1 = name with
  | none => rfl
  | some x => rfl

theorem colorOf_mem {name : List UInt8} {c : UInt8} (h : colorOf name = some c) : c ∈ colorTable.map Prod.snd := by
  obtain ⟨x,hx,rfl⟩ := Option.map_eq_some_iff.mp h
  exact List.mem_map_of_mem (List.mem_of_find?_eq_some hx)

theorem cmdColor_eq {args : List UInt8} (h0 : 0 ∉ args) : cmdColor args = colorReply args := by
  have hrest := notMem_rest h0
  have hparse : ∀ {s : List UInt8}, 0 ∉ s → parseColorName (colorName s) = (colorOf ((firstWord s).take 31)).getD 0xFF := by
    intro s hs
    rw [colorName_eq hs, parseColorName_eq fun h => notMem_firstWord hs (List.mem_of_mem_take h)]
  have hvalid : ∀ c ∈ colorTable.map Prod.snd, c ≠ 0xFF ∧ vgaColor c 0x0 = c ∧
      ∀ bg ∈ colorTable.map Prod.snd, vgaColor c bg = 16 * bg + c := by decide +kernel
  unfold cmdColor colorReply
  dsimp only
  rw [hparse h0, hparse hrest, colorName_eq h0, colorName_eq hrest]
  by_cases hargs : args = []
  · rw [if_pos hargs, if_pos hargs]
  rw [if_neg hargs, if_neg hargs]
  cases hfg : colorOf ((firstWord args).take 31) with
  | none => rfl
  | some fg =>
    obtain ⟨hne,hblack,hmix⟩ := hvalid fg (colorOf_mem hfg)
    rw [Option.getD_some, if_neg hne, hblack]
    dsimp only
    split
    · rfl
    cases hbg : colorOf ((firstWord (skipSpaces (skipWord args))).take 31) with
    | none => rfl
    | some bg =>
      have hbgMem := colorOf_mem hbg
      rw [Option.getD_some, if_neg (hvalid bg hbgMem).1, hmix bg hbgMem]

/-! ## The calls of the file system -/

theorem insert_insert (m : NameMap) (name : List UInt8) (node node' : Node) :
    (m.insert name node).insert name node' = m.insert name node' := by
  ext1
  exact Function.update_idem ..

section
variable {σ : Type} {dev : BlockDevice σ} (r : Reliable dev) {s : FsState σ} (hc : Consistent dev.totalBlocks (r.volume s))
include hc

theorem fsStat_cases {name : List UInt8} (h0 : 0 ∉ name) : ∃ e s', fsStat dev name s = (e, s') ∧ r.volume s' = r.volume s ∧
    (e = none ↔ (r.volume s).nodes.find name = none) := by
  obtain ⟨hv,-,hspec⟩ := r.stat_refines s hc.sound name
  rw [cstr_of_notMem h0] at hspec
  refine ⟨(fsStat dev name s).1,(fsStat dev name s).2,rfl,hv,?_⟩
  cases hfind : (r.volume s).nodes.find name with
  | none =>
    rw [hfind] at hspec
    injection hspec with he
    exact iff_of_true he rfl
  | some node =>
    rw [hfind] at hspec
    obtain ⟨e,he,-⟩ := hspec
    injection he with he
    rw [he]
    exact iff_of_false (Option.some_ne_none e) (Option.some_ne_none node)

theorem fsCreate_cases {name : List UInt8} (h0 : 0 ∉ name) (type : UInt8) :
    ∃ s', Consistent dev.totalBlocks (r.volume s') ∧
      (((r.volume s).nodes.Accepts name type ∧ fsCreate dev name type s = (0, s') ∧
          (r.volume s').nodes = (r.volume s).nodes.insert name (Node.ofType type)) ∨
        (¬(r.volume s).nodes.Accepts name type ∧ fsCreate dev name type s = (-1, s') ∧
          (r.volume s').nodes = (r.volume s).nodes)) := by
  obtain ⟨hc',hspec⟩ := r.create_refines s hc name type
  refine ⟨_,hc',?_⟩
  rcases hspec with ⟨haccepts,hstatus,hnodes⟩ | ⟨hrefuses,hstatus,hnodes⟩
  · rw [cstr_of_notMem h0] at hnodes
    injection hstatus with hstatus
    exact .inl ⟨haccepts,Prod.ext hstatus rfl,hnodes⟩
  · injection hstatus with hstatus
    exact .inr ⟨hrefuses,Prod.ext hstatus rfl,hnodes⟩

theorem fsWriteFile_cases {name text : List UInt8} (h0 : 0 ∉ name) (hlen : text.length < 2 ^ 24) :
    ∃ s', Consistent dev.totalBlocks (r.volume s') ∧
      ((fsWriteFile dev name text (UInt32.ofNat text.length) s = (0, s') ∧
          (∃ old, (r.volume s).nodes.find name = some (.file old)) ∧
          (r.volume s').nodes = (r.volume s).nodes.insert name (.file text)) ∨
        (fsWriteFile dev name text (UInt32.ofNat text.length) s = (-1, s') ∧
          (r.volume s').nodes = (r.volume s).nodes)) := by
  obtain ⟨hc',hspec⟩ := r.write_refines s hc name text hlen
  refine ⟨_,hc',?_⟩
  rcases hspec with ⟨hold,hstatus,hnodes⟩ | ⟨hstatus,hnodes⟩
  · rw [cstr_of_notMem h0] at hold hnodes
    injection hstatus with hstatus
    exact .inl ⟨Prod.ext hstatus rfl,hold,hnodes⟩
  · injection hstatus with hstatus
    exact .inr ⟨Prod.ext hstatus rfl,hnodes⟩

theorem save_refines {name text : List UInt8} (h0 : 0 ∉ name) (hlen : text.length < 2 ^ 24) :
    ∃ saved s', save dev name text (UInt32.ofNat text.length) s = (saved, s') ∧ Consistent dev.totalBlocks (r.volume s') ∧
      SaveSpec (r.volume s).nodes name text saved (r.volume s').nodes := by
  obtain ⟨e,s₁,hstat,hv,he⟩ := fsStat_cases r hc h0
  have hc₁ : Consistent dev.totalBlocks (r.volume s₁) := hv.symm ▸ hc
  unfold save
  rw [hstat]
  cases e with
  | some e =>
    dsimp only
    have hsome : (r.volume s).nodes.find name ≠ none := fun h => Option.some_ne_none e (he.mpr h)
    obtain ⟨s₂,hc₂,⟨hwrite,hold,hnodes⟩ | ⟨hwrite,hnodes⟩⟩ := fsWriteFile_cases r hc₁ h0 hlen
    · rw [hv] at hold hnodes
      exact ⟨.written,s₂,by rw [hwrite]; rfl,hc₂,.inl hold,hnodes⟩
    · rw [hv] at hnodes
      exact ⟨.notWritten,s₂,by rw [hwrite]; rfl,hc₂,.inl ⟨hsome,hnodes⟩⟩
  | none =>
    dsimp only
    obtain ⟨s₂,hc₂,⟨haccepts,hcreate,hnodes₂⟩ | ⟨hrefuses,hcreate,hnodes₂⟩⟩ := fsCreate_cases r hc₁ h0 fsTypeFile
    · rw [hv] at haccepts hnodes₂
      rw [hcreate]
      obtain ⟨s₃,hc₃,⟨hwrite,-,hnodes⟩ | ⟨hwrite,hnodes⟩⟩ := fsWriteFile_cases r hc₂ h0 hlen
      · rw [hnodes₂, insert_insert] at hnodes
        exact ⟨.written,s₃,by rw [hwrite]; rfl,hc₃,.inr haccepts,hnodes⟩
      · exact ⟨.notWritten,s₃,by rw [hwrite]; rfl,hc₃,.inr ⟨haccepts,hnodes.trans hnodes₂⟩⟩
    · rw [hv] at hrefuses hnodes₂
      exact ⟨.notCreated,s₂,by rw [hcreate]; rfl,hc₂,he.mp rfl,hrefuses,hnodes₂⟩

end

/-! ## The commands -/

def Command.args : Command → List UInt8
  | .echo args | .color args | .ls args | .cat args | .write args | .mkdir args | .rm args | .exec args | .dmesg args => args
  | .unknown cmd => cmd
  | _ => []

section
variable {σ : Type} {dev : BlockDevice σ} (r : Reliable dev) {s : FsState σ} (hc : Consistent dev.totalBlocks (r.volume s))

/-- A command on the file system keeps it consistent and does what is asked of it, and the log is not concerned. -/
def Refines (s : FsState σ) (c : Command) (result : List Output × FsState σ) : Prop :=
  Consistent dev.totalBlocks (r.volume result.2) ∧
    ∀ log, CommandSpec ⟨(r.volume s).nodes,log⟩ c result.1 ⟨(r.volume result.2).nodes,log⟩

theorem numeral_uitoa (value : UInt32) : uitoa value 10 = numeral 10 value.toNat := by
  rw [uitoa_eq (by decide) (by decide), utoa_eq (by decide)]

theorem lsEntry_eq {e : FsEntry} {node : Node} (h : Describes e (cstr e.name) node) : lsEntry e = lsLine (cstr e.name, node) := by
  have hsize : uitoa e.size 10 = numeral 10 node.size := by rw [numeral_uitoa, h.size_eq]
  have hlen : strlen (numeral 10 node.size) = (numeral 10 node.size).length := by
    rw [strlen_eq, cstr_of_notMem (zero_notMem_numeral (by decide) (by decide) _)]
  rw [lsEntry, lsLine, hsize, hlen, h.type_eq]
  congr 1
  cases node with
  | dir => rw [if_neg (show Node.dir.type ≠ fsTypeFile by decide), if_pos (show Node.dir.type = fsTypeDir from rfl), if_pos rfl]
  | file bytes => rw [if_pos (show (Node.file bytes).type = fsTypeFile from rfl), if_neg Node.noConfusion]

theorem mem_listed {m : NameMap} {es : List FsEntry} (hlen : es.length = m.names.card)
    (hnodup : (es.map fun e => cstr e.name).Nodup) (hes : ∀ e ∈ es, ∃ node, m.find (cstr e.name) = some node) {name : List UInt8} :
    name ∈ es.map (fun e => cstr e.name) ↔ name ∈ m.names := by
  have hsub : (es.map fun e => cstr e.name).toFinset ⊆ m.names := by
    intro name hname
    obtain ⟨e,he,rfl⟩ := List.mem_map.mp (List.mem_toFinset.mp hname)
    obtain ⟨node,hfind⟩ := hes e he
    exact NameMap.mem_names.mpr (by rw [hfind]; exact Option.some_ne_none node)
  have hcard : m.names.card ≤ (es.map fun e => cstr e.name).toFinset.card := by
    rw [List.toFinset_card_of_nodup hnodup, List.length_map, hlen]
  rw [← List.mem_toFinset, Finset.eq_of_subset_of_card_le hsub hcard]

include hc

theorem cmdLs_refines (args : List UInt8) : Refines r s (.ls args) (cmdLs dev s) := by
  obtain ⟨hv,-,es,hes,hlen,hnodup,hall⟩ := r.list_refines s hc.sound fsMaxEntries
  have hcard : (r.volume s).nodes.names.card ≤ 32 := by
    rw [Volume.card_names hc.dir, Volume.liveEntries_eq, List.length_map]
    exact (List.length_filter_le ..).trans_eq List.length_range
  replace hlen := hlen.trans (Nat.min_eq_right hcard)
  injection hes with hes
  have hfind : ∀ e ∈ es, ∃ node, (r.volume s).nodes.find (cstr e.name) = some node :=
    fun e he => (hall e he).imp fun _ h => h.1
  let node (name : List UInt8) : Node := ((r.volume s).nodes.find name).getD .dir
  have hnode : ∀ e ∈ es, (r.volume s).nodes.find (cstr e.name) = some (node (cstr e.name)) := by
    intro e he
    obtain ⟨n,hn⟩ := hfind e he
    rw [hn, show node (cstr e.name) = n by simp only [node, hn, Option.getD_some]]
  have hlines : es.flatMap lsEntry = (es.map fun e => (cstr e.name, node (cstr e.name))).flatMap lsLine := by
    rw [List.flatMap_map]
    refine List.flatMap_congr fun e he => lsEntry_eq ?_
    obtain ⟨n,hn,hd⟩ := hall e he
    rwa [← Option.some.inj (hn.symm.trans (hnode e he))]
  have hcmd : cmdLs dev s = (if es.length = 0 then [say "  (empty)\n"]
      else es.flatMap lsEntry ++ [say "  ", .print (uitoa (UInt32.ofNat es.length) 10), say " entries\n"],
      (fsList dev fsMaxEntries s).2) := by
    rw [cmdLs, ← hes]
    dsimp only
    split <;> rfl
  rw [hcmd]
  change r.volume (fsList dev fsMaxEntries s).2 = _ at hv
  refine ⟨hv.symm ▸ hc,fun log => ?_⟩
  dsimp only
  rw [hv]
  refine ⟨rfl,es.map fun e => (cstr e.name, node (cstr e.name)),?_,?_,fun name n => ?_⟩
  · have hcount : uitoa (UInt32.ofNat es.length) 10 = numeral 10 es.length := by
      rw [numeral_uitoa, UInt32.toNat_ofNat', Nat.mod_eq_of_lt (by omega)]
    rw [hlines, hcount, listing, List.length_map]
    rcases eq_or_ne es [] with rfl | hne
    · rfl
    · rw [if_neg (fun h => hne (List.length_eq_zero_iff.mp h)), if_neg (fun h => hne (List.map_eq_nil_iff.mp h))]
  · rw [List.map_map]
    exact hnodup
  · rw [List.mem_map]
    constructor
    · rintro ⟨e,he,heq⟩
      cases heq
      exact hnode e he
    · intro hn
      have hmem : name ∈ (r.volume s).nodes.names := NameMap.mem_names.mpr (by rw [hn]; exact Option.some_ne_none n)
      obtain ⟨e,he,rfl⟩ := List.mem_map.mp ((mem_listed hlen hnodup hfind).mpr hmem)
      exact ⟨e,he,by rw [Option.some.inj (hn.symm.trans (hnode e he))]⟩

theorem cmdCat_refines {args : List UInt8} (h0 : 0 ∉ args) : Refines r s (.cat args) (cmdCat dev args s) := by
  unfold cmdCat
  split
  · rename_i hnil
    exact ⟨hc,fun log => ⟨rfl,by rw [if_pos hnil]⟩⟩
  rename_i hne
  obtain ⟨hv,-,hspec⟩ := r.read_refines s hc.sound args 4095
  rw [cstr_of_notMem h0] at hspec
  rcases hread : fsReadFile dev args 4095 s with ⟨result,s'⟩
  rw [exec, hread] at hv hspec
  dsimp only at hv hspec ⊢
  generalize result.bytes = bytes at hspec
  have hc' : Consistent dev.totalBlocks (r.volume s') := hv.symm ▸ hc
  have hworld : ∀ log, (⟨(r.volume s').nodes,log⟩ : World) = ⟨(r.volume s).nodes,log⟩ := fun log => by rw [hv]
  split at hspec
  · rename_i bytes hfind
    injection hspec with hspec
    subst hspec
    refine ⟨hc',fun log => ⟨hworld log,?_⟩⟩
    rw [if_neg hne, hfind]
    rfl
  · rename_i hnofile
    injection hspec with hspec
    subst hspec
    refine ⟨hc',fun log => ⟨hworld log,?_⟩⟩
    rw [if_neg hne]
    split
    · rename_i hfile
      exact absurd hfile (hnofile _)
    · rfl

theorem cmdWrite_refines {args : List UInt8} (h0 : 0 ∉ args) (hlen : args.length < 2 ^ 24) :
    Refines r s (.write args) (cmdWrite dev args s) := by
  have hname : (wordLength args = 0 ∨ 23 < wordLength args) ↔ (firstWord args = [] ∨ 23 < (firstWord args).length) := by
    rw [wordLength_eq, List.length_eq_zero_iff]
  have hstrlen : strlen (skipSpaces (skipWord args)) = (skipSpaces (skipWord args)).length := by
    rw [strlen_eq, cstr_of_notMem (notMem_rest h0)]
  unfold cmdWrite
  split
  · rename_i hnil
    exact ⟨hc,fun log => ⟨rfl,by rw [if_pos hnil]; exact ⟨rfl,rfl⟩⟩⟩
  rename_i hne
  dsimp only
  split
  · rename_i hbad
    refine ⟨hc,fun log => ⟨rfl,?_⟩⟩
    rw [if_neg hne, if_pos (hname.mp hbad)]
    exact ⟨rfl,rfl⟩
  rename_i hok
  split
  · rename_i hnone
    refine ⟨hc,fun log => ⟨rfl,?_⟩⟩
    rw [if_neg hne, if_neg (fun h => hok (hname.mpr h)), if_pos hnone]
    exact ⟨rfl,rfl⟩
  rename_i htext
  obtain ⟨saved,s',hsave,hc',hspec⟩ := save_refines r hc (notMem_firstWord h0)
    (Nat.lt_of_le_of_lt (length_rest_le args) hlen)
  rw [hstrlen, copied_word h0, hsave]
  refine ⟨hc',fun log => ⟨rfl,?_⟩⟩
  rw [if_neg hne, if_neg (fun h => hok (hname.mpr h)), if_neg htext]
  exact ⟨saved,hspec,rfl⟩

theorem cmdMkdir_refines {args : List UInt8} (h0 : 0 ∉ args) : Refines r s (.mkdir args) (cmdMkdir dev args s) := by
  unfold cmdMkdir
  split
  · rename_i hnil
    exact ⟨hc,fun log => ⟨rfl,by rw [if_pos hnil]; exact ⟨rfl,rfl⟩⟩⟩
  rename_i hne
  obtain ⟨s',hc',⟨haccepts,hcreate,hnodes⟩ | ⟨hrefuses,hcreate,hnodes⟩⟩ := fsCreate_cases r hc h0 fsTypeDir
  · rw [hcreate]
    refine ⟨hc',fun log => ⟨rfl,?_⟩⟩
    rw [if_neg hne]
    exact .inl ⟨haccepts,hnodes,rfl⟩
  · rw [hcreate]
    refine ⟨hc',fun log => ⟨rfl,?_⟩⟩
    rw [if_neg hne]
    exact .inr ⟨hrefuses,hnodes,rfl⟩

theorem cmdRm_refines {args : List UInt8} (h0 : 0 ∉ args) : Refines r s (.rm args) (cmdRm dev args s) := by
  unfold cmdRm
  split
  · rename_i hnil
    exact ⟨hc,fun log => ⟨rfl,by rw [if_pos hnil]; exact ⟨rfl,rfl⟩⟩⟩
  rename_i hne
  obtain ⟨hc',hspec⟩ := r.delete_refines s hc args
  rcases hdelete : fsDelete dev args s with ⟨code,s'⟩
  rw [exec, hdelete] at hc' hspec
  dsimp only at hc' hspec
  simp only [MapSpec, cstr_of_notMem h0] at hspec
  split at hspec
  · rename_i hfind
    obtain ⟨hcode,hnodes⟩ := hspec
    injection hcode with hcode
    subst hcode
    refine ⟨hc',fun log => ⟨rfl,?_⟩⟩
    rw [if_neg hne, hfind]
    exact ⟨rfl,hnodes⟩
  · rename_i node hfind
    obtain ⟨hcode,hnodes⟩ := hspec
    injection hcode with hcode
    subst hcode
    refine ⟨hc',fun log => ⟨rfl,?_⟩⟩
    rw [if_neg hne, hfind]
    exact ⟨rfl,hnodes⟩

end

/-- What `klog_flush_to_file` does with its text is what `write` does. -/
theorem saveText_eq {σ : Type} (dev : BlockDevice σ) (filename text : List UInt8) (s : FsState σ) :
    saveText dev filename text s = (if (save dev filename text (UInt32.ofNat text.length) s).1 = .written then 0 else -1,
      (save dev filename text (UInt32.ofNat text.length) s).2) := by
  unfold saveText save
  rcases fsStat dev filename s with ⟨_ | e,s₁⟩
  · dsimp only
    split
    · rfl
    split
    · rfl
    · rfl
  · dsimp only
    split
    · rfl
    · rfl

theorem strcmp_ascii {args : List UInt8} (h0 : 0 ∉ args) (text : String) (ht : 0 ∉ ascii text) (hne : ascii text ≠ []) :
    (args ≠ [] ∧ strcmp args (ascii text) = 0) ↔ args = ascii text := by
  rw [strcmp_eq_zero_iff, cstr_of_notMem h0, cstr_of_notMem ht]
  refine ⟨fun h => h.2,fun h => ⟨?_,h⟩⟩
  rw [h]
  exact hne

theorem klogClear_text (k : Klog) :
    klogClear k = .ok (⟨fun _ => blankEntry,0,0,0⟩,ascii "[INFO]  Log buffer cleared\n") := by
  rw [klogClear, kprintf_lits (by decide +kernel)]
  rfl

theorem cmdDmesg_refines {σ : Type} {dev : BlockDevice σ} (r : Reliable dev) {s : FsState σ}
    (hc : Consistent dev.totalBlocks (r.volume s)) (log : Klog) {args : List UInt8} (h0 : 0 ∉ args) :
    ∃ out log' s', cmdDmesg dev args log s = .ok (out, log', s') ∧ Consistent dev.totalBlocks (r.volume s') ∧
      CommandSpec ⟨(r.volume s).nodes,log⟩ (.dmesg args) out ⟨(r.volume s').nodes,log'⟩ := by
  have hsave := strcmp_ascii h0 "save" (by decide +kernel) (by decide +kernel)
  have hclear := strcmp_ascii h0 "clear" (by decide +kernel) (by decide +kernel)
  unfold cmdDmesg
  simp only [hsave, hclear]
  split
  · rename_i hargs
    subst hargs
    by_cases hheld : held log = []
    · have hflush : klogFlushToFile dev log (some (ascii "klog.txt")) s = (0, s) := if_pos ((held_eq_nil log).mp hheld)
      rw [hflush]
      refine ⟨_,_,s,rfl,hc,?_⟩
      rw [CommandSpec, if_pos rfl, if_pos hheld]
      exact ⟨rfl,rfl,rfl⟩
    · have hflush : klogFlushToFile dev log (some (ascii "klog.txt")) s = saveText dev (ascii "klog.txt") (klogFlush log).1 s :=
        if_neg fun h => hheld ((held_eq_nil log).mpr h)
      obtain ⟨saved,s',hsaved,hc',hspec⟩ := save_refines r hc (show 0 ∉ ascii "klog.txt" by decide +kernel)
        (Nat.lt_of_le_of_lt (closed_klogFlush hheld).length_le (by decide))
      rw [hflush, saveText_eq, hsaved]
      refine ⟨_,_,s',rfl,hc',?_⟩
      rw [CommandSpec, if_pos rfl, if_neg hheld]
      refine ⟨rfl,saved,hspec,?_⟩
      dsimp only
      by_cases hw : saved = .written
      · rw [if_pos hw, if_pos rfl, if_pos hw]
      · rw [if_neg hw, if_neg (by decide), if_neg hw]
  · rename_i hnsave
    split
    · rename_i hargs
      rw [klogClear_text]
      refine ⟨_,_,s,rfl,hc,?_⟩
      rw [CommandSpec, if_neg hnsave, if_pos hargs]
      exact ⟨rfl,(held_eq_nil _).mpr rfl,rfl⟩
    · rename_i hnclear
      rw [klogDump_eq]
      refine ⟨_,_,s,rfl,hc,?_⟩
      rw [CommandSpec, if_neg hnsave, if_neg hnclear]
      exact ⟨rfl,rfl⟩

section
variable {σ τ : Type} {dev : BlockDevice σ} (r : Reliable dev) {others : Others σ τ}

/-- The kernel as its user sees it. -/
def world (k : Kernel σ τ) : World := ⟨(r.volume k.fs).nodes,k.log⟩

/-- What starts programs leaves the file system consistent. -/
def Others.Sound (others : Others σ τ) : Prop :=
  ∀ c k, Consistent dev.totalBlocks (r.volume k.fs) → Consistent dev.totalBlocks (r.volume (others.start c k).2.fs)

theorem execute_refines (hothers : others.Sound r) {k : Kernel σ τ} (hc : Consistent dev.totalBlocks (r.volume k.fs))
    (c : Command) (h0 : 0 ∉ c.args) (hlen : c.args.length < 2 ^ 24) :
    Consistent dev.totalBlocks (r.volume (execute dev others k c).2.fs) ∧
      CommandSpec (world r k) c (execute dev others k c).1 (world r (execute dev others k c).2) := by
  have hfs : ∀ {cmd : FsState σ → List Output × FsState σ}, Refines r k.fs c (cmd k.fs) →
      Consistent dev.totalBlocks (r.volume (k.onFs cmd).2.fs) ∧
        CommandSpec (world r k) c (k.onFs cmd).1 (world r (k.onFs cmd).2) := fun h => ⟨h.1,h.2 k.log⟩
  cases c with
  | help => exact ⟨hc,rfl,rfl⟩
  | clear => exact ⟨hc,rfl,rfl⟩
  | echo args => exact ⟨hc,ite_not ..,rfl⟩
  | color args => exact ⟨hc,cmdColor_eq h0,rfl⟩
  | unknown cmd => exact ⟨hc,rfl,rfl⟩
  | mem => exact ⟨hc,rfl⟩
  | pmem => exact ⟨hc,rfl⟩
  | uptime => exact ⟨hc,rfl⟩
  | pagedir => exact ⟨hc,rfl⟩
  | disk => exact ⟨hc,rfl⟩
  | ls args => exact hfs (cmdLs_refines r hc args)
  | cat args => exact hfs (cmdCat_refines r hc h0)
  | write args => exact hfs (cmdWrite_refines r hc h0 hlen)
  | mkdir args => exact hfs (cmdMkdir_refines r hc h0)
  | rm args => exact hfs (cmdRm_refines r hc h0)
  | dmesg args =>
    obtain ⟨out,log,s',hcmd,hc',hspec⟩ := cmdDmesg_refines r hc k.log (show 0 ∉ args from h0)
    rw [execute, hcmd]
    exact ⟨hc',hspec⟩
  | exec args => exact ⟨hothers _ k hc,trivial⟩
  | tasktest => exact ⟨hothers _ k hc,trivial⟩
  | usertest => exact ⟨hothers _ k hc,trivial⟩
  | addrtest => exact ⟨hothers _ k hc,trivial⟩
  | elftest => exact ⟨hothers _ k hc,trivial⟩

end

/-! ## Keys -/

structure Desk where
  line : List UInt8
  world : World

/-- The effect and the output of one key. -/
def KeySpec (d : Desk) (c : UInt8) (out : List Output) (d' : Desk) : Prop :=
  if c = 0x0A then
    ∃ body, out = [.print [0x0A]] ++ body ++ [.print ['>'.toUInt8, ' '.toUInt8]] ∧ d'.line = [] ∧
      match commandOf (cstr d.line) with
      | none => body = [] ∧ d'.world = d.world
      | some cmd => CommandSpec d.world cmd body d'.world
  else
    d' = ⟨edit d.line c,d.world⟩ ∧
      out = if c = 0x08 then (if d.line = [] then [] else [.backspace])
        else if d.line.length < 255 then [.print (cstr [c])] else []

def typed (st : State) : List UInt8 := (List.range st.bufferPos).map st.commandBuffer

theorem Holds.typed_eq {st : State} {line : List UInt8} (h : Holds st line) : typed st = line := by
  rw [typed, h.pos, h.chars]

theorem commandTable_args : ∀ x ∈ commandTable, ∀ a, (x.2 a).args = [] ∨ (x.2 a).args = a := by
  simp [commandTable, Command.args]

theorem shellExecute_args {line : List UInt8} {c : Command} (h : shellExecute line = some c) : c.args.Sublist line := by
  have hcmd : (skipSpaces line).Sublist line := List.dropWhile_sublist _
  unfold shellExecute at h
  split at h
  · cases h
  rename_i ch rest hskip
  rw [hskip] at hcmd
  dsimp only at h
  have hrest : (skipSpaces (skipWord (ch :: rest))).Sublist line :=
    ((List.dropWhile_sublist _).trans (List.dropWhile_sublist _)).trans hcmd
  split at h
  · rename_i x hfind
    cases h
    rcases commandTable_args x (List.mem_of_find?_eq_some hfind) (skipSpaces (skipWord (ch :: rest))) with hargs | hargs
    · rw [hargs]
      exact List.nil_sublist _
    · rwa [hargs]
  · cases h
    exact hcmd

theorem holds_nil (buffer : ℕ → UInt8) : Holds ⟨Function.update buffer 0 0,0⟩ [] := ⟨rfl,Nat.zero_le _,rfl,rfl⟩

theorem shellInput_edit {st : State} {line : List UInt8} (h : Holds st line) {c : UInt8} (hc : c ≠ 0x0A) :
    Holds (shellInput st c).shell (edit line c) ∧
      ((shellInput st c).before ++ (shellInput st c).after).map Echo.output =
        if c = 0x08 then (if line = [] then [] else [.backspace])
        else if line.length < 255 then [.print (cstr [c])] else [] := by
  have hpos := h.pos
  unfold shellInput edit
  by_cases hback : c = 0x08
  · simp only [if_pos hback]
    rcases List.eq_nil_or_concat line with rfl | ⟨front,x,rfl⟩
    · rw [if_neg (by rw [hpos]; exact Nat.lt_irrefl 0)]
      exact ⟨h,rfl⟩
    · rw [List.concat_eq_append] at *
      rw [List.length_append, List.length_singleton] at hpos
      rw [if_pos (by omega), hpos, Nat.add_sub_cancel, List.dropLast_concat, if_neg (by simp)]
      exact ⟨h.pop,rfl⟩
  · simp only [if_neg hback, if_neg hc]
    by_cases hroom : line.length < 255
    · rw [if_pos (show st.bufferPos < shellBufferSize - 1 by rw [hpos]; exact hroom), if_pos hroom, if_pos hroom, hpos]
      exact ⟨h.push hroom c,rfl⟩
    · rw [if_neg (show ¬st.bufferPos < shellBufferSize - 1 by rw [hpos]; exact hroom), if_neg hroom, if_neg hroom]
      exact ⟨h,rfl⟩

section
variable {σ τ : Type} {dev : BlockDevice σ} (r : Reliable dev) {others : Others σ τ}

def desk (t : Terminal σ τ) : Desk := ⟨typed t.shell,world r t.kernel⟩

structure Ready (t : Terminal σ τ) : Prop where
  holds : Holds t.shell (typed t.shell)
  consistent : Consistent dev.totalBlocks (r.volume t.kernel.fs)

theorem runLine_refines (hothers : others.Sound r) {k : Kernel σ τ} (hc : Consistent dev.totalBlocks (r.volume k.fs))
    {line : List UInt8} (h0 : 0 ∉ line) (hlen : line.length ≤ 255) :
    Consistent dev.totalBlocks (r.volume (runLine dev others line k).2.fs) ∧
      match commandOf line with
      | none => (runLine dev others line k).1 = [] ∧ world r (runLine dev others line k).2 = world r k
      | some cmd => CommandSpec (world r k) cmd (runLine dev others line k).1 (world r (runLine dev others line k).2) := by
  unfold runLine
  rw [← shellExecute_eq h0]
  cases hcmd : shellExecute line with
  | none => exact ⟨hc,rfl,rfl⟩
  | some c =>
    have hargs := shellExecute_args hcmd
    exact execute_refines r hothers hc c (fun h => h0 (hargs.subset h))
      (Nat.lt_of_le_of_lt (hargs.length_le.trans hlen) (by decide))

theorem pressKey_enter (hothers : others.Sound r) {t : Terminal σ τ} (h : Ready r t) :
    Ready r (pressKey dev others 0x0A t).2 ∧
      KeySpec (desk r t) 0x0A (pressKey dev others 0x0A t).1 (desk r (pressKey dev others 0x0A t).2) := by
  have hline := shellInput_line t.shell 0x0A
  have hinput : shellInput t.shell 0x0A = ⟨[.print [0x0A]],(shellInput t.shell 0x0A).line,[.print ['>'.toUInt8, ' '.toUInt8]],
      ⟨Function.update (Function.update t.shell.commandBuffer t.shell.bufferPos 0) 0 0,0⟩⟩ := by
    simp only [shellInput]
    rfl
  rw [hinput] at hline
  unfold pressKey
  rw [hinput]
  dsimp only at hline ⊢
  rcases Nat.eq_zero_or_pos t.shell.bufferPos with hpos | hpos
  · have hnil : typed t.shell = [] := by rw [typed, hpos]; rfl
    rw [hline, if_neg (fun h => absurd hpos h.2.ne')]
    refine ⟨⟨holds_nil _,h.consistent⟩,?_⟩
    rw [KeySpec, if_pos rfl]
    refine ⟨[],rfl,rfl,?_⟩
    rw [show (desk r t).line = [] from hnil]
    exact ⟨rfl,rfl⟩
  · rw [hline, if_pos ⟨rfl,hpos⟩]
    have hlen : t.shell.line.length ≤ 255 := by
      have hle := (cstr_prefix_self (typed t.shell)).length_le
      have hmax := h.holds.le
      exact hle.trans hmax
    obtain ⟨hc,hspec⟩ := runLine_refines r hothers h.consistent (zero_notMem_cstr _) hlen
    refine ⟨⟨holds_nil _,hc⟩,?_⟩
    rw [KeySpec, if_pos rfl]
    exact ⟨_,rfl,rfl,hspec⟩

theorem pressKey_edit {t : Terminal σ τ} (h : Ready r t) {c : UInt8} (hc : c ≠ 0x0A) :
    Ready r (pressKey dev others c t).2 ∧
      KeySpec (desk r t) c (pressKey dev others c t).1 (desk r (pressKey dev others c t).2) := by
  have hline : (shellInput t.shell c).line = none := by rw [shellInput_line, if_neg (fun h => hc h.1)]
  obtain ⟨hholds,hout⟩ := shellInput_edit h.holds hc
  unfold pressKey
  dsimp only
  rw [hline]
  dsimp only
  refine ⟨⟨hholds.typed_eq.symm ▸ hholds,h.consistent⟩,?_⟩
  rw [KeySpec, if_neg hc, List.append_nil, ← List.map_append, hout]
  refine ⟨?_,rfl⟩
  rw [desk, hholds.typed_eq]
  rfl

/-- **The shell is the terminal**: from the first mount of an unformatted device on, whatever is typed. -/
theorem terminal_refines (h4 : 4 ≤ dev.totalBlocks.toNat) {s : FsState σ} (hu : r.Unformatted s) (hothers : others.Sound r) :
    ∃ s₀, fsInit dev s = (0, s₀) ∧ ∀ (st : State) (log : Klog) (rest : τ) (keys : List UInt8),
      Machine.Allowed KeySpec ⟨[],⟨NameMap.empty,log⟩⟩ keys
        (Machine.run (pressKey dev others) keys ⟨shellInit st,⟨s₀,log,rest⟩⟩).1
        (desk r (Machine.run (pressKey dev others) keys ⟨shellInit st,⟨s₀,log,rest⟩⟩).2) := by
  obtain ⟨s₀,hinit,hc,hempty⟩ := r.fsInit_unformatted s (by omega) hu
  refine ⟨s₀,hinit,fun st log rest keys => ?_⟩
  have hstep : ∀ c (t : Terminal σ τ), Ready r t → Ready r (pressKey dev others c t).2 ∧
      KeySpec (desk r t) c (pressKey dev others c t).1 (desk r (pressKey dev others c t).2) := by
    intro c t h
    by_cases hc : c = 0x0A
    · subst hc
      exact pressKey_enter r hothers h
    · exact pressKey_edit r h hc
  have hready : Ready r (⟨shellInit st,⟨s₀,log,rest⟩⟩ : Terminal σ τ) :=
    ⟨holds_nil st.commandBuffer,hc⟩
  have hdesk : desk r (⟨shellInit st,⟨s₀,log,rest⟩⟩ : Terminal σ τ) = ⟨[],⟨NameMap.empty,log⟩⟩ := by
    rw [desk, world, Reliable.nodes_eq_empty hempty]
    rfl
  rw [← hdesk]
  exact Machine.run_refines (Ready r) (desk r) (fun c t h => (hstep c t h).1) (fun c t h => (hstep c t h).2) keys hready

end

/-- Status commands that print their first line, and a count of the programs that have been started. -/
def countingOthers : Others (ℕ → Block) ℕ where
  report c n := (match c with
    | .mem => [say "\n=== Heap Status ===\n"]
    | .pmem => [say "Physical Memory Manager Status:\n"]
    | .uptime => [say "System uptime: ", say "0d 0h 0m 0s", say "\n"]
    | .pagedir => [say "Paging: not initialized\n"]
    | .disk => [say "ATA Primary Master: ", say "not detected\n"]
    | _ => [], n)
  start _ k := ([say "[ELF] Spawned task\n"], { k with rest := k.rest + 1 })

theorem terminal_refines_blank : ∃ s₀, fsInit (ramDevice 8) blankState = (0, s₀) ∧
    ∀ (st : State) (log : Klog) (rest : ℕ) (keys : List UInt8),
      Machine.Allowed KeySpec ⟨[],⟨NameMap.empty,log⟩⟩ keys
        (Machine.run (pressKey (ramDevice 8) countingOthers) keys ⟨shellInit st,⟨s₀,log,rest⟩⟩).1
        (desk (ramReliable 8) (Machine.run (pressKey (ramDevice 8) countingOthers) keys ⟨shellInit st,⟨s₀,log,rest⟩⟩).2) :=
  terminal_refines (ramReliable 8) (by decide) (blank_unformatted 8) fun _ _ h => h

end ApPa.Shell

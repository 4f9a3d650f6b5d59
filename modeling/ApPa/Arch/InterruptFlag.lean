import ApPa.Drivers.Keyboard
import ApPa.Lib.Masking
import ApPa.System.Startup

/-! # The interrupt flag in the reaper and in interrupt handlers

Where the kernel executes `cli` and `sti`. `sched_add_task` and `sched_remove_task` end with
`sti` whatever the flag was when they were called, so the reaper and the keyboard handler go
on with interrupts enabled after the first call.
-/
namespace ApPa.Arch
open ByteMem Drivers Exec Fs Klibc Masking Memory Shell System Tasks

/-! ## The reaper -/

/-- What `task_reap` does to memory management and to the pool. -/
inductive Update where
  | freePage (addr : ℕ)
  | freeDirectory (dir : ℕ)
  | unmapPage (addr : ℕ)
  | clearTcb (i : Fin 64)
  deriving DecidableEq, Repr

/-- `sched_remove_task`; each of its ways out of the search ends with `sti`. -/
def schedRemoveSteps (k : Kernel) (task : TaskRef) : List (Step Update) :=
  match k.readyHead with
  | none => []
  | some _ =>
    if task = .boot then []
    else .prim .cli :: if (schedRemoveTask k task).isSome then [.prim .sti] else []

def releaseUpdates (t : Task) (i : Fin 64) : List Update :=
  .freePage t.kernelStack ::
    (if t.pageDir ≠ 0 then [.freeDirectory t.pageDir]
      else if t.userStack ≠ 0 then [.unmapPage t.userStack, .freePage t.userStack]
      else []) ++ [.clearTcb i]

/-- A slot that the reaper clears. -/
def Reapable (k : Kernel) (i : Fin 64) : Prop :=
  (k.tasks (.slot i)).state = .dead ∧ (k.tasks (.slot i)).kernelStack ≠ 0

instance (k : Kernel) (i : Fin 64) : Decidable (Reapable k i) := inferInstanceAs (Decidable (_ ∧ _))

/-- One turn of the loop of `task_reap`. -/
def reapSlotSteps (k : Kernel) (i : Fin 64) : List (Step Update) :=
  if Reapable k i then
    schedRemoveSteps k (.slot i) ++ (releaseUpdates (k.tasks (.slot i)) i).map fun u => .prim (.update u)
  else []

/-- The loop over the remaining slots, and the `sti` behind it. -/
def reapSteps : List (Fin 64) → Kernel → List (Step Update)
  | [], _ => [.prim .sti]
  | i :: slots, k =>
    match reapSlot k i with
    | none => schedRemoveSteps k (.slot i)
    | some k' => reapSlotSteps k i ++ reapSteps slots k'

def taskReapSteps (k : Kernel) : List (Step Update) := .prim .cli :: reapSteps (List.finRange 64) k

section
variable {k k' : Kernel} {i : Fin 64}

theorem updates_map (b : Bool) (us : List Update) :
    updates b (us.map fun u => .prim (.update u)) = us.map fun u => (u, b) := by
  induction us with
  | nil => rfl
  | cons u us ih => exact congrArg _ ih

theorem flag_map (b : Bool) (us : List Update) : flag b (us.map fun u => .prim (.update u)) = b := by
  induction us with
  | nil => rfl
  | cons u us ih => exact ih

theorem reapSlot_skipped (h : ¬Reapable k i) : reapSlot k i = some k := if_neg h

/-- With no queue there is nothing to unlink, and no `sti` to come from it. -/
theorem reapSlot_unqueued (hhead : k.readyHead = none) : ∃ k', reapSlot k i = some k' ∧ k'.readyHead = none ∧
    flag false (reapSlotSteps k i) = false ∧ ∀ x ∈ updates false (reapSlotSteps k i), x.2 = false := by
  by_cases hi : Reapable k i
  · have hrem : schedRemoveTask k (.slot i) = some k := by
      rw [schedRemoveTask, hhead]
    have hsteps : schedRemoveSteps k (.slot i) = [] := by
      rw [schedRemoveSteps, hhead]
    refine ⟨dropTcb { k with phys := releaseTask k (k.tasks (.slot i)) } i,?_,hhead,?_,fun x hx => ?_⟩
    · exact (if_pos hi).trans (by rw [hrem]; rfl)
    · rw [reapSlotSteps, if_pos hi, hsteps, List.nil_append, flag_map]
    · rw [reapSlotSteps, if_pos hi, hsteps, List.nil_append, updates_map] at hx
      obtain ⟨u,_,rfl⟩ := List.mem_map.mp hx
      rfl
  · refine ⟨k,reapSlot_skipped hi,hhead,?_,fun x hx => ?_⟩
    · rw [reapSlotSteps, if_neg hi]
      rfl
    · rw [reapSlotSteps, if_neg hi] at hx
      cases hx

theorem reapSlot_queued {head : TaskRef} (hhead : k.readyHead = some head) (hi : Reapable k i)
    (hk : reapSlot k i = some k') (b : Bool) :
    (.freePage (k.tasks (.slot i)).kernelStack, true) ∈ updates b (reapSlotSteps k i) := by
  have hsome : (schedRemoveTask k (.slot i)).isSome := by
    replace hk : (schedRemoveTask k (.slot i)).map _ = some k' := (if_pos hi).symm.trans hk
    obtain ⟨k₁,hk₁,_⟩ := Option.map_eq_some_iff.mp hk
    rw [hk₁]
    rfl
  have hsteps : schedRemoveSteps k (.slot i) = [.prim .cli, .prim .sti] := by
    rw [schedRemoveSteps, hhead]
    exact (if_neg TaskRef.noConfusion).trans (by rw [if_pos hsome])
  rw [reapSlotSteps, if_pos hi, hsteps]
  exact List.mem_cons_self

/-- Along the slots that are left, interrupts stay disabled unless a task of the queue is reaped. -/
theorem reapSteps_masked_iff (slots : List (Fin 64)) (k : Kernel) (hk : slots.foldlM reapSlot k = some k') :
    (∀ x ∈ updates false (reapSteps slots k), x.2 = false) ↔ k.readyHead = none ∨ ∀ i ∈ slots, ¬Reapable k i := by
  induction slots generalizing k with
  | nil => exact iff_of_true (fun x hx => absurd hx List.not_mem_nil) (Or.inr fun i hi => absurd hi List.not_mem_nil)
  | cons i slots ih =>
    rw [List.foldlM_cons] at hk
    obtain ⟨k₁,hslot,hrest⟩ := Option.bind_eq_some_iff.mp hk
    have hsteps : reapSteps (i :: slots) k = reapSlotSteps k i ++ reapSteps slots k₁ := by
      rw [reapSteps, hslot]
    rw [hsteps, updates_append]
    cases hhead : k.readyHead with
    | none =>
      obtain ⟨k₂,hk₂,hhead₂,hflag,hupd⟩ := reapSlot_unqueued (i := i) hhead
      cases hslot.symm.trans hk₂
      refine iff_of_true (fun x hx => ?_) (Or.inl rfl)
      rcases List.mem_append.mp hx with hx | hx
      · exact hupd x hx
      · rw [hflag] at hx
        exact (ih k₁ hrest).mpr (Or.inl hhead₂) x hx
    | some head =>
      by_cases hi : Reapable k i
      · have hin := List.mem_append_left (updates (flag false (reapSlotSteps k i)) (reapSteps slots k₁))
          (reapSlot_queued hhead hi hslot false)
        refine iff_of_false (fun h => ?_) ?_
        · cases h _ hin
        · rintro (h | h)
          · cases h
          · exact h i List.mem_cons_self hi
      · cases hslot.symm.trans (reapSlot_skipped hi)
        have hnil : reapSlotSteps k i = [] := if_neg hi
        have hrec := ih k hrest
        rw [hhead] at hrec
        rw [hnil]
        refine hrec.trans (or_congr_right ?_)
        rw [List.forall_mem_cons]
        exact ⟨fun h => ⟨hi,h⟩,fun h => h.2⟩

/-- The reaper works with interrupts disabled when it has nothing to reap or there is no queue. -/
theorem taskReap_masked_iff (hk : taskReap k = some k') :
    (∀ b, ∀ x ∈ updates b (taskReapSteps k), x.2 = false) ↔ k.readyHead = none ∨ ∀ i, ¬Reapable k i := by
  have hloop := reapSteps_masked_iff (List.finRange 64) k hk
  have hall : (∀ i ∈ List.finRange 64, ¬Reapable k i) ↔ ∀ i, ¬Reapable k i :=
    ⟨fun h i => h i (List.mem_finRange i),fun h i _ => h i⟩
  rw [hall] at hloop
  exact ⟨fun h => hloop.mp (h false),fun h b => hloop.mpr h⟩

end

/-! ## Interrupt handlers -/

/-- A call that may create a task, and the machine after it. -/
abbrev Creator (δ : Type) := Host δ → Option (Option (Fin 64) × Host δ)

/-- What a handler finds: the machine, the buffer of `cmd_exec`, the embedded program and the entries of the tasks of the
self-tests by their names. `others` is what other tasks do while the interrupted one is switched away, `later` what happens
from the first new task on, and `endless` what a call does that never returns. -/
structure IrqEnv (δ : Type) where
  dev : BlockDevice (Mem × δ)
  fuel : ℕ
  img : Image
  host : Host δ
  argBuf : ℕ → UInt8
  hello : List UInt8
  testEntry : List UInt8 → ℕ
  others : List (Burst Update)
  later : List (Step Update)
  endless : List (Step Update)

section
variable {δ : Type} (env : IrqEnv δ)

namespace IrqEnv

/-- A call that does not concern the file system. -/
def onKernel (create : Kernel → Option (Option (Fin 64) × Kernel)) : Creator δ := fun h =>
  (create h.kernel).map fun r => (r.1, { h with kernel := r.2 })

def createKernel (name : List UInt8) : Creator δ := onKernel fun k => taskCreate env.img k (env.testEntry name) name

def createUser (name : List UInt8) : Creator δ := onKernel fun k => taskCreateUser env.img k (env.testEntry name) name

def execHello (taskName : List UInt8) : Creator δ :=
  onKernel fun k => elfExecMem env.img k (some (fileOf env.hello)) env.hello.length (some taskName) none 0

def execFile (filename taskName : List UInt8) (argv : Option (ℕ → Arg)) (argc : ℤ) : Creator δ :=
  elfExec env.dev env.fuel env.img (some filename) (some taskName) argv argc

/-- The calls of a command that may create a task, in their order. A command that gets no task from one of them goes on to the
next; there is no `cli` or `sti` between them. -/
def creators : Command → List (Creator δ)
  | .exec args =>
    match cmdExec env.argBuf args with
    | none => []
    | some call => [env.execFile (call.arg 0).1 (call.arg 0).1 (some call.arg) call.argc]
  | .tasktest => [env.createKernel (ascii "test_a"), env.createKernel (ascii "test_b")]
  | .usertest => [fun h => env.createUser (ascii "u:hello") { h with kernel := schedDisable h.kernel }]
  | .addrtest => [env.createUser (ascii "as:taskA"), env.createUser (ascii "as:taskB")]
  | .elftest =>
    [env.execHello (ascii "elf_mem"),
      fun h =>
        let (_, h) := h.fs (fsCreate env.dev (ascii "hello.elf") fsTypeFile)
        let (_, h) := h.fs (fsWriteFile env.dev (ascii "hello.elf") env.hello (UInt32.ofNat env.hello.length))
        env.execFile (ascii "hello.elf") (ascii "elf_fs") none 0 h,
      env.execFile (ascii "nofile.elf") (ascii "bad") none 0,
      fun h =>
        let (_, h) := h.fs (fsDelete env.dev (ascii "hello.elf"))
        env.execHello (ascii "elf_clean") h]
  | _ => []

end IrqEnv

/-- The first task that one of the calls creates. -/
def firstTask : List (Creator δ) → Creator δ
  | [], h => some (none, h)
  | create :: rest, h =>
    match create h with
    | some (none, h) => firstTask rest h
    | r => r

def IrqEnv.call (c : Command) : Option (Option (Fin 64) × Host δ) := firstTask (env.creators c) env.host

/-- The command of a line. A task is handed out only after `sched_add_task`, which ends with `sti`. -/
def commandSteps (c : Command) : List (Step Update) :=
  match env.call c with
  | some (some _, _) => .prim .cli :: .prim .sti :: env.later
  | some (none, _) => []
  | none => env.endless

def scheduleSteps : List (Step Update) :=
  if !env.host.kernel.schedulerOn then []
  else
    let k := { env.host.kernel with sliceRemaining := env.host.kernel.sliceRemaining - 1 }
    if 0 < k.sliceRemaining then []
    else
      match pickNextReady k with
      | none => []
      | some next => if next = k.current then [] else [.switch env.others]

/-- The handlers that `irq_handler` calls: the timer on 32, the keyboard on 33. -/
def irqHandlerSteps (intNo : UInt32) (kb : Keyboard) (scancode : UInt8) : List (Step Update) :=
  if intNo = 32 then scheduleSteps env
  else if intNo = 33 then
    match (keyboardHandler kb scancode).1.line.bind shellExecute with
    | some c => commandSteps env c
    | none => []
  else []

/-- The command on the typed line creates a task. -/
def Spawns (line : List UInt8) : Prop := ∃ c i h, shellExecute line = some c ∧ env.call c = some (some i, h)

theorem scheduleSteps_quiet : Quiet (scheduleSteps env) := by
  unfold scheduleSteps
  split
  · exact quiet_nil
  dsimp only
  split
  · exact quiet_nil
  split
  · exact quiet_nil
  split
  · exact quiet_nil
  · refine quiet_iff.mpr fun s hs => ?_
    rw [List.mem_singleton.mp hs]
    exact Step.flag_switch env.others

theorem commandSteps_quiet_iff {c : Command} (hret : env.call c ≠ none) :
    Quiet (commandSteps env c) ↔ ¬∃ i h, env.call c = some (some i, h) := by
  unfold commandSteps
  split
  · rename_i i h hcall
    refine iff_of_false (not_quiet_of_sti ?_) (not_not.mpr ⟨i,h,hcall⟩)
    exact List.mem_cons_of_mem _ List.mem_cons_self
  · rename_i h hcall
    refine iff_of_true quiet_nil ?_
    rintro ⟨i,h',hcall'⟩
    cases hcall.symm.trans hcall'
  · rename_i hcall
    exact absurd hcall hret

/-- The command that the handler runs returns, if there is one. -/
def Returns (intNo : UInt32) (kb : Keyboard) (scancode : UInt8) : Prop :=
  ∀ c, intNo = 33 → (keyboardHandler kb scancode).1.line.bind shellExecute = some c → env.call c ≠ none

/-- The flag stays clear in a handler unless the Enter key completes a command that creates a task. -/
theorem irqHandler_quiet_iff {intNo : UInt32} {kb : Keyboard} {scancode : UInt8} (hret : Returns env intNo kb scancode) :
    Quiet (irqHandlerSteps env intNo kb scancode) ↔
      ¬(intNo = 33 ∧ scancode = 0x1C ∧ 0 < kb.shell.bufferPos ∧ Spawns env kb.shell.line) := by
  by_cases h33 : intNo = 33
  · subst h33
    have hsteps : irqHandlerSteps env 33 kb scancode =
        match (keyboardHandler kb scancode).1.line.bind shellExecute with
        | some c => commandSteps env c
        | none => [] := rfl
    by_cases hkey : scancode = 0x1C ∧ 0 < kb.shell.bufferPos
    · have hline : (keyboardHandler kb scancode).1.line = some kb.shell.line := by
        rw [keyboardHandler_line, if_pos hkey]
      rw [Returns, hline, Option.bind_some] at hret
      rw [hsteps, hline, Option.bind_some]
      cases hc : shellExecute kb.shell.line with
      | none =>
        refine iff_of_true quiet_nil ?_
        rintro ⟨_,_,_,c,_,_,hcmd,_⟩
        cases hc.symm.trans hcmd
      | some c =>
        rw [commandSteps_quiet_iff env (hret c rfl hc)]
        refine not_congr ⟨fun ⟨i,h,hcall⟩ => ⟨rfl,hkey.1,hkey.2,c,i,h,hc,hcall⟩,?_⟩
        rintro ⟨_,_,_,c',i,h,hcmd,hcall⟩
        cases hc.symm.trans hcmd
        exact ⟨i,h,hcall⟩
    · refine iff_of_true ?_ fun h => hkey ⟨h.2.1,h.2.2.1⟩
      rw [hsteps, keyboardHandler_line, if_neg hkey]
      exact quiet_nil
  · refine iff_of_true ?_ fun h => h33 h.1
    unfold irqHandlerSteps
    split
    · exact scheduleSteps_quiet env
    · exact quiet_nil

/-- The reaper keeps interrupts disabled exactly when it takes no task out of the queue, and a handler that returns exactly
when it does not run a command that creates a task. -/
theorem interrupts_masked_iff {k k' : Kernel} (hk : taskReap k = some k') {intNo : UInt32} {kb : Keyboard} {scancode : UInt8}
    (hret : Returns env intNo kb scancode) :
    ((∀ b, ∀ x ∈ updates b (taskReapSteps k), x.2 = false) ↔ k.readyHead = none ∨ ∀ i, ¬Reapable k i) ∧
    (Quiet (irqHandlerSteps env intNo kb scancode) ↔
      ¬(intNo = 33 ∧ scancode = 0x1C ∧ 0 < kb.shell.bufferPos ∧ Spawns env kb.shell.line)) :=
  ⟨taskReap_masked_iff hk,irqHandler_quiet_iff env hret⟩

theorem IrqEnv.call_exec {env : IrqEnv δ} {live : List (Fin 64)} {args : List UInt8} {t : Option (Fin 64)} {s' : System.State δ}
    (h : act env.dev env.fuel env.img (.exec env.argBuf args) ⟨env.host,live⟩ = some (.task t, s')) :
    ∃ h', env.call (.exec args) = some (t, h') := by
  unfold act at h
  unfold IrqEnv.call IrqEnv.creators
  dsimp only at h ⊢
  cases hcmd : cmdExec env.argBuf args with
  | none =>
    rw [hcmd] at h
    cases h
    exact ⟨_,rfl⟩
  | some call =>
    rw [hcmd] at h
    obtain ⟨⟨t',h'⟩,hexec,heq⟩ := Option.map_eq_some_iff.mp h
    cases heq
    refine ⟨h',?_⟩
    dsimp only [firstTask]
    rw [IrqEnv.execFile, hexec]
    cases t' with
    | none => rfl
    | some i => rfl

end

/-- A dead task in the first slot, behind the boot task. -/
def deadKernel (head : Option TaskRef) : Kernel :=
  { (idleKernel.setTask .boot { Task.zero with state := .running, next := some (.slot 0) }).setTask (.slot 0)
      { Task.zero with state := .dead, kernelStack := 0x1000, next := some .boot } with
    readyHead := head }

def execLine : Keyboard := ⟨false,⟨fun i => (ascii "exec a b").getD i 0,8⟩⟩

theorem execLine_command : shellExecute execLine.shell.line = some (.exec [0x61, 0x20, 0x62]) := by decide +kernel

theorem execLine_returns {δ : Type} {env : IrqEnv δ} (h : env.call (.exec [0x61, 0x20, 0x62]) ≠ none) (scancode : UInt8) :
    Returns env 33 execLine scancode := by
  intro c _ hc
  rw [keyboardHandler_line] at hc
  split at hc
  · rw [Option.bind_some, execLine_command] at hc
    cases hc
    exact h
  · cases hc

/-- A machine that has been started with a slave drive of 64 blocks. -/
def startedEnv (disk : Option Ramdisk) (host : Host PioDisk.Bus) : IrqEnv PioDisk.Bus where
  dev := blkdev readyLines 1 ⟨1⟩ ⟨⟨1⟩,64⟩ disk
  fuel := 0x100001
  img := flatImage
  host := host
  argBuf := fun _ => 0x78
  hello := tinyProgram
  testEntry := fun _ => 0x100000
  others := []
  later := []
  endless := []

theorem boots_started : Boots readyLines 1 ⟨1⟩ ⟨⟨1⟩,64⟩ freshHost.screen coldHost NameMap.empty :=
  boots ⟨1⟩ freshHost.screen (fun _ => rfl) (fun _ => readyLines_responsive)
    (.unformatted (by decide) (by decide) (by decide) (by decide))

/-- A dead task that is not in a queue is released with interrupts disabled, and so is the Enter key handled behind the name of
a program that is not there. -/
theorem interrupts_masked_unqueued : ∃ k' disk host, taskReap (deadKernel none) = some k' ∧
    kernelMain readyLines 1 ⟨1⟩ ⟨⟨1⟩,64⟩ freshHost.screen coldHost = some (disk, host) ∧
    (.freePage 0x1000, false) ∈ updates true (taskReapSteps (deadKernel none)) ∧
      (∀ b, ∀ x ∈ updates b (taskReapSteps (deadKernel none)), x.2 = false) ∧
      Quiet (irqHandlerSteps (startedEnv disk host) 33 execLine 0x1C) := by
  obtain ⟨k',hk⟩ : ∃ k', taskReap (deadKernel none) = some k' := ⟨_,rfl⟩
  obtain ⟨disk,host,hmain,-,-,A,-,horder,hnames⟩ := boots_started
  obtain ⟨t,s',hact,-,-,hstored⟩ := horder.exec (Nat.lt_succ_self _) flatImage (fun _ => 0x78)
    (show 0 ∉ [0x61, 0x20, 0x62] by decide) (by decide)
  have hnone : t = none := by
    by_contra hne
    obtain ⟨w,ws,data,-,hfind,-⟩ := hstored hne
    rw [hnames] at hfind
    cases hfind
  subst hnone
  obtain ⟨h',hcall⟩ : ∃ h', (startedEnv disk host).call (.exec [0x61, 0x20, 0x62]) = some (none, h') :=
    IrqEnv.call_exec hact
  have hret : Returns (startedEnv disk host) 33 execLine 0x1C := execLine_returns (by rw [hcall]; exact Option.some_ne_none _) _
  have h := interrupts_masked_iff _ hk hret
  refine ⟨k',disk,host,hk,hmain,by decide +kernel,h.1.mpr (Or.inl rfl),h.2.mpr ?_⟩
  rintro ⟨-,-,-,c,i,h'',hcmd,hspawn⟩
  cases execLine_command.symm.trans hcmd
  cases hcall.symm.trans hspawn

/-- The stack of a dead task is freed with interrupts enabled, and so does the keyboard handler return from `exec` of a program
that has been stored. -/
theorem interrupts_unmasked :
    (∃ k', taskReap (deadKernel (some .boot)) = some k' ∧
      (.freePage 0x1000, true) ∈ updates true (taskReapSteps (deadKernel (some .boot)))) ∧
    ∃ disk host s, kernelMain readyLines 1 ⟨1⟩ ⟨⟨1⟩,64⟩ freshHost.screen coldHost = some (disk, host) ∧
      Machine.Allowed (Steps (blkdev readyLines 1 ⟨1⟩ ⟨⟨1⟩,64⟩ disk) (diskRegion disk) 0x100001 flatImage) ⟨host,[]⟩
        [.file (.create [0x61] fsTypeFile), .file (.write [0x61] tinyProgram (by decide))]
        [.reply (.status 0), .reply (.status 0)] s ∧
      Returns (startedEnv disk s.host) 33 execLine 0x1C ∧ ¬Quiet (irqHandlerSteps (startedEnv disk s.host) 33 execLine 0x1C) := by
  refine ⟨⟨_,rfl,by decide +kernel⟩,?_⟩
  obtain ⟨disk,host,i,s,s',hmain,hacts,-,-,hact⟩ := boots_starts ⟨1⟩ freshHost.screen boots_started (fun _ => rfl)
    (Nat.lt_succ_self 0x100000) flatImage fun _ => 0x78
  obtain ⟨h',hcall⟩ : ∃ h', (startedEnv disk s.host).call (.exec [0x61, 0x20, 0x62]) = some (some i, h') :=
    IrqEnv.call_exec hact
  have hret : Returns (startedEnv disk s.host) 33 execLine 0x1C :=
    execLine_returns (by rw [hcall]; exact Option.some_ne_none _) _
  refine ⟨disk,host,s,hmain,hacts,hret,?_⟩
  rw [irqHandler_quiet_iff _ hret]
  exact not_not.mpr ⟨rfl,rfl,by decide,_,i,h',execLine_command,hcall⟩

end ApPa.Arch

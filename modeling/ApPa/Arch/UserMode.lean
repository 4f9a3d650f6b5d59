import ApPa.Arch.Stubs
import ApPa.Arch.Syscall
import ApPa.Task.Switch

/-! # In and out of Ring 3

`umode.asm` and the way of a system call from the `INT` of `libc/syscall.c` to the instruction behind it.
-/
namespace ApPa.Arch
open ByteMem Protected Relation WordStack
open Tasks hiding State

section
variable {sym : Symbols} {esp0 : UInt32} {t : Tables}

def enterUsermode : List Instr := [.iret]

theorem outerSeg_kernel (ht : Installed sym esp0 t) : outerSeg t 3 0x10 = 0 := by
  have hdata : t.descriptor 0x10 = some ⟨0,2 ^ 20 - 1,0x92,0xC⟩ := ht.descriptor (by simp [segments])
  unfold outerSeg
  rw [hdata]
  decide

/-- The first entry of a task into Ring 3, from the words that its creation has left on its kernel stack. The data segments
of the kernel do not survive it. -/
theorem run_enterUsermode (ht : Installed sym esp0 t) {s : State} {entry esp : ℕ} {rest : List UInt32}
    (hs : OnStack s (UInt32.ofNat entry :: UInt32.ofNat gdtUserCodeSeg :: 0x202 :: UInt32.ofNat esp ::
      UInt32.ofNat gdtUserDataSeg :: rest))
    (hcs : s.cpu.cs = 0x08) (hseg : ∀ r, s.cpu.seg r = 0x10) (hnt : s.cpu.eflags.toNat.testBit 14 = false) :
    run t enterUsermode s = .ok { s with cpu := { s.cpu with
      eip := UInt32.ofNat entry
      cs := 0x1B
      eflags := 0x202
      esp := UInt32.ofNat esp
      ss := 0x23
      seg := fun _ => 0 } } := by
  have hcode : t.descriptor 0x1B = some ⟨0,2 ^ 20 - 1,0xFA,0xC⟩ := ht.descriptor (by simp [segments])
  have htarget : returnTarget t 0 (UInt32.ofNat gdtUserCodeSeg).toUInt16 = .ok () := by
    change returnTarget t 0 0x1B = .ok ()
    unfold returnTarget
    rw [hcode, if_neg (by decide)]
    dsimp only
    rw [if_neg (by decide), if_neg (by decide)]
  have hcpl : s.cpu.cpl = 0 := by
    rw [Cpu.cpl, hcs]
    decide
  have hiret := iret_outer hcpl hnt (by decide) htarget hs (by decide) (returnStack_user ht)
  have hsegs : (fun r => outerSeg t (rpl (UInt32.ofNat gdtUserCodeSeg).toUInt16) (s.cpu.seg r)) = fun _ => 0 := by
    funext r
    rw [hseg]
    exact outerSeg_kernel ht
  rw [hsegs] at hiret
  exact run_cons hiret

end

/-- A new task starts in Ring 3 at its entry point, on its own stack and with interrupts on. Its data segments are null, as the
processor takes away those of the kernel, and from then on it can be interrupted. -/
theorem enterUsermode_context (sym : Symbols) (gdt : Gdt) (idt : Idt) (esp0 : UInt32) {s : State} {entry esp : ℕ}
    {rest : List UInt32} (hs : OnStack s (UInt32.ofNat entry :: UInt32.ofNat gdtUserCodeSeg :: 0x202 :: UInt32.ofNat esp ::
      UInt32.ofNat gdtUserDataSeg :: rest))
    (hcs : s.cpu.cs = 0x08) (hseg : ∀ r, s.cpu.seg r = 0x10) (hnt : s.cpu.eflags.toNat.testBit 14 = false) :
    let c : Protected.Cpu := ⟨s.cpu.gpr,UInt32.ofNat esp,UInt32.ofNat entry,0x202,0x1B,0x23,fun _ => 0⟩
    run (tables sym gdt idt esp0) enterUsermode s = .ok ⟨c,s.mem⟩ ∧ Context (tables sym gdt idt esp0) c := by
  have hnull : isNull 0 = true := by decide
  refine ⟨run_enterUsermode (tables_installed sym gdt idt esp0) hs hcs hseg hnt,.inr ⟨rfl,rfl⟩,if_pos hnull,fun _ => rfl,?_⟩
  change (0x202 : UInt32).toNat.testBit 17 = false
  decide

/-- What the creation of a user task has left is an `iret` frame behind the words that `task_switch` pops. -/
theorem onStack_userFrame {img : Image} {s : State} {a esp entry : ℕ}
    (h : Holds s.mem a ((userFrame img esp entry).reverse.map UInt32.ofNat)) (hesp : s.cpu.esp.toNat = a + 20)
    (htop : a + 40 < 2 ^ 32) :
    OnStack s [UInt32.ofNat entry, UInt32.ofNat gdtUserCodeSeg, 0x202, UInt32.ofNat esp, UInt32.ofNat gdtUserDataSeg] := by
  have hsplit : (userFrame img esp entry).reverse.map UInt32.ofNat =
      [0, 0, 0, 0, UInt32.ofNat img.enterUsermode] ++
        [UInt32.ofNat entry, UInt32.ofNat gdtUserCodeSeg, 0x202, UInt32.ofNat esp, UInt32.ofNat gdtUserDataSeg] := rfl
  rw [hsplit] at h
  refine ⟨?_,?_⟩
  · rw [hesp]
    exact h.append.2
  · rw [hesp]
    exact htop

/-- The kernel stack of a task that enters at `0x5000`, as its creation has left it. -/
theorem enterUsermode_context_created : ∃ s : State, s.cpu.esp = 0x9FBEC ∧
    Holds s.mem 0x9FBD8 ((userFrame flatImage 0xBFFFF000 0x5000).reverse.map UInt32.ofNat) ∧
    run (tables someSymbols noGdt noIdt 0x9FC00) enterUsermode s =
      .ok ⟨⟨s.cpu.gpr,0xBFFFF000,0x5000,0x202,0x1B,0x23,fun _ => 0⟩,s.mem⟩ := by
  have hnone : Holds (fun _ => 0) 0x9FC00 [] := trivial
  have hroom : 4 * ((userFrame flatImage 0xBFFFF000 0x5000).map UInt32.ofNat).length ≤ 0x9FC00 := by decide
  have hheld := holds_pushes hroom hnone
  rw [List.append_nil, ← List.map_reverse] at hheld
  have hon := onStack_userFrame (s := ⟨⟨fun _ => 7,0x9FBEC,0,2,0x08,0x10,fun _ => 0x10⟩,_⟩) hheld (by decide) (by decide)
  exact ⟨_,rfl,hheld,(enterUsermode_context someSymbols noGdt noIdt 0x9FC00 hon rfl (fun _ => rfl) (by decide)).1⟩

/-- In every run of the scheduler, a user task that is switched to for the first time goes on in Ring 3, at the entry point and
on the stack that it was created with. -/
theorem run_enters {img : Image} {T : TcbMap} {s₀ s s' : Tasks.State} {next : TaskRef} {ret : UInt32} {entry esp : ℕ}
    (h₀ : s₀.Initial T) (hrun : ReflTransGen (Tasks.State.Step img T) s₀ s) (hsw : s.Switches T next ret s')
    (hp : s.pending next = some (.fresh (.user entry esp))) (htop : s.hi next < 2 ^ 32) {sym : Symbols} {esp0 : UInt32}
    {t : Tables} (ht : Installed sym esp0 t) {c : Protected.Cpu} (hesp : c.esp = s'.machine.regs.esp) (hcs : c.cs = 0x08)
    (hseg : ∀ r, c.seg r = 0x10) (hnt : c.eflags.toNat.testBit 14 = false) :
    s'.machine.regs.eip = UInt32.ofNat img.enterUsermode ∧
      run t enterUsermode ⟨c,s'.machine.mem.phys.mem⟩ =
        .ok ⟨⟨c.gpr,UInt32.ofNat esp,UInt32.ofNat entry,0x202,0x1B,0x23,fun _ => 0⟩,s'.machine.mem.phys.mem⟩ := by
  have hinv : s.Inv img T := h₀.inv.run hrun
  have hhigh : (s.machine.mem.tasks next).esp + 40 ≤ s.hi next := (hinv.parked next _ hp).high
  have hheld : Holds s'.machine.mem.phys.mem (s.machine.mem.tasks next).esp
      ((userFrame img esp entry).reverse.map UInt32.ofNat) := by
    refine holds_of_read fun k v hv => ?_
    obtain ⟨hk,rfl⟩ := List.getElem?_eq_some_iff.mp hv
    have hword := congrArg UInt32.toNat (hinv.word_kept hsw hp hk)
    rw [UInt32.toNat_ofNat', Nat.mod_eq_of_lt (read32_lt _ _)] at hword
    exact hword
  have hpop : s'.machine.regs.esp = UInt32.ofNat (s.machine.mem.tasks next).esp + UInt32.ofNat 20 := (hinv.popped hsw).1.esp
  have hat : c.esp.toNat = (s.machine.mem.tasks next).esp + 20 := by
    rw [hesp, hpop, ← UInt32.ofNat_add, UInt32.toNat_ofNat']
    omega
  exact ⟨(hinv.resumes hsw hp).1,run_enterUsermode ht (onStack_userFrame hheld hat (by omega)) hcs hseg hnt⟩

/-! ## System calls -/

def Frame.registers (f : Frame) : Registers := ⟨f.ebx,f.ecx,f.eax,f.intNo,f.errCode,f.cs⟩

def Frame.withRegisters (f : Frame) (regs : Registers) : Frame :=
  { f with ebx := regs.ebx, ecx := regs.ecx, eax := regs.eax, intNo := regs.intNo, errCode := regs.errCode, cs := regs.cs }

theorem syscallDispatcher_returned {env : Env} {fuel : ℕ} {k k' : Kernel} {regs regs' : Registers} {out : List UInt8}
    (h : syscallDispatcher env fuel k regs = .returned k' regs' out) : regs' = { regs with eax := regs'.eax } := by
  have hexit : ∀ k, exitTask k ≠ .returned k' regs' out := by
    intro k
    unfold exitTask
    split <;> simp
  have herror : ∀ handler ∈ syscallTable, ∀ o, handler env fuel k regs = .error o → o ≠ .returned k' regs' out := by
    intro handler hmem o ho
    simp only [syscallTable, List.mem_cons, List.not_mem_nil, or_false] at hmem
    rcases hmem with rfl | rfl | rfl | rfl | rfl | rfl
    · cases ho
      exact hexit k
    · unfold sysWriteHandler at ho
      dsimp only at ho
      split at ho
      · cases ho
      · split at ho
        · cases ho
        · split at ho
          · cases ho
          · cases ho
            unfold pageFaultHandler
            split
            · exact hexit k
            · simp
          · cases ho
            simp
    · unfold sysReadHandler at ho
      split at ho
      · cases ho
      · split at ho <;> cases ho
    · unfold sysYieldHandler at ho
      split at ho
      · cases ho
      · cases ho
        simp
    · cases ho
    · unfold sysSleepHandler at ho
      split at ho
      · cases ho
      · dsimp only at ho
        split at ho
        · cases ho
        · cases ho
          simp
  unfold syscallDispatcher at h
  split at h
  · cases h
    rfl
  · split at h
    · cases h
      rfl
    · rename_i handler hhandler
      split at h
      · cases h
        rfl
      · rename_i o ho
        exact absurd h (herror handler (List.mem_of_getElem? hhandler) o ho)

/-- A system call from Ring 3. The dispatcher gets the registers that the program has called with, and when it returns, the
program goes on behind the `INT` with the value in `eax`, with `ds` in the other data segment registers, and with every
other register as it was. -/
theorem syscall_returns (sym : Symbols) (gdt : Gdt) (idt : Idt) (esp0 : UInt32) (m : Mem) {c : Protected.Cpu}
    (hc : Context (tables sym gdt idt esp0) c) (huser : c.cs = 0x1B) (hroom : 68 ≤ esp0.toNat) :
    let t := tables sym gdt idt esp0
    let f := frameOf esp0 c .syscall
    f.registers = ⟨c.gpr .ebx,c.gpr .ecx,c.gpr .eax,0x80,0,0x1B⟩ ∧
    ∃ s₀ s₁, deliver t 0x80 true none ⟨c,m⟩ = .ok s₀ ∧ s₀.cpu.eip = sym.syscallStub ∧
      run t (syscallStub ++ commonEntry) s₀ = .ok s₁ ∧ Called esp0 c m .syscall s₁ ∧
      ∀ env fuel k k' regs' out s₂, syscallDispatcher env fuel k f.registers = .returned k' regs' out →
        Returned s₁ s₂ ((f.withRegisters regs').words ++ outerWords c) →
        run t commonExit s₂ =
          .ok ⟨{ c with gpr := Function.update c.gpr .eax regs'.eax, seg := fun _ => c.seg .ds },s₂.mem⟩ := by
  intro t f
  have ht : Installed sym esp0 t := tables_installed sym gdt idt esp0
  have hcpl : c.cpl = 3 := congrArg (·.toNat % 4) huser
  have htop : stackTop esp0 c = esp0 := if_neg (by omega)
  rw [← htop] at hroom
  have hcalled := called_stacked sym m .syscall hroom
  refine ⟨?_,_,_,deliver_trap ht hc .syscall hroom,rfl,run_entry ht .syscall hroom,hcalled,?_⟩
  · have hcs : c.cs.toUInt32 = 0x1B := by
      rw [huser]
      decide
    change (⟨_,_,_,_,_,c.cs.toUInt32⟩ : Registers) = _
    rw [hcs]
    rfl
  · intro env fuel k k' regs' out s₂ hdispatch hret
    have hregs := syscallDispatcher_returned hdispatch
    have hframe : f.withRegisters regs' = { f with eax := regs'.eax } := by
      rw [hregs]
      rfl
    rw [hframe] at hret
    exact run_exit ht hc .syscall hcalled hret

/-- A kernel that runs task 3. -/
def taskThree : Kernel := idleKernel.setTask .boot { Task.zero with id := 3, state := .running }

/-- Task 3 asks for its number, and goes on with 3 in `eax`. -/
theorem syscall_returns_getpid : ∃ s₀ s₁ s₂,
    deliver (tables someSymbols noGdt noIdt 0x9FC00) 0x80 true none ⟨userCpu,fun _ => 0⟩ = .ok s₀ ∧ s₀.cpu.eip = 0x2300 ∧
    run (tables someSymbols noGdt noIdt 0x9FC00) (syscallStub ++ commonEntry) s₀ = .ok s₁ ∧
    run (tables someSymbols noGdt noIdt 0x9FC00) commonExit s₂ =
      .ok ⟨{ userCpu with gpr := Function.update userCpu.gpr .eax 3, seg := fun _ => 0x23 },s₂.mem⟩ := by
  obtain ⟨hregs,s₀,s₁,hdeliver,heip,hentry,hcalled,hexit⟩ := syscall_returns someSymbols noGdt noIdt 0x9FC00 (fun _ => 0)
    (context_user (tables_installed someSymbols noGdt noIdt 0x9FC00)) rfl (by decide)
  obtain ⟨s₂,hret⟩ := hcalled.exists_returned
    ({ frameOf 0x9FC00 userCpu .syscall with eax := 3 }.words ++ outerWords userCpu) (by rw [List.length_append]; rfl)
  have hdispatch : syscallDispatcher ⟨fun _ => 0,fun _ _ k => k⟩ 0 taskThree (frameOf 0x9FC00 userCpu .syscall).registers =
      .returned taskThree { (frameOf 0x9FC00 userCpu .syscall).registers with eax := 3 } [] := by
    rw [hregs]
    rfl
  exact ⟨s₀,s₁,s₂,hdeliver,heip,hentry,hexit _ 0 _ _ _ [] s₂ hdispatch hret⟩

end ApPa.Arch

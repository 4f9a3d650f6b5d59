import ApPa.Arch.Syscall
import ApPa.System.Run

/-! # Faults of Ring 3 tasks

`isr_handler` with the handlers that `paging_init` and `syscall_init` register. Only the
general protection fault and the page fault end the task that caused them; every other
exception stops the machine, and so does a system call that reads an absent page.
-/
namespace ApPa.Arch
open Loop Memory ApPa.System Tasks

def exceptionMessages : List String :=
  ["Division By Zero", "Debug", "Non Maskable Interrupt", "Breakpoint", "Overflow", "Bound Range Exceeded",
    "Invalid Opcode", "Device Not Available", "Double Fault", "Coprocessor Segment Overrun", "Invalid TSS",
    "Segment Not Present", "Stack-Segment Fault", "General Protection Fault", "Page Fault", "Reserved",
    "x87 Floating-Point Exception", "Alignment Check", "Machine Check", "SIMD Floating-Point Exception",
    "Virtualization Exception", "Control Protection Exception", "Reserved", "Reserved", "Reserved", "Reserved",
    "Reserved", "Reserved", "Reserved", "VMM Communication Exception", "Security Exception", "Reserved"]

/-- ISR 13. The saved code segment says which ring faulted. -/
def gpfHandler (k : Kernel) (regs : Registers) : Outcome :=
  if regs.cs &&& 0x3 = 3 then exitTask k else .halted "KERNEL GPF"

/-- The entries of `interrupt_handlers` below 32. -/
def interruptHandlers (n : UInt32) : Option (Kernel → Registers → Outcome) :=
  if n = 13 then some gpfHandler
  else if n = 14 then some fun k regs => pageFaultHandler k regs.errCode
  else none

def isrHandler (k : Kernel) (regs : Registers) : Outcome :=
  match interruptHandlers regs.intNo with
  | some handler => handler k regs
  | none => .halted (exceptionMessages.getD regs.intNo.toNat "")

/-- The task runs on, or it alone is dead and another task runs. -/
def Contained (k : Kernel) : Outcome → Prop
  | .returned k' _ _ => k'.current = k.current
  | .killed k' => k'.current ≠ k.current ∧ ∀ r, (k'.tasks r).state = .dead ↔ r = k.current ∨ (k.tasks r).state = .dead
  | .halted _ => False
  | .hung => False

/-- The clock goes on, it is read often enough to be seen going on, and a task that yields
runs again. -/
structure Env.Fair (env : Env) : Prop where
  unbounded : ∀ t, ∃ n, t ≤ env.ticks n
  mono : ∀ n, env.ticks n ≤ env.ticks (n + 1)
  often : ∀ n, env.ticks (n + 1) ≤ env.ticks n + 2 ^ 31
  returns : ∀ n r k live, SchedOk k live → r ∈ members live → (k.tasks r).state ≠ .dead →
    ∃ live', SchedOk (env.resume n r k) live' ∧ (env.resume n r k).current = r ∧
      ((env.resume n r k).tasks r).state ≠ .dead

variable {k k' : Kernel} {live : List (Fin 64)} {env : Env}

/-! ## Ending the task -/

theorem markDead_state (k : Kernel) (r : TaskRef) :
    ((markDead k).tasks r).state = .dead ↔ r = k.current ∨ (k.tasks r).state = .dead := by
  unfold markDead Kernel.setState Kernel.setTask
  by_cases hr : r = k.current
  · simp [hr]
  · simp [hr]

theorem switchTo_state {r x : TaskRef} (hr : Runnable k r) :
    ((switchTo k r).tasks x).state = .dead ↔ (k.tasks x).state = .dead := by
  refine ⟨fun hx => ?_,fun hx => switchTo_dead hr hx⟩
  by_cases hc : r = k.current
  · rwa [show switchTo k r = k from if_pos hc] at hx
  · rw [Queue.switchTo_tasks hc] at hx
    by_cases hxr : x = r
    · rw [if_pos hxr] at hx
      cases hx
    · rw [if_neg hxr] at hx
      by_cases hxc : x = k.current
      · rw [if_pos hxc] at hx
        dsimp only at hx
        split at hx
        · cases hx
        · exact hx
      · rwa [if_neg hxc] at hx

theorem exitTask_contained (hs : SchedOk k live) (hboot : k.current ≠ .boot) : Contained k (exitTask k) := by
  obtain ⟨r,_,hrun,hy⟩ := (hs.markDead_ok hboot).ok.schedYield_spec
  have hne : r ≠ k.current := by
    rintro rfl
    have hdead := (markDead_state k k.current).mpr (Or.inl rfl)
    rcases hrun with hr | hr
    · rw [hdead] at hr
      cases hr
    · rw [hdead] at hr
      cases hr
  rw [exitTask, taskExit, hy]
  refine ⟨?_,fun x => ?_⟩
  · rw [Queue.switchTo_current]
    exact hne
  · rw [switchTo_state hrun, markDead_state]

theorem pageFaultHandler_contained_iff (hs : SchedOk k live) (hboot : k.current ≠ .boot) (errCode : UInt32) :
    Contained k (pageFaultHandler k errCode) ↔ errCode &&& 0x4 ≠ 0 := by
  unfold pageFaultHandler
  by_cases hu : errCode &&& 0x4 ≠ 0
  · rw [if_pos hu]
    exact ⟨fun _ => hu,fun _ => exitTask_contained hs hboot⟩
  · rw [if_neg hu]
    exact ⟨fun h => h.elim,fun h => absurd h hu⟩

theorem isrHandler_contained_iff (hs : SchedOk k live) (hboot : k.current ≠ .boot) {regs : Registers}
    (hcs : regs.cs &&& 0x3 = 3) :
    Contained k (isrHandler k regs) ↔ regs.intNo = 13 ∨ regs.intNo = 14 ∧ regs.errCode &&& 0x4 ≠ 0 := by
  unfold isrHandler interruptHandlers
  by_cases h13 : regs.intNo = 13
  · rw [if_pos h13]
    dsimp only
    rw [gpfHandler, if_pos hcs]
    exact ⟨fun _ => Or.inl h13,fun _ => exitTask_contained hs hboot⟩
  rw [if_neg h13]
  by_cases h14 : regs.intNo = 14
  · rw [if_pos h14]
    dsimp only
    rw [pageFaultHandler_contained_iff hs hboot]
    simp [h14]
  · rw [if_neg h14]
    simp [Contained, h13, h14]

/-! ## Waiting -/

/-- `k'` is a kernel in which the caller runs again. -/
structure Resumed (k : Kernel) (k' : Kernel) : Prop where
  ok : ∃ live, SchedOk k' live
  current : k'.current = k.current
  alive : (k'.tasks k'.current).state ≠ .dead

theorem yieldCall_resumed (henv : env.Fair) (hs : SchedOk k live) (halive : (k.tasks k.current).state ≠ .dead) (n : ℕ) :
    ∃ k', yieldCall env n k = some k' ∧ Resumed k k' := by
  obtain ⟨r,hr,hrun,hy⟩ := hs.schedYield_spec
  have hok := hs.switchTo_ok hr
  have hcur : (switchTo k r).current = r := Queue.switchTo_current r
  have hstate : ((switchTo k r).tasks k.current).state ≠ .dead := fun hd => halive ((switchTo_state hrun).mp hd)
  rw [yieldCall, hy, Option.map_some]
  by_cases hsame : (switchTo k r).current = k.current
  · rw [if_pos hsame]
    exact ⟨_,rfl,⟨live,hok⟩,hsame,hsame.symm ▸ hstate⟩
  · rw [if_neg hsame]
    obtain ⟨live',hok',hcur',halive'⟩ := henv.returns n k.current _ live hok hs.current hstate
    exact ⟨_,rfl,⟨live',hok'⟩,hcur',hcur'.symm ▸ halive'⟩

theorem Resumed.trans {k'' : Kernel} (h : Resumed k k') (h' : Resumed k' k'') : Resumed k k'' :=
  ⟨h'.ok,h'.current.trans h.current,h'.alive⟩

theorem Env.Fair.start_le (henv : env.Fair) (n : ℕ) : env.ticks 0 ≤ env.ticks n := by
  induction n with
  | zero => exact Nat.le_refl _
  | succ n ih => exact ih.trans (henv.mono n)

/-- The clock passes the end of every wait that is shorter than half its range. -/
theorem Env.Fair.passes (henv : env.Fair) {wait : ℕ} (hw : wait < 2 ^ 31) :
    ∃ n, wait ≤ (env.ticks (n + 1) - env.ticks 0) % 2 ^ 32 := by
  have hex : ∃ n, env.ticks 0 + wait ≤ env.ticks (n + 1) := by
    obtain ⟨n,hn⟩ := henv.unbounded (env.ticks 0 + wait)
    exact ⟨n,hn.trans (henv.mono n)⟩
  -- the first reading past the end is less than one turn of the counter away
  classical
  refine ⟨Nat.find hex,?_⟩
  have hpast := Nat.find_spec hex
  have hstep := henv.often (Nat.find hex)
  have hbefore : env.ticks (Nat.find hex) ≤ env.ticks 0 + wait := by
    cases hn : Nat.find hex with
    | zero => exact Nat.le_add_right _ _
    | succ n => exact Nat.le_of_not_le (Nat.find_min hex (hn ▸ Nat.lt_succ_self n))
  rw [Nat.mod_eq_of_lt (by omega)]
  omega

theorem sleepStep_spec (henv : env.Fair) {start wait : UInt32} {n : ℕ}
    (hn : ¬UInt32.ofNat (env.ticks (n + 1)) - start < wait) {s : ℕ × Kernel} (hs : s.1 ≤ n ∧ Resumed k s.2) :
    (∃ s', sleepStep env start wait s = .inl s' ∧ (s'.1 ≤ n ∧ Resumed k s'.2) ∧ n - s'.1 < n - s.1) ∨
      ∃ r, sleepStep env start wait s = .inr r ∧ ∃ k', r = some k' ∧ Resumed k k' := by
  obtain ⟨hle,hres⟩ := hs
  unfold sleepStep
  by_cases hlt : UInt32.ofNat (env.ticks (s.1 + 1)) - start < wait
  · have hne : s.1 ≠ n := by
      rintro rfl
      exact hn hlt
    obtain ⟨live,hok⟩ := hres.ok
    obtain ⟨k',hy,hk'⟩ := yieldCall_resumed henv hok hres.alive s.1
    rw [if_pos hlt, hy]
    refine Or.inl ⟨_,rfl,⟨?_,hres.trans hk'⟩,?_⟩
    · dsimp only
      omega
    · dsimp only
      omega
  · rw [if_neg hlt]
    exact Or.inr ⟨_,rfl,s.2,rfl,hres⟩

theorem sleep_resumed (henv : env.Fair) (hres : Resumed k k) {wait : UInt32} (hw : wait.toNat < 2 ^ 31) :
    ∃ n, ∀ fuel, n ≤ fuel →
      ∃ k', (loop (sleepStep env (UInt32.ofNat (env.ticks 0)) wait) fuel (0, k)).join = some k' ∧ Resumed k k' := by
  obtain ⟨n,hn⟩ := henv.passes hw
  have hpast : ¬UInt32.ofNat (env.ticks (n + 1)) - UInt32.ofNat (env.ticks 0) < wait := by
    rw [← UInt32.ofNat_sub (henv.start_le _), UInt32.lt_iff_toNat_lt, UInt32.toNat_ofNat']
    exact Nat.not_lt.mpr hn
  refine ⟨n + 1,fun fuel hfuel => ?_⟩
  obtain ⟨r,hr,k',rfl,hk'⟩ := loop_spec (fun s : ℕ × Kernel => s.1 ≤ n ∧ Resumed k s.2)
    (fun r : Option Kernel => ∃ k', r = some k' ∧ Resumed k k') (fun s => n - s.1)
    (fun s hs => sleepStep_spec henv hpast hs) (s := (0, k)) ⟨Nat.zero_le n,hres⟩
    (Nat.lt_of_le_of_lt (Nat.sub_le n 0) (Nat.lt_of_succ_le hfuel))
  exact ⟨k',by rw [hr]; rfl,hk'⟩

/-! ## System calls -/

theorem syscallDispatcher_eq {fuel : ℕ} {regs : Registers} {c : UInt32} {handler : Handler} (hc : regs.eax = c)
    (hlt : ¬maxSyscalls ≤ c) (ht : syscallTable[c.toNat]? = some handler) :
    syscallDispatcher env fuel k regs =
      match handler env fuel k regs with
      | .ok (k', ret, out) => .returned k' { regs with eax := ret } out
      | .error o => o := by
  rw [syscallDispatcher, hc, if_neg hlt]
  revert ht
  generalize syscallTable[c.toNat]? = entry
  rintro rfl
  rfl

theorem syscallDispatcher_unknown {fuel : ℕ} {regs : Registers} (h : 6 ≤ regs.eax.toNat) :
    syscallDispatcher env fuel k regs = .returned k { regs with eax := -1 } [] := by
  unfold syscallDispatcher
  split
  · rfl
  · rw [List.getElem?_eq_none (by simpa [syscallTable] using h)]

/-- `SYS_WRITE` halts the machine exactly when it is let through to a page that is absent. -/
theorem sysWrite_contained_iff {fuel : ℕ} {regs : Registers} (hc : regs.eax = 1) :
    Contained k (syscallDispatcher env fuel k regs) ↔
      ¬(regs.ecx ≠ 0 ∧ validateUserPtr regs.ebx regs.ecx = 0 ∧
        ∃ i < regs.ecx.toNat, readVirt k.phys.mem k.cpu.cr3 (regs.ebx + UInt32.ofNat i) = none) := by
  rw [syscallDispatcher_eq hc (by decide) rfl]
  unfold sysWriteHandler
  dsimp only
  by_cases hz : regs.ecx = 0
  · rw [if_pos hz]
    simp [Contained, hz]
  rw [if_neg hz]
  by_cases hv : validateUserPtr regs.ebx regs.ecx = 0
  · rw [if_neg (not_not.mpr hv)]
    by_cases hread : ∃ i < regs.ecx.toNat, readVirt k.phys.mem k.cpu.cr3 (regs.ebx + UInt32.ofNat i) = none
    · obtain ⟨i,hi,hnone⟩ := hread
      obtain ⟨v,hw⟩ := writeLoop_error hi hnone
      rw [hw]
      exact ⟨fun h => h.elim,fun h => absurd ⟨hz,hv,i,hi,hnone⟩ h⟩
    · have hall : ∀ i < regs.ecx.toNat, readVirt k.phys.mem k.cpu.cr3 (regs.ebx + UInt32.ofNat i) ≠ none :=
        fun i hi hnone => hread ⟨i,hi,hnone⟩
      obtain ⟨r,hw⟩ := writeLoop_ok hall
      rw [hw]
      exact ⟨fun _ h => hread h.2.2,fun _ => rfl⟩
  · rw [if_pos hv]
    simp [Contained, hv]

theorem syscall_contained (henv : env.Fair) (hs : SchedOk k live) (hboot : k.current ≠ .boot)
    (halive : (k.tasks k.current).state ≠ .dead) {regs : Registers} (hc : regs.eax ≠ 1) :
    ∃ n, ∀ fuel, n ≤ fuel → Contained k (syscallDispatcher env fuel k regs) := by
  by_cases h0 : regs.eax = 0
  · refine ⟨0,fun fuel _ => ?_⟩
    rw [syscallDispatcher_eq h0 (by decide) rfl]
    exact exitTask_contained hs hboot
  by_cases h2 : regs.eax = 2
  · refine ⟨0,fun fuel _ => ?_⟩
    rw [syscallDispatcher_eq h2 (by decide) rfl]
    unfold sysReadHandler
    split_ifs
    · rfl
    · rfl
    · rfl
  by_cases h3 : regs.eax = 3
  · refine ⟨0,fun fuel _ => ?_⟩
    obtain ⟨k',hy,hk'⟩ := yieldCall_resumed henv hs halive 0
    rw [syscallDispatcher_eq h3 (by decide) rfl, sysYieldHandler, hy]
    exact hk'.current
  by_cases h4 : regs.eax = 4
  · refine ⟨0,fun fuel _ => ?_⟩
    rw [syscallDispatcher_eq h4 (by decide) rfl]
    rfl
  by_cases h5 : regs.eax = 5
  · by_cases hz : regs.ebx = 0
    · refine ⟨0,fun fuel _ => ?_⟩
      rw [syscallDispatcher_eq h5 (by decide) rfl, sysSleepHandler, if_pos hz]
      rfl
    · have hwait : (if regs.ebx / 10 = 0 then 1 else regs.ebx / 10).toNat < 2 ^ 31 := by
        split
        · decide
        · rw [UInt32.toNat_div]
          have hlt := regs.ebx.toNat_lt
          rw [show (UInt32.toNat 10) = 10 from rfl]
          omega
      obtain ⟨n,hn⟩ := sleep_resumed henv ⟨⟨live,hs⟩,rfl,halive⟩ hwait
      refine ⟨n,fun fuel hfuel => ?_⟩
      obtain ⟨k',hloop,hk'⟩ := hn fuel hfuel
      rw [syscallDispatcher_eq h5 (by decide) rfl, sysSleepHandler, if_neg hz]
      dsimp only
      rw [hloop]
      exact hk'.current
  · refine ⟨0,fun fuel _ => ?_⟩
    rw [syscallDispatcher_unknown ?_]
    · rfl
    · have hne : ∀ c : UInt32, regs.eax ≠ c → regs.eax.toNat ≠ c.toNat := fun c hn he => hn (UInt32.toNat_inj.mp he)
      have hn0 : regs.eax.toNat ≠ 0 := hne 0 h0
      have hn1 : regs.eax.toNat ≠ 1 := hne 1 hc
      have hn2 : regs.eax.toNat ≠ 2 := hne 2 h2
      have hn3 : regs.eax.toNat ≠ 3 := hne 3 h3
      have hn4 : regs.eax.toNat ≠ 4 := hne 4 h4
      have hn5 : regs.eax.toNat ≠ 5 := hne 5 h5
      omega

/-- A fault of the running Ring 3 task is contained exactly for the general protection fault
and for the page fault with the user bit; a system call is contained exactly when it is not
a `SYS_WRITE` whose buffer passes the check and has an absent page. -/
theorem trap_contained_iff (img : Image) {k₀ k : Kernel} {live : List (Fin 64)} (hrun : Reachable img k₀ k live)
    (hboot : k.current ≠ .boot) (halive : (k.tasks k.current).state ≠ .dead) {env : Env} (henv : env.Fair)
    (regs : Registers) :
    (regs.intNo < 32 → regs.cs &&& 0x3 = 3 →
      (Contained k (isrHandler k regs) ↔ regs.intNo = 13 ∨ regs.intNo = 14 ∧ regs.errCode &&& 0x4 ≠ 0)) ∧
    ((∃ n, ∀ fuel, n ≤ fuel → Contained k (syscallDispatcher env fuel k regs)) ↔
      ¬(regs.eax = 1 ∧ regs.ecx ≠ 0 ∧ validateUserPtr regs.ebx regs.ecx = 0 ∧
        ∃ i < regs.ecx.toNat, readVirt k.phys.mem k.cpu.cr3 (regs.ebx + UInt32.ofNat i) = none)) := by
  have hs := hrun.sound.1.sched
  refine ⟨fun _ hcs => isrHandler_contained_iff hs hboot hcs,?_⟩
  by_cases hc : regs.eax = 1
  · constructor
    · rintro ⟨n,hn⟩ ⟨_,hbad⟩
      exact (sysWrite_contained_iff hc).mp (hn n (Nat.le_refl n)) hbad
    · intro hgood
      exact ⟨0,fun fuel _ => (sysWrite_contained_iff hc).mpr fun hbad => hgood ⟨hc,hbad⟩⟩
  · exact ⟨fun _ hbad => hc hbad.1,fun _ => syscall_contained henv hs hboot halive hc⟩

/-- A clock that is read at every tick, and other tasks that hand the processor back at once. -/
def steadyEnv : Env := ⟨id,fun _ r k => switchTo k r⟩

theorem steadyEnv_fair : steadyEnv.Fair := by
  refine ⟨fun t => ⟨t,Nat.le_refl t⟩,fun n => Nat.le_succ n,fun n => Nat.add_le_add_left (by decide) n,?_⟩
  intro n r k live hs hr halive
  have hcur : (switchTo k r).current = r := Queue.switchTo_current r
  refine ⟨live,hs.switchTo_ok hr,hcur,?_⟩
  by_cases hc : r = k.current
  · rw [show steadyEnv.resume n r k = k from if_pos hc]
    exact halive
  · rw [show steadyEnv.resume n r k = switchTo k r from rfl, Queue.switchTo_tasks hc, if_pos rfl]
    exact TaskState.noConfusion

/-- A general protection fault of the first Ring 3 task is contained. -/
theorem trap_contained_gpf : ∃ k live, Reachable flatImage idleKernel k live ∧ k.current ≠ .boot ∧
    Contained k (isrHandler k ⟨0,0,0,13,0,0x1B⟩) := by
  obtain ⟨k,i,hrun,hcur,hstate⟩ := first_user_runs flatImage (k := idleKernel) (fun _ => rfl)
    (by decide : 0x100000 < 0x400000) []
  have hboot : k.current ≠ .boot := by
    rw [hcur]
    exact TaskRef.noConfusion
  have halive : (k.tasks k.current).state ≠ .dead := by
    rw [hstate]
    exact TaskState.noConfusion
  have h := trap_contained_iff flatImage hrun hboot halive steadyEnv_fair ⟨0,0,0,13,0,0x1B⟩
  exact ⟨k,[i],hrun,hboot,(h.1 (by decide) (by decide)).mpr (Or.inl rfl)⟩

/-- A division by zero in the first Ring 3 task halts the machine. -/
theorem divide_error_halts : ∃ k live, Reachable flatImage idleKernel k live ∧ k.current ≠ .boot ∧
    isrHandler k ⟨0,0,0,0,0,0x1B⟩ = .halted "Division By Zero" := by
  obtain ⟨k,i,hrun,hcur,_⟩ := first_user_runs flatImage (k := idleKernel) (fun _ => rfl)
    (by decide : 0x100000 < 0x400000) []
  refine ⟨k,[i],hrun,?_,rfl⟩
  rw [hcur]
  exact TaskRef.noConfusion

end ApPa.Arch

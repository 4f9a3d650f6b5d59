import ApPa.Lib.Ia32
import ApPa.Task.Run

/-! # Context switches, instruction by instruction

`switch.asm` and the call of it in `switch_to`. A task that is switched away leaves its
registers and its return address on its own stack; a new task finds there what its creation
laid out. As long as stacks are disjoint and tasks keep to their own, every resume finds the
words that were left for it.
-/
namespace ApPa.Tasks
open ByteMem Ia32 Memory Relation

/-! ## The code -/

def taskSwitch : List Instr :=
  [.push .ebx, .push .esi, .push .edi, .push .ebp,
    .load .eax 20, .saveEsp .eax,
    .loadEsp 24,
    .pop .ebp, .pop .edi, .pop .esi, .pop .ebx,
    .ret]

/-- Addresses of the `esp` members of the control blocks. -/
structure TcbMap where
  addr : TaskRef → UInt32
  inj : Function.Injective addr

def taskRefs : List TaskRef := .boot :: (List.finRange 64).map .slot

theorem mem_taskRefs (r : TaskRef) : r ∈ taskRefs := by
  cases r with
  | boot => exact List.mem_cons_self
  | slot i => exact List.mem_cons_of_mem _ (List.mem_map_of_mem (List.mem_finRange i))

def TcbMap.taskAt (T : TcbMap) (a : UInt32) : Option TaskRef := taskRefs.find? (T.addr · = a)

/-- Memory with the `esp` members of the control blocks in it. -/
def bus (T : TcbMap) : Bus Kernel where
  load k a :=
    match T.taskAt a with
    | some r => UInt32.ofNat (k.tasks r).esp
    | none => UInt32.ofNat (read32 k.phys.mem a.toNat)
  store k a v :=
    match T.taskAt a with
    | some r => k.setTask r { k.tasks r with esp := v.toNat }
    | none => { k with phys := { k.phys with mem := write32 k.phys.mem a.toNat v.toNat } }

/-- `switch_to` up to the call of `task_switch`. -/
def prepareSwitch (k : Kernel) (next : TaskRef) : Kernel :=
  let prev := k.current
  let k := if (k.tasks prev).state = .running then k.setState prev .ready else k
  let k := k.setState next .running
  let nextCr3 := if (k.tasks next).cr3 ≠ 0 then (k.tasks next).cr3 else k.paging.pdPhysicalAddress
  let prevCr3 := if (k.tasks prev).cr3 ≠ 0 then (k.tasks prev).cr3 else k.paging.pdPhysicalAddress
  let cr3 := if nextCr3 ≠ prevCr3 then nextCr3 else k.cpu.cr3
  { k with
    current := next
    sliceRemaining := schedTimeSlice
    cpu := { k.cpu with tssEsp0 := (k.tasks next).esp0, cr3 } }

/-- The call `task_switch(&prev->esp, next->esp)` and the code it runs; `ret` is the address
behind the call. -/
def callSwitch (T : TcbMap) (prev next : TaskRef) (ret : UInt32) (m : Machine Kernel) : Machine Kernel :=
  Ia32.run (bus T) taskSwitch (pushWords (bus T) [UInt32.ofNat (m.mem.tasks next).esp, T.addr prev, ret] m)

theorem switchTo_eq {k : Kernel} {next : TaskRef} (h : next ≠ k.current) :
    switchTo k next =
      { (prepareSwitch k next).setTask k.current { (prepareSwitch k next).tasks k.current with esp := k.cpu.esp } with
        cpu := { (prepareSwitch k next).cpu with esp := ((prepareSwitch k next).tasks next).esp } } := by
  rw [switchTo, if_neg h]
  unfold prepareSwitch
  by_cases hs : (k.tasks k.current).state = .running
  · simp only [hs, if_true]
    rfl
  · simp only [hs, if_false]
    rfl

section
variable {T : TcbMap} {k : Kernel} {a : UInt32}

theorem TcbMap.taskAt_addr (T : TcbMap) (r : TaskRef) : T.taskAt (T.addr r) = some r := by
  cases h : T.taskAt (T.addr r) with
  | none =>
    have hnone := List.find?_eq_none.mp h r (mem_taskRefs r)
    exact absurd (decide_eq_true rfl) hnone
  | some u => exact congrArg some (T.inj (of_decide_eq_true (List.find?_some (p := fun u => decide (T.addr u = T.addr r)) h)))

theorem TcbMap.taskAt_none (h : ∀ r, T.addr r ≠ a) : T.taskAt a = none :=
  List.find?_eq_none.mpr fun r _ hc => h r (of_decide_eq_true hc)

theorem bus_load (h : ∀ r, T.addr r ≠ a) : (bus T).load k a = UInt32.ofNat (read32 k.phys.mem a.toNat) := by
  simp only [bus, TcbMap.taskAt_none h]

theorem bus_store (h : ∀ r, T.addr r ≠ a) (v : UInt32) :
    (bus T).store k a v = { k with phys := { k.phys with mem := write32 k.phys.mem a.toNat v.toNat } } := by
  simp only [bus, TcbMap.taskAt_none h]

theorem bus_store_esp (r : TaskRef) (v : UInt32) :
    (bus T).store k (T.addr r) v = k.setTask r { k.tasks r with esp := v.toNat } := by
  simp only [bus, TcbMap.taskAt_addr]

end

/-! ## Pushing on a stack without control blocks -/

/-- No `esp` member of a control block lies in the given range. -/
def TcbMap.Outside (T : TcbMap) (lo hi : ℕ) : Prop := ∀ r, (T.addr r).toNat < lo ∨ hi ≤ (T.addr r).toNat

theorem TcbMap.Outside.ne {T : TcbMap} {lo hi : ℕ} (h : T.Outside lo hi) {a : UInt32} (hlo : lo ≤ a.toNat)
    (hhi : a.toNat < hi) (r : TaskRef) : T.addr r ≠ a := by
  rintro rfl
  have := h r
  omega

theorem TcbMap.Outside.mono {T : TcbMap} {lo hi lo' hi' : ℕ} (h : T.Outside lo hi) (hlo : lo ≤ lo') (hhi : hi' ≤ hi) :
    T.Outside lo' hi' := fun r => (h r).imp (fun hr => Nat.lt_of_lt_of_le hr hlo) fun hr => hhi.trans hr

theorem toNat_sub_four {a : UInt32} (h : 4 ≤ a.toNat) : (a - 4).toNat = a.toNat - 4 :=
  UInt32.toNat_sub_of_le _ _ (UInt32.le_iff_toNat_le.mpr h)

theorem toNat_add_ofNat {a : UInt32} {n : ℕ} (h : a.toNat + n < 2 ^ 32) : (a + UInt32.ofNat n).toNat = a.toNat + n := by
  rw [UInt32.toNat_add, UInt32.toNat_ofNat', Nat.mod_eq_of_lt (show n < 2 ^ 32 by omega), Nat.mod_eq_of_lt h]

theorem pushWords_bus {T : TcbMap} (vs : List UInt32) {m : Machine Kernel} (hroom : 4 * vs.length ≤ m.regs.esp.toNat)
    (hout : T.Outside (m.regs.esp.toNat - 4 * vs.length) m.regs.esp.toNat) :
    ∃ sp : UInt32, sp.toNat = m.regs.esp.toNat - 4 * vs.length ∧
      pushWords (bus T) vs m = ⟨{ m.regs with esp := sp },{ m.mem with phys := { m.mem.phys with
        mem := (push m.mem.phys.mem m.regs.esp.toNat (vs.map UInt32.toNat)).1 } }⟩ := by
  induction vs generalizing m with
  | nil => exact ⟨m.regs.esp,rfl,rfl⟩
  | cons v vs ih =>
    rw [List.length_cons] at hroom hout ⊢
    have h4 := toNat_sub_four (show 4 ≤ m.regs.esp.toNat by omega)
    have hstore := bus_store (k := m.mem) (hout.ne (a := m.regs.esp - 4) (by omega) (by omega)) v
    have hpush : pushWord (bus T) m v = ⟨{ m.regs with esp := m.regs.esp - 4 },{ m.mem with phys := { m.mem.phys with
        mem := write32 m.mem.phys.mem (m.regs.esp.toNat - 4) v.toNat } }⟩ := by
      rw [pushWord, hstore, h4]
    obtain ⟨sp,hsp,hrest⟩ := ih (m := pushWord (bus T) m v) (by rw [hpush]; dsimp only; omega)
      (by rw [hpush]; exact hout.mono (by dsimp only; omega) (by dsimp only; omega))
    rw [hpush] at hsp hrest
    refine ⟨sp,hsp.trans (by dsimp only; omega),?_⟩
    refine (congrArg (pushWords (bus T) vs) hpush).trans (hrest.trans ?_)
    simp only [h4, List.map_cons, push]

theorem bus_load_pushed {T : TcbMap} {k : Kernel} {m : Mem} (vs : List UInt32) {top j : ℕ} {a : UInt32}
    (hk : k.phys.mem = (push m top (vs.map UInt32.toNat)).1) (hroom : 4 * vs.length ≤ top) (hj : j < vs.length)
    (ha : a.toNat = top - 4 * (j + 1)) (hne : ∀ r, T.addr r ≠ a) : (bus T).load k a = vs[j] := by
  have hlen : (vs.map UInt32.toNat).length = vs.length := List.length_map ..
  rw [bus_load hne, hk, ha, read32_push (by rwa [hlen]) (by rwa [hlen]), List.getElem_map,
    Nat.mod_eq_of_lt (UInt32.toNat_lt _), UInt32.ofNat_toNat]

/-- The words that a call of `task_switch` leaves on the stack of the caller, first one highest. -/
def callWords (T : TcbMap) (prev next : TaskRef) (ret : UInt32) (m : Machine Kernel) : List UInt32 :=
  [UInt32.ofNat (m.mem.tasks next).esp, T.addr prev, ret, m.regs.gpr .ebx, m.regs.gpr .esi, m.regs.gpr .edi, m.regs.gpr .ebp]

/-- The kernel when the registers of the caller are saved. -/
def savedKernel (T : TcbMap) (prev next : TaskRef) (ret : UInt32) (m : Machine Kernel) : Kernel :=
  { m.mem with phys := { m.mem.phys with
      mem := (push m.mem.phys.mem m.regs.esp.toNat ((callWords T prev next ret m).map UInt32.toNat)).1 } }.setTask prev
    { m.mem.tasks prev with esp := m.regs.esp.toNat - 28 }

/-- The caller's words are pushed, its stack pointer is stored, and the registers of the next
task are popped from the stack it left. -/
theorem callSwitch_popped {T : TcbMap} {m : Machine Kernel} (prev next : TaskRef) (ret : UInt32)
    (hsp : 28 ≤ m.regs.esp.toNat) (hout : T.Outside (m.regs.esp.toNat - 28) m.regs.esp.toNat) :
    Popped (bus T) [.ebp, .edi, .esi, .ebx]
      ⟨⟨Function.update m.regs.gpr .eax (T.addr prev),UInt32.ofNat (m.mem.tasks next).esp,m.regs.eip⟩,
        savedKernel T prev next ret m⟩
      (callSwitch T prev next ret m) := by
  have hcode : taskSwitch = [Reg.ebx, .esi, .edi, .ebp].map .push ++
      ([.load .eax 20, .saveEsp .eax, .loadEsp 24] ++ ([Reg.ebp, .edi, .esi, .ebx].map .pop ++ [.ret])) := rfl
  have hpush : Ia32.run (bus T) ([Reg.ebx, .esi, .edi, .ebp].map .push)
      (pushWords (bus T) [UInt32.ofNat (m.mem.tasks next).esp, T.addr prev, ret] m) =
        pushWords (bus T) (callWords T prev next ret m) m := by
    rw [run_push, pushWords_gpr, ← pushWords_append]
    rfl
  obtain ⟨sp,hspn,hpushed⟩ := pushWords_bus (T := T) (callWords T prev next ret m) (m := m) hsp hout
  replace hspn : sp.toNat = m.regs.esp.toNat - 28 := hspn
  have hlt : m.regs.esp.toNat < 2 ^ 32 := m.regs.esp.toNat_lt
  have h20 : (sp + 20).toNat = m.regs.esp.toNat - 4 * (1 + 1) := (toNat_add_ofNat (n := 20) (by omega)).trans (by omega)
  have h24 : (sp + 24).toNat = m.regs.esp.toNat - 4 * (0 + 1) := (toNat_add_ofNat (n := 24) (by omega)).trans (by omega)
  -- the two arguments are read back from the stack
  let k₀ : Kernel := { m.mem with phys := { m.mem.phys with
    mem := (push m.mem.phys.mem m.regs.esp.toNat ((callWords T prev next ret m).map UInt32.toNat)).1 } }
  have hold : (bus T).load k₀ (sp + 20) = T.addr prev :=
    bus_load_pushed (m := m.mem.phys.mem) (j := 1) (callWords T prev next ret m) rfl hsp (Nat.one_lt_succ_succ _) h20
      (hout.ne (by omega) (by omega))
  have hnew : (bus T).load (savedKernel T prev next ret m) (sp + 24) = UInt32.ofNat (m.mem.tasks next).esp :=
    bus_load_pushed (m := m.mem.phys.mem) (j := 0) (callWords T prev next ret m) rfl hsp (Nat.succ_pos _) h24
      (hout.ne (by omega) (by omega))
  have hload : Ia32.exec (bus T) ⟨{ m.regs with esp := sp },k₀⟩ (.load .eax 20) =
      ⟨⟨Function.update m.regs.gpr .eax (T.addr prev),sp,m.regs.eip⟩,k₀⟩ := by
    rw [Ia32.exec, hold]
  have hsave : Ia32.exec (bus T) ⟨⟨Function.update m.regs.gpr .eax (T.addr prev),sp,m.regs.eip⟩,k₀⟩ (.saveEsp .eax) =
      ⟨⟨Function.update m.regs.gpr .eax (T.addr prev),sp,m.regs.eip⟩,savedKernel T prev next ret m⟩ := by
    rw [Ia32.exec]
    dsimp only
    rw [Function.update_self, bus_store_esp, hspn]
    rfl
  have hesp : Ia32.exec (bus T) ⟨⟨Function.update m.regs.gpr .eax (T.addr prev),sp,m.regs.eip⟩,savedKernel T prev next ret m⟩
      (.loadEsp 24) = ⟨⟨Function.update m.regs.gpr .eax (T.addr prev),UInt32.ofNat (m.mem.tasks next).esp,m.regs.eip⟩,
        savedKernel T prev next ret m⟩ := by
    rw [Ia32.exec, hnew]
  have hmid : Ia32.run (bus T) [.load .eax 20, .saveEsp .eax, .loadEsp 24] ⟨{ m.regs with esp := sp },k₀⟩ =
      ⟨⟨Function.update m.regs.gpr .eax (T.addr prev),UInt32.ofNat (m.mem.tasks next).esp,m.regs.eip⟩,
        savedKernel T prev next ret m⟩ := by
    rw [run_cons, run_cons, run_cons, run_nil, hload, hsave, hesp]
  rw [callSwitch, hcode, run_append, hpush, hpushed, run_append, hmid]
  exact run_pop (bus T) (by decide) _

theorem prepareSwitch_keeps (k : Kernel) (next : TaskRef) :
    (prepareSwitch k next).phys = k.phys ∧ ∀ u, ((prepareSwitch k next).tasks u).esp = (k.tasks u).esp := by
  have hstate : ∀ (k : Kernel) r st u, ((k.setState r st).tasks u).esp = (k.tasks u).esp := by
    intro k r st u
    rw [Kernel.setState, Kernel.setTask]
    dsimp only
    by_cases hu : u = r
    · rw [hu, Function.update_self]
    · rw [Function.update_of_ne hu]
  unfold prepareSwitch
  dsimp only
  split
  · exact ⟨rfl,fun u => (hstate _ _ _ u).trans (hstate _ _ _ u)⟩
  · exact ⟨rfl,fun u => hstate _ _ _ u⟩

theorem prepareSwitch_esp (k : Kernel) (next : TaskRef) (esp : ℕ) :
    prepareSwitch { k with cpu := { k.cpu with esp } } next =
      { prepareSwitch k next with cpu := { (prepareSwitch k next).cpu with esp } } := by
  unfold prepareSwitch
  by_cases hs : (k.tasks k.current).state = .running
  · simp only [hs, if_true]
    rfl
  · simp only [hs, if_false]
    rfl

/-- The instructions do to the kernel what `switch_to` does, besides writing to the stack of the
caller. -/
theorem callSwitch_switchTo {T : TcbMap} {k : Kernel} {regs : Regs} {next : TaskRef} {ret : UInt32}
    (hnext : next ≠ k.current) (hsp : 28 ≤ regs.esp.toNat) (hout : T.Outside (regs.esp.toNat - 28) regs.esp.toNat) :
    { (callSwitch T k.current next ret ⟨regs,prepareSwitch k next⟩).mem with
      phys := k.phys
      cpu := { (prepareSwitch k next).cpu with esp := (k.tasks next).esp } } =
        switchTo { k with cpu := { k.cpu with esp := regs.esp.toNat - 28 } } next := by
  obtain ⟨hphys,hesp⟩ := prepareSwitch_keeps k next
  have hmem := (callSwitch_popped k.current next ret
    (m := ⟨regs,prepareSwitch k next⟩) hsp hout).mem
  have hsw := switchTo_eq (k := { k with cpu := { k.cpu with esp := regs.esp.toNat - 28 } }) hnext
  rw [prepareSwitch_esp] at hsw
  rw [hmem, hsw, savedKernel]
  dsimp only [Kernel.setTask]
  rw [hesp next, hphys]

/-! ## What is left for a task -/

/-- How a new task starts: a kernel task at its entry, a user task at its entry and stack. -/
inductive Start where
  | kernel (entry : ℕ)
  | user (entry esp : ℕ)

/-- A call of `task_switch`: the registers, the stack pointer on entry and the return address. -/
structure Call where
  gpr : Reg → UInt32
  esp : UInt32
  ret : UInt32

/-- Why a task is not running: it is new, or it is inside `task_switch`. -/
inductive Pending where
  | fresh (start : Start)
  | called (c : Call)

def Start.frame (img : Image) : Start → List ℕ
  | kernel entry => kernelFrame img entry
  | user entry esp => userFrame img esp entry

/-- The words a pending task finds from its stack pointer upwards. -/
def Pending.words (img : Image) : Pending → List UInt32
  | fresh start => ((start.frame img).map UInt32.ofNat).reverse
  | called c => [c.gpr .ebp, c.gpr .edi, c.gpr .esi, c.gpr .ebx, c.ret]

/-- The creation of a task in slot `i`. -/
inductive Builds (img : Image) (k : Kernel) (i : Fin 64) : Start → Kernel → Prop
  | kernel {entry : ℕ} {name : List UInt8} {k' : Kernel} (h : taskCreate img k entry name = some (some i, k')) :
      Builds img k i (.kernel entry) k'
  | user {entry : ℕ} {name : List UInt8} {k' : Kernel} (h : taskCreateUser img k entry name = some (some i, k')) :
      Builds img k i (.user entry userStackTop) k'
  | mapped {entry dir dirPhys esp : ℕ} {name : List UInt8} {k' : Kernel}
      (h : taskCreateUserMapped img k entry name dir dirPhys esp = some (some i, k')) : Builds img k i (.user entry esp) k'

theorem schedAddTask_keeps {k k' : Kernel} {r : TaskRef} (h : schedAddTask k r = some k') :
    k'.phys = k.phys ∧ k'.current = k.current ∧ ∀ u, (k'.tasks u).esp = (k.tasks u).esp ∧
      (k'.tasks u).esp0 = (k.tasks u).esp0 ∧ (k'.tasks u).kernelStack = (k.tasks u).kernelStack := by
  have hnext : ∀ (k : Kernel) r n u, ((k.setNext r n).tasks u).esp = (k.tasks u).esp ∧
      ((k.setNext r n).tasks u).esp0 = (k.tasks u).esp0 ∧
      ((k.setNext r n).tasks u).kernelStack = (k.tasks u).kernelStack := by
    intro k r n u
    by_cases hu : u = r
    · rw [hu, Kernel.setNext, Kernel.setTask]
      dsimp only
      rw [Function.update_self]
      exact ⟨rfl,rfl,rfl⟩
    · rw [Kernel.setNext, Kernel.setTask]
      dsimp only
      rw [Function.update_of_ne hu]
      exact ⟨rfl,rfl,rfl⟩
  unfold schedAddTask at h
  split at h
  · cases h
    exact ⟨rfl,rfl,fun u => hnext k r _ u⟩
  · obtain ⟨t,_,rfl⟩ := Option.map_eq_some_iff.mp h
    refine ⟨rfl,rfl,fun u => ?_⟩
    obtain ⟨h1,h2,h3⟩ := hnext (k.setNext r (k.next t)) t (some r) u
    obtain ⟨g1,g2,g3⟩ := hnext k r (k.next t) u
    exact ⟨h1.trans g1,h2.trans g2,h3.trans g3⟩

/-- The frame of a new task, at the top of its stack. -/
structure Framed (k' : Kernel) (i : Fin 64) (frame : List ℕ) : Prop where
  top : (k'.tasks (.slot i)).esp0 = (k'.tasks (.slot i)).kernelStack + taskKernelStackSize
  mem : ∃ m, k'.phys.mem = (push m (k'.tasks (.slot i)).esp0 frame).1
  esp : (k'.tasks (.slot i)).esp = (k'.tasks (.slot i)).esp0 - 4 * frame.length

theorem launch_framed {k k' : Kernel} {i : Fin 64} {frame : List ℕ} (h : launch k i frame = some k')
    (htop : (k.tasks (.slot i)).esp0 = (k.tasks (.slot i)).kernelStack + taskKernelStackSize) : Framed k' i frame := by
  unfold launch at h
  obtain ⟨hphys,_,htasks⟩ := schedAddTask_keeps h
  obtain ⟨h1,h2,h3⟩ := htasks (.slot i)
  rw [Kernel.setTask] at h1 h2 h3
  dsimp only at h1 h2 h3
  rw [Function.update_self] at h1 h2 h3
  dsimp only at h1 h2 h3
  refine ⟨?_,⟨k.phys.mem,?_⟩,?_⟩
  · rw [h2, h3, htop]
  · rw [hphys, h2]
    rfl
  · rw [h1, h2, push_snd]

theorem Builds.framed {img : Image} {k k' : Kernel} {i : Fin 64} {start : Start} (h : Builds img k i start k') :
    Framed k' i (start.frame img) := by
  cases h with
  | kernel h =>
    unfold taskCreate at h
    split at h
    · cases h
    dsimp only at h
    split at h
    · cases h
    obtain ⟨k₂,hl,he⟩ := Option.map_eq_some_iff.mp h
    cases he
    exact launch_framed hl (by simp [setStack, Kernel.setTask])
  | user h =>
    unfold taskCreateUser at h
    split at h
    · cases h
    dsimp only at h
    split at h
    · cases h
    split at h
    · cases h
    split at h
    · cases h
    obtain ⟨k₂,hl,he⟩ := Option.map_eq_some_iff.mp h
    cases he
    exact launch_framed hl (by simp [setStack, Kernel.setTask])
  | mapped h =>
    unfold taskCreateUserMapped at h
    split at h
    · cases h
    dsimp only at h
    split at h
    · cases h
    obtain ⟨k₂,hl,he⟩ := Option.map_eq_some_iff.mp h
    cases he
    exact launch_framed hl (by simp [setStack, Kernel.setTask])

/-! ## Runs -/

/-- The processor and the kernel, with the stack of each task and what is left for it. -/
structure State where
  machine : Machine Kernel
  lo : TaskRef → ℕ
  hi : TaskRef → ℕ
  pending : TaskRef → Option Pending

namespace State

def current (s : State) : TaskRef := s.machine.mem.current

def Active (s : State) (r : TaskRef) : Prop := r = s.current ∨ s.pending r ≠ none

/-- The running task keeps to its own stack: what is left for the others stays. -/
structure Spares (s : State) (k' : Kernel) : Prop where
  current : k'.current = s.current
  esp : ∀ r, s.pending r ≠ none → (k'.tasks r).esp = (s.machine.mem.tasks r).esp
  stack : ∀ r, s.pending r ≠ none → ∀ x, s.lo r ≤ x → x < s.hi r → k'.phys.mem x = s.machine.mem.phys.mem x

structure Apart (T : TcbMap) (s : State) (lo hi : ℕ) : Prop where
  bound : hi ≤ 2 ^ 32
  tcb : T.Outside lo hi
  disjoint : ∀ r, s.Active r → s.hi r ≤ lo ∨ hi ≤ s.lo r

/-- The running task calls `task_switch` for `next`, with room for the call on its stack. -/
structure Switches (T : TcbMap) (s : State) (next : TaskRef) (ret : UInt32) (s' : State) : Prop where
  other : next ≠ s.current
  waiting : s.pending next ≠ none
  room : s.lo s.current + 28 ≤ s.machine.regs.esp.toNat
  inside : s.machine.regs.esp.toNat ≤ s.hi s.current
  eq : s' = ⟨callSwitch T s.current next ret ⟨s.machine.regs,prepareSwitch s.machine.mem next⟩,s.lo,s.hi,
    Function.update (Function.update s.pending s.current
      (some (.called ⟨s.machine.regs.gpr,s.machine.regs.esp - 12,ret⟩))) next none⟩

/-- The running task works, and tasks that are over may be forgotten; it creates a task; or it
switches to another one. -/
inductive Step (img : Image) (T : TcbMap) : State → State → Prop
  | work {s : State} {m : Machine Kernel} {pending : TaskRef → Option Pending} (hspare : s.Spares m.mem)
      (hsub : ∀ r p, pending r = some p → s.pending r = some p) : Step img T s ⟨m,s.lo,s.hi,pending⟩
  | create {s : State} {m : Machine Kernel} {i : Fin 64} {start : Start}
      (hbuild : Builds img s.machine.mem i start m.mem) (hnew : ¬s.Active (.slot i)) (hspare : s.Spares m.mem)
      (hapart : s.Apart T (m.mem.tasks (.slot i)).kernelStack (m.mem.tasks (.slot i)).esp0) :
      Step img T s ⟨m,Function.update s.lo (.slot i) (m.mem.tasks (.slot i)).kernelStack,
        Function.update s.hi (.slot i) (m.mem.tasks (.slot i)).esp0,
        Function.update s.pending (.slot i) (some (.fresh start))⟩
  | switch {s s' : State} {next : TaskRef} {ret : UInt32} (h : s.Switches T next ret s') : Step img T s s'

structure Initial (T : TcbMap) (s : State) : Prop where
  none : ∀ r, s.pending r = none
  bound : s.hi s.current ≤ 2 ^ 32
  tcb : T.Outside (s.lo s.current) (s.hi s.current)

/-- The words left for a task lie on its stack, from the stack pointer in its control block on. -/
structure Parked (img : Image) (s : State) (r : TaskRef) (p : Pending) : Prop where
  low : s.lo r ≤ (s.machine.mem.tasks r).esp
  high : (s.machine.mem.tasks r).esp + 4 * (p.words img).length ≤ s.hi r
  word : ∀ j, ∀ h : j < (p.words img).length,
    UInt32.ofNat (read32 s.machine.mem.phys.mem ((s.machine.mem.tasks r).esp + 4 * j)) = (p.words img)[j]
  esp : ∀ c, p = .called c → (s.machine.mem.tasks r).esp + 16 = c.esp.toNat

structure Inv (img : Image) (T : TcbMap) (s : State) : Prop where
  bound : ∀ r, s.Active r → s.hi r ≤ 2 ^ 32
  tcb : ∀ r, s.Active r → T.Outside (s.lo r) (s.hi r)
  apart : ∀ r u, s.Active r → s.Active u → r ≠ u → s.hi r ≤ s.lo u ∨ s.hi u ≤ s.lo r
  running : s.pending s.current = none
  parked : ∀ r p, s.pending r = some p → s.Parked img r p

variable {img : Image} {T : TcbMap} {s s' : State} {r next : TaskRef} {p : Pending} {ret : UInt32}

theorem Parked.congr (h : s.Parked img r p) (hlo : s'.lo r = s.lo r) (hhi : s'.hi r = s.hi r)
    (hesp : (s'.machine.mem.tasks r).esp = (s.machine.mem.tasks r).esp)
    (hmem : ∀ x, s.lo r ≤ x → x < s.hi r → s'.machine.mem.phys.mem x = s.machine.mem.phys.mem x) :
    s'.Parked img r p := by
  have hlow := h.low
  have hhigh := h.high
  refine ⟨by omega,by omega,fun j hj => ?_,fun c hc => ?_⟩
  · rw [hesp, ← h.word j hj]
    refine congrArg _ (read32_congr fun x h1 h2 => hmem x ?_ ?_)
    · omega
    · omega
  · rw [hesp, h.esp c hc]

theorem Inv.work {m : Machine Kernel} {pending : TaskRef → Option Pending} (h : s.Inv img T) (hspare : s.Spares m.mem)
    (hsub : ∀ r p, pending r = some p → s.pending r = some p) : State.Inv img T ⟨m,s.lo,s.hi,pending⟩ := by
  have hactive : ∀ r, Active ⟨m,s.lo,s.hi,pending⟩ r → s.Active r := by
    rintro r (hr | hr)
    · exact Or.inl (hr.trans hspare.current)
    · obtain ⟨p,hp⟩ := Option.ne_none_iff_exists'.mp hr
      refine Or.inr ?_
      rw [hsub r p hp]
      exact Option.some_ne_none _
  refine ⟨fun r hr => h.bound r (hactive r hr),fun r hr => h.tcb r (hactive r hr),
    fun r u hr hu => h.apart r u (hactive r hr) (hactive u hu),?_,fun r p hp => ?_⟩
  · show pending m.mem.current = none
    rw [hspare.current]
    cases hp : pending s.current with
    | none => rfl
    | some p =>
      have hrun := h.running
      rw [hsub _ p hp] at hrun
      cases hrun
  · have hne : s.pending r ≠ none := by
      rw [hsub r p hp]
      exact Option.some_ne_none _
    exact (h.parked r p (hsub r p hp)).congr rfl rfl (hspare.esp r hne) (hspare.stack r hne)

/-- A new task finds on its stack what its creation laid out. -/
theorem parked_of_builds {k : Kernel} {i : Fin 64} {start : Start} (h : Builds img k i start s.machine.mem)
    (hlo : s.lo (.slot i) = (s.machine.mem.tasks (.slot i)).kernelStack)
    (hhi : s.hi (.slot i) = (s.machine.mem.tasks (.slot i)).esp0) : s.Parked img (.slot i) (.fresh start) := by
  obtain ⟨htop,⟨m,hm⟩,hesp⟩ := h.framed
  have hlen : (start.frame img).length ≤ 1024 := by
    cases start with
    | kernel entry => exact Nat.le_of_ble_eq_true rfl
    | user entry esp => exact Nat.le_of_ble_eq_true rfl
  rw [taskKernelStackSize] at htop
  have hroom : 4 * (start.frame img).length ≤ (s.machine.mem.tasks (.slot i)).esp0 := by omega
  have hwords : ((Pending.fresh start).words img).length = (start.frame img).length := by
    rw [Pending.words, List.length_reverse, List.length_map]
  refine ⟨by omega,by omega,fun j hj => ?_,fun c hc => by cases hc⟩
  have hj' : (start.frame img).length - 1 - j < (start.frame img).length := by omega
  have haddr : (s.machine.mem.tasks (.slot i)).esp + 4 * j =
      (s.machine.mem.tasks (.slot i)).esp0 - 4 * ((start.frame img).length - 1 - j + 1) := by omega
  rw [haddr, hm, read32_push hroom hj']
  simp only [Pending.words, List.getElem_reverse, List.getElem_map, List.length_map]
  exact UInt32.ofNat_mod_size

theorem Inv.create {m : Machine Kernel} {i : Fin 64} {start : Start} (h : s.Inv img T)
    (hbuild : Builds img s.machine.mem i start m.mem) (hnew : ¬s.Active (.slot i)) (hspare : s.Spares m.mem)
    (hapart : s.Apart T (m.mem.tasks (.slot i)).kernelStack (m.mem.tasks (.slot i)).esp0) :
    State.Inv img T ⟨m,Function.update s.lo (.slot i) (m.mem.tasks (.slot i)).kernelStack,
      Function.update s.hi (.slot i) (m.mem.tasks (.slot i)).esp0,
      Function.update s.pending (.slot i) (some (.fresh start))⟩ := by
  obtain ⟨s₁,hs₁⟩ : ∃ s₁ : State, s₁ = ⟨m,Function.update s.lo (.slot i) (m.mem.tasks (.slot i)).kernelStack,
      Function.update s.hi (.slot i) (m.mem.tasks (.slot i)).esp0,
      Function.update s.pending (.slot i) (some (.fresh start))⟩ := ⟨_,rfl⟩
  rw [← hs₁]
  have hlo : s₁.lo (.slot i) = (m.mem.tasks (.slot i)).kernelStack := by rw [hs₁]; exact Function.update_self ..
  have hhi : s₁.hi (.slot i) = (m.mem.tasks (.slot i)).esp0 := by rw [hs₁]; exact Function.update_self ..
  have hold : ∀ r, r ≠ .slot i → s₁.lo r = s.lo r ∧ s₁.hi r = s.hi r ∧ s₁.pending r = s.pending r := by
    intro r hr
    rw [hs₁]
    exact ⟨Function.update_of_ne hr ..,Function.update_of_ne hr ..,Function.update_of_ne hr ..⟩
  have hcur : s₁.current = s.current := by rw [hs₁]; exact hspare.current
  have hactive : ∀ r, r ≠ .slot i → s₁.Active r → s.Active r := by
    intro r hr ha
    rwa [Active, hcur, (hold r hr).2.2] at ha
  have hne : s.current ≠ .slot i := fun hc => hnew (Or.inl hc.symm)
  refine ⟨fun r ha => ?_,fun r ha => ?_,fun r u ha hu hru => ?_,?_,fun r p hp => ?_⟩
  · by_cases hr : r = .slot i
    · rw [hr, hhi]
      exact hapart.bound
    · rw [(hold r hr).2.1]
      exact h.bound r (hactive r hr ha)
  · by_cases hr : r = .slot i
    · rw [hr, hlo, hhi]
      exact hapart.tcb
    · rw [(hold r hr).1, (hold r hr).2.1]
      exact h.tcb r (hactive r hr ha)
  · by_cases hr : r = .slot i
    · have hu' : u ≠ .slot i := fun hc => hru (hr.trans hc.symm)
      rw [hr, hlo, hhi, (hold u hu').1, (hold u hu').2.1]
      exact (hapart.disjoint u (hactive u hu' hu)).symm
    · rw [(hold r hr).1, (hold r hr).2.1]
      by_cases hu' : u = .slot i
      · rw [hu', hlo, hhi]
        exact hapart.disjoint r (hactive r hr ha)
      · rw [(hold u hu').1, (hold u hu').2.1]
        exact h.apart r u (hactive r hr ha) (hactive u hu' hu) hru
  · rw [hcur, (hold _ hne).2.2]
    exact h.running
  · by_cases hr : r = .slot i
    · subst hr
      have hfresh : s₁.pending (.slot i) = some (.fresh start) := by rw [hs₁]; exact Function.update_self ..
      rw [hfresh] at hp
      cases hp
      have hm : s₁.machine = m := by rw [hs₁]
      refine parked_of_builds (k := s.machine.mem) ?_ ?_ ?_
      · rwa [hm]
      · rwa [hm]
      · rwa [hm]
    · have hm : s₁.machine = m := by rw [hs₁]
      rw [(hold r hr).2.2] at hp
      have hp' : s.pending r ≠ none := by rw [hp]; exact Option.some_ne_none _
      refine (h.parked r p hp).congr (hold r hr).1 (hold r hr).2.1 ?_ ?_
      · rw [hm]
        exact hspare.esp r hp'
      · rw [hm]
        exact hspare.stack r hp'

/-- What a switch leaves in memory and in the control blocks. -/
structure Saved (T : TcbMap) (s : State) (next : TaskRef) (ret : UInt32) (k' : Kernel) : Prop where
  current : k'.current = next
  esp : (k'.tasks s.current).esp = s.machine.regs.esp.toNat - 28
  other : ∀ r, r ≠ s.current → (k'.tasks r).esp = (s.machine.mem.tasks r).esp
  mem : k'.phys.mem = (push s.machine.mem.phys.mem s.machine.regs.esp.toNat ((callWords T s.current next ret
    ⟨s.machine.regs,prepareSwitch s.machine.mem next⟩).map UInt32.toNat)).1

theorem saved_savedKernel (T : TcbMap) (s : State) (next : TaskRef) (ret : UInt32) :
    s.Saved T next ret (savedKernel T s.current next ret ⟨s.machine.regs,prepareSwitch s.machine.mem next⟩) := by
  obtain ⟨hphys,hesp⟩ := prepareSwitch_keeps s.machine.mem next
  refine ⟨rfl,?_,fun r hr => ?_,?_⟩
  · rw [savedKernel, Kernel.setTask]
    dsimp only
    rw [Function.update_self]
  · rw [savedKernel, Kernel.setTask]
    dsimp only
    rw [Function.update_of_ne hr]
    exact hesp r
  · rw [savedKernel, Kernel.setTask]
    dsimp only
    rw [hphys]

theorem Inv.popped (h : s.Inv img T) (hsw : s.Switches T next ret s') :
    Popped (bus T) [.ebp, .edi, .esi, .ebx]
      ⟨⟨Function.update s.machine.regs.gpr .eax (T.addr s.current),UInt32.ofNat (s.machine.mem.tasks next).esp,
        s.machine.regs.eip⟩,s'.machine.mem⟩ s'.machine ∧ s.Saved T next ret s'.machine.mem := by
  have hroom := hsw.room
  have hout : T.Outside (s.machine.regs.esp.toNat - 28) s.machine.regs.esp.toNat :=
    (h.tcb s.current (Or.inl rfl)).mono (by omega) hsw.inside
  have hpop := callSwitch_popped s.current next ret
    (m := ⟨s.machine.regs,prepareSwitch s.machine.mem next⟩) (by dsimp only; omega) hout
  rw [hsw.eq]
  dsimp only at hpop ⊢
  rw [hpop.mem]
  rw [(prepareSwitch_keeps s.machine.mem next).2 next] at hpop
  exact ⟨hpop,saved_savedKernel T s next ret⟩

theorem Saved.parked (h : s.Saved T next ret s'.machine.mem) (hlo : s'.lo = s.lo) (hhi : s'.hi = s.hi)
    (hroom : s.lo s.current + 28 ≤ s.machine.regs.esp.toNat) (hin : s.machine.regs.esp.toNat ≤ s.hi s.current) :
    s'.Parked img s.current (.called ⟨s.machine.regs.gpr,s.machine.regs.esp - 12,ret⟩) := by
  have hlen : ((Pending.called ⟨s.machine.regs.gpr,s.machine.regs.esp - 12,ret⟩).words img).length = 5 := rfl
  have hesp := h.esp
  rw [← hlo] at hroom
  rw [← hhi] at hin
  refine ⟨by omega,by omega,fun j hj => ?_,fun c hc => ?_⟩
  · have hcall : (4 : ℕ) * ((callWords T s.current next ret
        ⟨s.machine.regs,prepareSwitch s.machine.mem next⟩).map UInt32.toNat).length ≤ s.machine.regs.esp.toNat := by
      rw [List.length_map]
      show 4 * 7 ≤ _
      omega
    have haddr : (s'.machine.mem.tasks s.current).esp + 4 * j = s.machine.regs.esp.toNat - 4 * (6 - j + 1) := by omega
    have hj' : 6 - j < ((callWords T s.current next ret
        ⟨s.machine.regs,prepareSwitch s.machine.mem next⟩).map UInt32.toNat).length := by
      rw [List.length_map]
      show 6 - j < 7
      omega
    rw [haddr, h.mem, read32_push hcall hj', List.getElem_map, Nat.mod_eq_of_lt (UInt32.toNat_lt _), UInt32.ofNat_toNat]
    -- the words of the call, from the last one pushed up to the return address
    match j, hj with
    | 0, _ => rfl
    | 1, _ => rfl
    | 2, _ => rfl
    | 3, _ => rfl
    | 4, _ => rfl
  · cases hc
    have h12 : (s.machine.regs.esp - 12).toNat = s.machine.regs.esp.toNat - 12 :=
      UInt32.toNat_sub_of_le _ _ (UInt32.le_iff_toNat_le.mpr (show 12 ≤ s.machine.regs.esp.toNat by omega))
    rw [hesp, h12]
    omega

/-- The words of the call are on the stack of the caller, so the other stacks stay. -/
theorem Inv.keeps (h : s.Inv img T) (hsw : s.Switches T next ret s') (hsaved : s.Saved T next ret s'.machine.mem)
    (ha : s.Active r) (hr : r ≠ s.current) (x : ℕ) (hlo : s.lo r ≤ x) (hhi : x < s.hi r) :
    s'.machine.mem.phys.mem x = s.machine.mem.phys.mem x := by
  have hapart := h.apart r s.current ha (Or.inl rfl) hr
  have hroom := hsw.room
  have hin := hsw.inside
  have hlen : ((callWords T s.current next ret ⟨s.machine.regs,prepareSwitch s.machine.mem next⟩).map
      UInt32.toNat).length = 7 := rfl
  rw [hsaved.mem]
  refine push_apply ?_ ?_
  · rw [hlen]
    omega
  · rw [hlen]
    omega

theorem Inv.switch (h : s.Inv img T) (hsw : s.Switches T next ret s') : s'.Inv img T := by
  obtain ⟨hpop,hsaved⟩ := h.popped hsw
  have hlo : s'.lo = s.lo := by rw [hsw.eq]
  have hhi : s'.hi = s.hi := by rw [hsw.eq]
  have hpend : s'.pending = Function.update (Function.update s.pending s.current
      (some (.called ⟨s.machine.regs.gpr,s.machine.regs.esp - 12,ret⟩))) next none := by rw [hsw.eq]
  have hcur : s'.current = next := hsaved.current
  have hactive : ∀ r, s'.Active r → s.Active r := by
    rintro r (hr | hr)
    · rw [hr, hcur]
      exact Or.inr hsw.waiting
    · by_cases hrc : r = s.current
      · exact Or.inl hrc
      · by_cases hrn : r = next
        · rw [hpend, hrn, Function.update_self] at hr
          exact absurd rfl hr
        · rw [hpend, Function.update_of_ne hrn, Function.update_of_ne hrc] at hr
          exact Or.inr hr
  refine ⟨fun r ha => ?_,fun r ha => ?_,fun r u ha hu => ?_,?_,fun r p hp => ?_⟩
  · rw [hhi]
    exact h.bound r (hactive r ha)
  · rw [hlo, hhi]
    exact h.tcb r (hactive r ha)
  · rw [hlo, hhi]
    exact h.apart r u (hactive r ha) (hactive u hu)
  · rw [hcur, hpend, Function.update_self]
  · have hrn : r ≠ next := by
      rintro rfl
      rw [hpend, Function.update_self] at hp
      cases hp
    rw [hpend, Function.update_of_ne hrn] at hp
    by_cases hrc : r = s.current
    · rw [hrc, Function.update_self] at hp
      cases hp
      rw [hrc]
      exact hsaved.parked hlo hhi hsw.room hsw.inside
    · rw [Function.update_of_ne hrc] at hp
      have ha : s.Active r := Or.inr (by rw [hp]; exact Option.some_ne_none _)
      exact (h.parked r p hp).congr (by rw [hlo]) (by rw [hhi]) (hsaved.other r hrc) (h.keeps hsw hsaved ha hrc)

theorem Inv.step (h : s.Inv img T) (hstep : Step img T s s') : s'.Inv img T := by
  cases hstep with
  | work hspare hsub => exact h.work hspare hsub
  | create hbuild hnew hspare hapart => exact h.create hbuild hnew hspare hapart
  | switch hsw => exact h.switch hsw

theorem Initial.inv (h : s.Initial T) : s.Inv img T := by
  have hactive : ∀ r, s.Active r → r = s.current := fun r ha => ha.resolve_right fun hc => hc (h.none r)
  refine ⟨fun r ha => ?_,fun r ha => ?_,fun r u ha hu hru => ?_,h.none _,fun r p hp => ?_⟩
  · rw [hactive r ha]
    exact h.bound
  · rw [hactive r ha]
    exact h.tcb
  · exact absurd ((hactive r ha).trans (hactive u hu).symm) hru
  · rw [h.none r] at hp
    cases hp

theorem Inv.run (h : s.Inv img T) (hrun : ReflTransGen (Step img T) s s') : s'.Inv img T := by
  induction hrun with
  | refl => exact h
  | tail _ hstep ih => exact ih.step hstep

theorem Inv.word_kept (h : s.Inv img T) (hsw : s.Switches T next ret s') (hp : s.pending next = some p) {j : ℕ}
    (hj : j < (p.words img).length) :
    UInt32.ofNat (read32 s'.machine.mem.phys.mem ((s.machine.mem.tasks next).esp + 4 * j)) = (p.words img)[j] := by
  have hparked := h.parked next p hp
  have hlow := hparked.low
  have hhigh := hparked.high
  rw [← hparked.word j hj]
  refine congrArg _ (read32_congr fun x h1 h2 => ?_)
  exact h.keeps hsw (h.popped hsw).2 (Or.inr hsw.waiting) hsw.other x (by omega) (by omega)

/-- The next task finds the words left for it, from the stack pointer in its control block on. -/
theorem Inv.load_word (h : s.Inv img T) (hsw : s.Switches T next ret s') (hp : s.pending next = some p) (j : ℕ)
    (w : UInt32) (hw : (p.words img)[j]? = some w) : (bus T).load s'.machine.mem
      (UInt32.ofNat (s.machine.mem.tasks next).esp + UInt32.ofNat (4 * j)) = w := by
  obtain ⟨hj,hw⟩ := List.getElem?_eq_some_iff.mp hw
  have hparked := h.parked next p hp
  have hlow := hparked.low
  have hhigh := hparked.high
  have ha : s.Active next := Or.inr hsw.waiting
  have hbound := h.bound next ha
  have hesp : (UInt32.ofNat (s.machine.mem.tasks next).esp).toNat = (s.machine.mem.tasks next).esp := by
    rw [UInt32.toNat_ofNat', Nat.mod_eq_of_lt (show _ < 2 ^ 32 by omega)]
  have haddr := toNat_add_ofNat (a := UInt32.ofNat (s.machine.mem.tasks next).esp) (n := 4 * j) (by omega)
  rw [hesp] at haddr
  rw [bus_load ((h.tcb next ha).ne (by omega) (by omega)), haddr, ← hw]
  exact h.word_kept hsw hp hj

/-- How a pending task goes on: a caller of `task_switch` behind its call with its registers, a
kernel task in `task_wrapper` with its entry as first argument, a user task in `enter_usermode`
with an `iret` frame on the stack. -/
def Resumes (img : Image) (T : TcbMap) (m : Machine Kernel) : Pending → Prop
  | .called c => m.regs.gpr .ebx = c.gpr .ebx ∧ m.regs.gpr .esi = c.gpr .esi ∧ m.regs.gpr .edi = c.gpr .edi ∧
    m.regs.gpr .ebp = c.gpr .ebp ∧ m.regs.esp = c.esp + 4 ∧ m.regs.eip = c.ret
  | .fresh (.kernel entry) => m.regs.eip = UInt32.ofNat img.taskWrapper ∧
    (bus T).load m.mem (m.regs.esp + 4) = UInt32.ofNat entry
  | .fresh (.user entry esp) => m.regs.eip = UInt32.ofNat img.enterUsermode ∧
    ∀ j, ∀ h : j < 5, (bus T).load m.mem (m.regs.esp + UInt32.ofNat (4 * j)) =
      UInt32.ofNat [entry, gdtUserCodeSeg, 0x202, esp, gdtUserDataSeg][j]

theorem Inv.resumes (h : s.Inv img T) (hsw : s.Switches T next ret s') (hp : s.pending next = some p) :
    Resumes img T s'.machine p := by
  obtain ⟨hpop,_⟩ := h.popped hsw
  have hword := h.load_word hsw hp
  have hesp : s'.machine.regs.esp = UInt32.ofNat (s.machine.mem.tasks next).esp + UInt32.ofNat 20 := hpop.esp
  -- the words above the return address, seen from the stack pointer behind it
  have habove : ∀ j, s'.machine.regs.esp + UInt32.ofNat (4 * j) =
      UInt32.ofNat (s.machine.mem.tasks next).esp + UInt32.ofNat (4 * (j + 5)) := by
    intro j
    rw [hesp, UInt32.add_assoc, ← UInt32.ofNat_add]
    congr 2
    omega
  match p with
  | .called c =>
    have hat := (h.parked next _ hp).esp c rfl
    refine ⟨(hpop.popped 3 (by decide)).trans (hword 3 _ rfl),(hpop.popped 2 (by decide)).trans (hword 2 _ rfl),
      (hpop.popped 1 (by decide)).trans (hword 1 _ rfl),(hpop.popped 0 (by decide)).trans (hword 0 _ rfl),
      ?_,hpop.eip.trans (hword 4 _ rfl)⟩
    rw [hesp, ← UInt32.ofNat_toNat (x := c.esp), ← hat, UInt32.ofNat_add, UInt32.add_assoc]
    rfl
  | .fresh (.kernel entry) =>
    refine ⟨hpop.eip.trans (hword 4 _ rfl),?_⟩
    exact (congrArg _ (habove 1)).trans (hword 6 _ rfl)
  | .fresh (.user entry esp) =>
    refine ⟨hpop.eip.trans (hword 4 _ rfl),fun j hj => ?_⟩
    rw [habove j]
    refine hword (j + 5) _ ?_
    match j, hj with
    | 0, _ => rfl
    | 1, _ => rfl
    | 2, _ => rfl
    | 3, _ => rfl
    | 4, _ => rfl

/-- In every run, a task that is switched to goes on where it left off: behind its own call of
`task_switch`, or where its creation makes it start. -/
theorem run_resumes {s₀ : State} (h₀ : s₀.Initial T) (hrun : ReflTransGen (Step img T) s₀ s)
    (hsw : s.Switches T next ret s') (hp : s.pending next = some p) : Resumes img T s'.machine p :=
  Inv.resumes (h₀.inv.run hrun) hsw hp

def packedTcbs : TcbMap where
  addr r := r.casesOn 0x10000 fun i => UInt32.ofNat (0x10004 + 4 * i)
  inj := by
    have hslot : ∀ i : Fin 64, (UInt32.ofNat (0x10004 + 4 * i)).toNat = 0x10004 + 4 * i := fun i =>
      (UInt32.toNat_ofNat' ..).trans (Nat.mod_eq_of_lt (by omega))
    intro r u h
    replace h := congrArg UInt32.toNat h
    match r, u with
    | .boot, .boot => rfl
    | .boot, .slot j =>
      rw [hslot j] at h
      exact absurd h (by show (0x10000 : ℕ) ≠ _; omega)
    | .slot i, .boot =>
      rw [hslot i] at h
      exact absurd h (by show _ ≠ (0x10000 : ℕ); omega)
    | .slot i, .slot j =>
      rw [hslot i, hslot j] at h
      exact congrArg TaskRef.slot (Fin.ext (by omega))

def aloneState : State :=
  ⟨⟨⟨fun _ => 7,0x90000,0⟩,schedInit idleKernel⟩,fun _ => 0x80000,fun _ => 0x90000,fun _ => none⟩

/-- The boot task creates a task, switches to it and is switched back to. -/
theorem run_resumes_back : ∃ s₁ s₂ s₃, ReflTransGen (Step flatImage packedTcbs) aloneState s₁ ∧
    s₁.Switches packedTcbs (.slot 0) 0x1234 s₂ ∧ Resumes flatImage packedTcbs s₂.machine (.fresh (.kernel 0x100040)) ∧
    s₂.Switches packedTcbs .boot 0x5678 s₃ ∧
      Resumes flatImage packedTcbs s₃.machine (.called ⟨fun _ => 7,0x90000 - 12,0x1234⟩) := by
  have hout : ∀ r, 0x10000 ≤ (packedTcbs.addr r).toNat ∧ (packedTcbs.addr r).toNat < 0x11000 := by
    intro r
    cases r with
    | boot => decide
    | slot i => revert i; decide +kernel
  have h₀ : aloneState.Initial packedTcbs := by
    refine ⟨fun _ => rfl,by decide,fun r => Or.inl ?_⟩
    exact (hout r).2.trans (by decide)
  obtain ⟨k,hk,hcur,hlo,hhi,hesp⟩ : ∃ k, taskCreate flatImage (schedInit idleKernel) 0x100040 [] = some (some 0, k) ∧
      k.current = .boot ∧ (k.tasks (.slot 0)).kernelStack = 0x1000 ∧ (k.tasks (.slot 0)).esp0 = 0x2000 ∧
        (k.tasks (.slot 0)).esp = 0x1FE4 := ⟨_,rfl,rfl,rfl,rfl,rfl⟩
  have hactive : ∀ r, aloneState.Active r → r = .boot := fun r ha => ha.resolve_right fun hc => hc rfl
  have hcreate : Step flatImage packedTcbs aloneState ⟨⟨aloneState.machine.regs,k⟩,
      Function.update aloneState.lo (.slot 0) (k.tasks (.slot 0)).kernelStack,
      Function.update aloneState.hi (.slot 0) (k.tasks (.slot 0)).esp0,
      Function.update aloneState.pending (.slot 0) (some (.fresh (.kernel 0x100040)))⟩ := by
    refine .create (m := ⟨aloneState.machine.regs,k⟩) (.kernel hk) ?_ ?_ ?_
    · intro ha
      cases hactive _ ha
    · exact ⟨hcur,fun r hr => absurd rfl hr,fun r hr => absurd rfl hr⟩
    · dsimp only
      rw [hlo, hhi]
      exact ⟨by decide,fun r => Or.inr (Nat.le_trans (by decide) (hout r).1),fun r _ => Or.inr (by decide : 0x2000 ≤ 0x80000)⟩
  rw [hlo, hhi] at hcreate
  obtain ⟨s₁,hs₁⟩ : ∃ s₁ : State, s₁ = ⟨⟨aloneState.machine.regs,k⟩,Function.update aloneState.lo (.slot 0) 0x1000,
      Function.update aloneState.hi (.slot 0) 0x2000,
      Function.update aloneState.pending (.slot 0) (some (.fresh (.kernel 0x100040)))⟩ := ⟨_,rfl⟩
  rw [← hs₁] at hcreate
  have hcur₁ : s₁.current = .boot := by rw [hs₁]; exact hcur
  have hlo₁ : s₁.lo .boot = 0x80000 := by rw [hs₁]; rfl
  have hhi₁ : s₁.hi .boot = 0x90000 := by rw [hs₁]; rfl
  have hesp₁ : s₁.machine.regs.esp = 0x90000 := by rw [hs₁]; rfl
  have hpend₁ : s₁.pending (.slot 0) = some (.fresh (.kernel 0x100040)) := by rw [hs₁]; rfl
  obtain ⟨s₂,hsw₁⟩ : ∃ s₂, s₁.Switches packedTcbs (.slot 0) 0x1234 s₂ := by
    refine ⟨_,?_,?_,?_,?_,rfl⟩
    · rw [hcur₁]
      exact TaskRef.noConfusion
    · rw [hpend₁]
      exact Option.some_ne_none _
    · rw [hcur₁, hlo₁, hesp₁]
      decide
    · rw [hcur₁, hhi₁, hesp₁]
      decide
  have hrun := ReflTransGen.single hcreate
  obtain ⟨hpop,hsaved⟩ := (h₀.inv.run hrun).popped hsw₁
  have hcur₂ : s₂.current = .slot 0 := hsaved.current
  have hesp₂ : s₂.machine.regs.esp = 0x1FF8 := by
    refine hpop.esp.trans ?_
    rw [hs₁]
    dsimp only
    rw [hesp]
    decide
  have hpend₂ : s₂.pending .boot = some (.called ⟨fun _ => 7,0x90000 - 12,0x1234⟩) := by
    rw [hsw₁.eq, hcur₁, hs₁]
    rfl
  have hlo₂ : s₂.lo (.slot 0) = 0x1000 := by
    rw [hsw₁.eq, hs₁]
    rfl
  have hhi₂ : s₂.hi (.slot 0) = 0x2000 := by
    rw [hsw₁.eq, hs₁]
    rfl
  obtain ⟨s₃,hsw₂⟩ : ∃ s₃, s₂.Switches packedTcbs .boot 0x5678 s₃ := by
    refine ⟨_,?_,?_,?_,?_,rfl⟩
    · rw [hcur₂]
      exact TaskRef.noConfusion
    · rw [hpend₂]
      exact Option.some_ne_none _
    · rw [hcur₂, hesp₂, hlo₂]
      decide
    · rw [hcur₂, hesp₂, hhi₂]
      decide
  exact ⟨s₁,s₂,s₃,hrun,hsw₁,run_resumes h₀ hrun hsw₁ hpend₁,hsw₂,run_resumes h₀ (hrun.tail (.switch hsw₁)) hsw₂ hpend₂⟩

end State

end ApPa.Tasks

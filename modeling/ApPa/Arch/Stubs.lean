import ApPa.Arch.Descriptors

/-! # Interrupt stubs

`isr_stubs.asm`, `irq_stubs.asm` and `syscall_stub.asm` between the gates and the C handlers. A handler finds the interrupted
registers in a `registers_t`, whichever vector led to it, and what it leaves there is what the interrupted code goes on with.
-/
namespace ApPa.Arch
open ByteMem Protected WordStack

/-! ## The code -/

/-- The vectors with `ISR_ERR`. -/
def errorIsrs : List ℕ := [8, 10, 11, 12, 13, 14, 17, 21, 29, 30]

def isrNoErr (n : ℕ) : List Instr := [.pushImm 0, .pushImm (UInt32.ofNat n)]
def isrErr (n : ℕ) : List Instr := [.pushImm (UInt32.ofNat n)]

def isrStub (n : Fin 32) : List Instr := if n.val ∈ errorIsrs then isrErr n else isrNoErr n
def irqStub (n : Fin 16) : List Instr := isrNoErr (32 + n)
def syscallStub : List Instr := isrNoErr 0x80

/-- From the common label to the call of the handler. -/
def commonEntry : List Instr :=
  [.pusha, .movAxDs, .pushEax, .movAxImm 0x10, .movSegAx .ds, .movSegAx .es, .movSegAx .fs, .movSegAx .gs, .pushEsp]

/-- From the return of the handler on. -/
def commonExit : List Instr :=
  [.addEsp 4, .popEax, .movSegAx .ds, .movSegAx .es, .movSegAx .fs, .movSegAx .gs, .popa, .addEsp 8, .iret]

/-! ## Ways into the kernel -/

inductive Trap where
  | exception (n : Fin 32) (error : UInt32)
  | irq (n : Fin 16)
  | syscall
  deriving DecidableEq

/-- Exceptions for which the processor pushes an error code. -/
def pushesError (n : Fin 32) : Bool :=
  n = 8 || n = 10 || n = 11 || n = 12 || n = 13 || n = 14 || n = 17 || n = 21 || n = 29 || n = 30

namespace Trap

def vector : Trap → UInt8
  | .exception n _ => UInt8.ofNat n
  | .irq n => UInt8.ofNat (32 + n)
  | .syscall => 0x80

def software : Trap → Bool
  | .syscall => true
  | _ => false

def error : Trap → Option UInt32
  | .exception n e => if pushesError n then some e else none
  | _ => none

def stub : Trap → List Instr
  | .exception n _ => isrStub n
  | .irq n => irqStub n
  | .syscall => syscallStub

def stubAddress (sym : Symbols) : Trap → UInt32
  | .exception n _ => sym.isr n
  | .irq n => sym.irq n
  | .syscall => sym.syscallStub

end Trap

/-! ## The frame -/

/-- `registers_t` without the last two members, which are there only if the interrupted code was in Ring 3. -/
structure Frame where
  ds : UInt32
  edi : UInt32
  esi : UInt32
  ebp : UInt32
  esp : UInt32
  ebx : UInt32
  edx : UInt32
  ecx : UInt32
  eax : UInt32
  intNo : UInt32
  errCode : UInt32
  eip : UInt32
  cs : UInt32
  eflags : UInt32

def Frame.words (f : Frame) : List UInt32 :=
  [f.ds, f.edi, f.esi, f.ebp, f.esp, f.ebx, f.edx, f.ecx, f.eax, f.intNo, f.errCode, f.eip, f.cs, f.eflags]

def Frame.gpr (f : Frame) : Gpr → UInt32
  | .eax => f.eax
  | .ecx => f.ecx
  | .edx => f.edx
  | .ebx => f.ebx
  | .ebp => f.ebp
  | .esi => f.esi
  | .edi => f.edi

/-- `useresp` and `ss`. -/
def outerWords (c : Cpu) : List UInt32 := if c.cpl = 0 then [] else [c.esp, c.ss.toUInt32]

def stackTop (esp0 : UInt32) (c : Cpu) : UInt32 := if c.cpl = 0 then c.esp else esp0

/-- `mov ax, ds` leaves the upper half of `eax` in the member for `ds`. -/
def frameOf (esp0 : UInt32) (c : Cpu) (trap : Trap) : Frame where
  ds := setAx (c.gpr .eax) (c.seg .ds)
  edi := c.gpr .edi
  esi := c.gpr .esi
  ebp := c.gpr .ebp
  esp := stackTop esp0 c - UInt32.ofNat (4 * ((outerWords c).length + 5))
  ebx := c.gpr .ebx
  edx := c.gpr .edx
  ecx := c.gpr .ecx
  eax := c.gpr .eax
  intNo := trap.vector.toUInt32
  errCode := trap.error.getD 0
  eip := c.eip
  cs := c.cs.toUInt32
  eflags := c.eflags

/-- Code of Ring 0 or Ring 3 that can be interrupted. -/
structure Context (t : Tables) (c : Cpu) : Prop where
  ring : c.cs = 0x08 ∧ c.ss = 0x10 ∨ c.cs = 0x1B ∧ c.ss = 0x23
  ds : loadable t c.cpl (c.seg .ds) = .ok ()
  null : isNull (c.seg .ds) → c.seg .ds = 0
  vm : c.eflags.toNat.testBit 17 = false

section
variable {sym : Symbols} {esp0 : UInt32} {t : Tables} {c : Cpu} {m : Mem}

/-- The processor when it has entered the kernel. -/
def entered (sym : Symbols) (c : Cpu) (trap : Trap) : Cpu :=
  { c with
    cs := 0x08
    ss := 0x10
    eip := trap.stubAddress sym
    eflags := c.eflags &&& ~~~(if trap = .syscall then 0x34100 else 0x34300) }

theorem stubOf_trap (trap : Trap) : stubOf sym trap.vector = some (trap.stubAddress sym) := by
  cases trap with
  | exception n e =>
    have hn : (UInt8.ofNat n).toNat = n := UInt8.toNat_ofNat_of_lt' (n.isLt.trans (by decide))
    simp [stubOf, Trap.vector, Trap.stubAddress, hn]
  | irq n =>
    have hn : (UInt8.ofNat (32 + n)).toNat = 32 + n :=
      UInt8.toNat_ofNat_of_lt' ((Nat.add_lt_add_left n.isLt 32).trans (by decide))
    simp only [stubOf, Trap.vector, Trap.stubAddress, hn]
    rw [dif_neg (by omega), dif_pos (by omega)]
    simp
  | syscall => rfl

theorem vector_eq_syscall (trap : Trap) : trap.vector = 0x80 ↔ trap = .syscall := by
  cases trap with
  | exception n e =>
    have hall : ∀ n : Fin 32, UInt8.ofNat n ≠ 0x80 := by decide
    simp [Trap.vector, hall n]
  | irq n =>
    have hall : ∀ n : Fin 16, UInt8.ofNat (32 + n) ≠ 0x80 := by decide
    simpa [Trap.vector] using hall n
  | syscall => simp [Trap.vector]

theorem openGate_trap (ht : Installed sym esp0 t) {cpl : ℕ} (hcpl : cpl ≤ 3) (trap : Trap) :
    openGate t cpl trap.vector trap.software =
      .ok ⟨(trap.stubAddress sym).toNat,kernelCodeSeg,if trap = .syscall then 0xEF else 0x8E⟩ := by
  unfold openGate
  rw [ht.gate, stubOf_trap]
  simp only [vector_eq_syscall]
  by_cases hsys : trap = .syscall
  · subst hsys
    simp only [Gate.isOther, Gate.isInterrupt, Gate.isTrap, Gate.kind, Gate.dpl, Gate.present]
    have hring : ¬(Trap.software .syscall && decide (3 < cpl)) = true := by simpa using fun _ => hcpl
    exact (if_neg hring).trans rfl
  · have hsoft : trap.software = false := by
      cases trap with
      | syscall => exact absurd rfl hsys
      | _ => rfl
    simp [hsys, hsoft, Gate.isOther, Gate.isInterrupt, Gate.isTrap, Gate.kind, Gate.dpl, Gate.present]
    decide

def kernelCode : Descriptor := ⟨0,2 ^ 20 - 1,0x9A,0xC⟩

theorem gateTarget_kernel (ht : Installed sym esp0 t) (cpl offset : ℕ) (attr : UInt8) (ext : ℕ) :
    gateTarget t cpl ⟨offset,kernelCodeSeg,attr⟩ ext = .ok kernelCode := by
  have hcode : t.descriptor kernelCodeSeg = some kernelCode := ht.descriptor (by simp [segments, kernelCodeSeg, kernelCode])
  unfold gateTarget
  dsimp only
  rw [hcode, if_neg (by decide)]
  dsimp only
  rw [if_neg (by simp [Descriptor.dpl, kernelCode]; decide), if_neg (by decide)]

theorem innerStack_kernel (ht : Installed sym esp0 t) (ext : ℕ) : innerStack t kernelCode.dpl ext = .ok () := by
  have hdata : t.descriptor 0x10 = some ⟨0,2 ^ 20 - 1,0x92,0xC⟩ := ht.descriptor (by simp [segments])
  unfold innerStack
  rw [ht.ss0, hdata, if_neg (by decide)]
  dsimp only
  rw [if_neg (by decide), if_neg (by decide), if_neg (by decide)]

theorem entryFlags_trap (offset : ℕ) (trap : Trap) (eflags : UInt32) :
    entryFlags ⟨offset,kernelCodeSeg,if trap = .syscall then 0xEF else 0x8E⟩ eflags =
      eflags &&& ~~~(if trap = .syscall then 0x34100 else 0x34300) := by
  by_cases hsys : trap = .syscall
  · simp [hsys, entryFlags, Gate.isInterrupt, Gate.kind]
  · simp [hsys, entryFlags, Gate.isInterrupt, Gate.kind]

theorem Context.cases (h : Context t c) :
    c.cpl = 0 ∧ c.cs = 0x08 ∧ c.ss = 0x10 ∨ c.cpl = 3 ∧ c.cs = 0x1B ∧ c.ss = 0x23 :=
  h.ring.imp (fun hr => ⟨congrArg (·.toNat % 4) hr.1,hr⟩) fun hr => ⟨congrArg (·.toNat % 4) hr.1,hr⟩

theorem deliver_trap (ht : Installed sym esp0 t) (hc : Context t c) (trap : Trap) (hroom : 68 ≤ (stackTop esp0 c).toNat) :
    deliver t trap.vector trap.software trap.error ⟨c,m⟩ =
      .ok (stacked (entered sym c trap) m (stackTop esp0 c)
        ((outerWords c).reverse ++ [c.eflags, c.cs.toUInt32, c.eip] ++ trap.error.toList)) := by
  have hlen : trap.error.toList.length ≤ 1 := by cases trap.error <;> simp
  have hcpl : c.cpl ≤ 3 := by
    unfold Cpu.cpl
    omega
  have hgate := openGate_trap ht hcpl trap
  rcases hc.cases with ⟨h0,-,hss⟩ | ⟨h3,-,-⟩
  · have htop : stackTop esp0 c = c.esp := if_pos h0
    have houter : outerWords c = [] := if_pos h0
    rw [htop] at hroom
    rw [deliver_same (s := ⟨c,m⟩) hgate (gateTarget_kernel ht ..) (by rw [h0]; decide) (by dsimp only; omega), htop, houter]
    simp only [entryFlags_trap, h0, UInt32.ofNat_toNat]
    simp [entered, kernelCodeSeg, hss]
  · have htop : stackTop esp0 c = esp0 := if_neg (by omega)
    have houter : outerWords c = [c.esp, c.ss.toUInt32] := if_neg (by omega)
    rw [htop] at hroom
    rw [deliver_inner (s := ⟨c,m⟩) hgate (gateTarget_kernel ht ..) (by rw [h3]; decide) (innerStack_kernel ht _)
      (by rw [ht.esp0]; omega), htop, houter, ht.esp0, ht.ss0]
    simp only [entryFlags_trap, UInt32.ofNat_toNat]
    simp [entered, kernelCodeSeg, kernelCode, Descriptor.dpl]

/-! ## From the gate to the handler -/

theorem loadable_kernel (ht : Installed sym esp0 t) : loadable t 0 0x10 = .ok () := by
  have hdata : t.descriptor 0x10 = some ⟨0,2 ^ 20 - 1,0x92,0xC⟩ := ht.descriptor (by simp [segments])
  unfold loadable
  rw [hdata, if_neg (by decide)]
  dsimp only
  rw [if_neg (by decide), if_neg (by decide), if_neg (by decide)]

/-- The stubs push an error code where the processor does not. -/
theorem run_stub {top : UInt32} {vs : List UInt32} (hroom : 4 * (vs.length + 2) ≤ top.toNat) (trap : Trap) :
    run t trap.stub (stacked c m top (vs ++ trap.error.toList)) =
      .ok (stacked c m top (vs ++ [trap.error.getD 0, trap.vector.toUInt32])) := by
  have hnoErr : ∀ n, run t (isrNoErr n) (stacked c m top vs) = .ok (stacked c m top (vs ++ [0, UInt32.ofNat n])) := by
    intro n
    have hfirst : exec t (stacked c m top vs) (.pushImm 0) = .ok (stacked c m top (vs ++ [0])) :=
      congrArg Except.ok (stacked_push (by omega) 0)
    have hsecond : exec t (stacked c m top (vs ++ [0])) (.pushImm (UInt32.ofNat n)) =
        .ok (stacked c m top (vs ++ [0] ++ [UInt32.ofNat n])) :=
      congrArg Except.ok (stacked_push (by simp only [List.length_append, List.length_cons, List.length_nil]; omega) _)
    rw [isrNoErr, run_cons hfirst, run_cons hsecond, run_nil, List.append_assoc]
    rfl
  cases trap with
  | exception n e =>
    have hvector : ∀ n : Fin 32, (UInt8.ofNat n).toUInt32 = UInt32.ofNat n := by decide
    have herror : ∀ n : Fin 32, pushesError n = decide (n.val ∈ errorIsrs) := by decide
    simp only [Trap.stub, Trap.error, Trap.vector, isrStub, herror, hvector, decide_eq_true_eq]
    by_cases hn : n.val ∈ errorIsrs
    · have hpush : exec t (stacked c m top (vs ++ [e])) (.pushImm (UInt32.ofNat n)) =
          .ok (stacked c m top (vs ++ [e] ++ [UInt32.ofNat n])) :=
        congrArg Except.ok (stacked_push (by simp only [List.length_append, List.length_cons, List.length_nil]; omega) _)
      simp only [if_pos hn, Option.toList_some, Option.getD_some]
      rw [isrErr, run_cons hpush, run_nil, List.append_assoc]
      rfl
    · simp only [if_neg hn, Option.toList_none, Option.getD_none, List.append_nil]
      exact hnoErr n
  | irq n =>
    have hvector : ∀ n : Fin 16, (UInt8.ofNat (32 + n)).toUInt32 = UInt32.ofNat (32 + n) := by decide
    simp only [Trap.stub, Trap.error, Trap.vector, irqStub, hvector, Option.toList_none, Option.getD_none, List.append_nil]
    exact hnoErr _
  | syscall =>
    simp only [Trap.stub, Trap.error, Trap.vector, syscallStub, Option.toList_none, Option.getD_none, List.append_nil]
    exact hnoErr _

theorem toUInt16_setAx (eax : UInt32) (v : UInt16) : (setAx eax v).toUInt16 = v := by
  unfold setAx
  apply UInt16.toBitVec_inj.mp
  ext i hi
  simp

theorem run_loadSegs {s : State} {sel : UInt16} (hsel : (s.cpu.gpr .eax).toUInt16 = sel)
    (hload : loadable t s.cpu.cpl sel = .ok ()) (code : List Instr) :
    run t (.movSegAx .ds :: .movSegAx .es :: .movSegAx .fs :: .movSegAx .gs :: code) s =
      run t code { s with cpu := { s.cpu with seg := fun _ => sel } } := by
  have hstep : ∀ seg r, exec t { s with cpu := { s.cpu with seg := seg } } (.movSegAx r) =
      .ok { s with cpu := { s.cpu with seg := Function.update seg r sel } } := by
    intro seg r
    simp only [exec, hsel]
    change (loadable t s.cpu.cpl sel).bind _ = _
    rw [hload]
    rfl
  have hall : Function.update (Function.update (Function.update (Function.update s.cpu.seg .ds sel) .es sel) .fs sel) .gs sel =
      fun _ => sel := by
    funext r
    cases r <;> rfl
  rw [run_cons (hstep s.cpu.seg .ds), run_cons (hstep _ .es), run_cons (hstep _ .fs), run_cons (hstep _ .gs), hall]

/-- Data segments of the kernel, and `eax` clobbered. -/
def kernelSegments (c : Cpu) : Cpu :=
  { c with
    gpr := Function.update c.gpr .eax (setAx (setAx (c.gpr .eax) (c.seg .ds)) 0x10)
    seg := fun _ => 0x10 }

theorem run_commonEntry (ht : Installed sym esp0 t) (hcpl : c.cpl = 0) {top : UInt32} {vs : List UInt32}
    (hroom : 4 * (vs.length + 10) ≤ top.toNat) :
    run t commonEntry (stacked c m top vs) = .ok (stacked (kernelSegments c) m top (vs ++
      [c.gpr .eax, c.gpr .ecx, c.gpr .edx, c.gpr .ebx, top - UInt32.ofNat (4 * vs.length), c.gpr .ebp, c.gpr .esi, c.gpr .edi,
        setAx (c.gpr .eax) (c.seg .ds), top - UInt32.ofNat (4 * (vs.length + 9))])) := by
  have hpusha : exec t (stacked c m top vs) .pusha = .ok (stacked c m top (vs ++ [c.gpr .eax, c.gpr .ecx, c.gpr .edx,
      c.gpr .ebx, top - UInt32.ofNat (4 * vs.length), c.gpr .ebp, c.gpr .esi, c.gpr .edi])) :=
    congrArg Except.ok (stacked_pushes (by simp only [List.length_cons, List.length_nil]; omega))
  generalize hws : vs ++ [c.gpr .eax, c.gpr .ecx, c.gpr .edx, c.gpr .ebx, top - UInt32.ofNat (4 * vs.length), c.gpr .ebp,
    c.gpr .esi, c.gpr .edi] = ws at hpusha
  have hlen : ws.length = vs.length + 8 := by
    rw [← hws]
    simp
  have hds : exec t (stacked c m top ws) .movAxDs =
      .ok (stacked { c with gpr := Function.update c.gpr .eax (setAx (c.gpr .eax) (c.seg .ds)) } m top ws) := rfl
  have heax : exec t (stacked { c with gpr := Function.update c.gpr .eax (setAx (c.gpr .eax) (c.seg .ds)) } m top ws) .pushEax =
      .ok (stacked { c with gpr := Function.update c.gpr .eax (setAx (c.gpr .eax) (c.seg .ds)) } m top
        (ws ++ [setAx (c.gpr .eax) (c.seg .ds)])) :=
    congrArg Except.ok (stacked_push (by omega) _)
  have hesp : exec t (stacked (kernelSegments c) m top (ws ++ [setAx (c.gpr .eax) (c.seg .ds)])) .pushEsp =
      .ok (stacked (kernelSegments c) m top (ws ++ [setAx (c.gpr .eax) (c.seg .ds)] ++
        [top - UInt32.ofNat (4 * (ws ++ [setAx (c.gpr .eax) (c.seg .ds)]).length)])) :=
    congrArg Except.ok (stacked_push (by simp only [List.length_append, List.length_cons, List.length_nil]; omega) _)
  have hax : exec t (stacked { c with gpr := Function.update c.gpr .eax (setAx (c.gpr .eax) (c.seg .ds)) } m top
      (ws ++ [setAx (c.gpr .eax) (c.seg .ds)])) (.movAxImm 0x10) =
      .ok (stacked { c with gpr := Function.update c.gpr .eax (setAx (setAx (c.gpr .eax) (c.seg .ds)) 0x10) } m top
        (ws ++ [setAx (c.gpr .eax) (c.seg .ds)])) := by
    simp [exec, stacked]
  have hload : loadable t c.cpl 0x10 = .ok () := by
    rw [hcpl]
    exact loadable_kernel ht
  have hsel : ((stacked { c with gpr := Function.update c.gpr .eax (setAx (setAx (c.gpr .eax) (c.seg .ds)) 0x10) } m top
      (ws ++ [setAx (c.gpr .eax) (c.seg .ds)])).cpu.gpr .eax).toUInt16 = 0x10 := by
    simp only [stacked, Function.update_self]
    exact toUInt16_setAx _ _
  rw [commonEntry, run_cons hpusha, run_cons hds, run_cons heax, run_cons hax]
  refine (run_loadSegs hsel hload _).trans ((run_cons hesp).trans ?_)
  rw [run_nil, ← hws]
  simp

/-! ## From the handler back -/

theorem Context.returnTarget (ht : Installed sym esp0 t) (hc : Context t c) : returnTarget t 0 c.cs = .ok () := by
  unfold Protected.returnTarget
  rcases hc.ring with ⟨hcs,-⟩ | ⟨hcs,-⟩
  · have hcode : t.descriptor 0x08 = some ⟨0,2 ^ 20 - 1,0x9A,0xC⟩ := ht.descriptor (by simp [segments])
    rw [hcs, hcode, if_neg (by decide)]
    dsimp only
    rw [if_neg (by decide), if_neg (by decide)]
  · have hcode : t.descriptor 0x1B = some ⟨0,2 ^ 20 - 1,0xFA,0xC⟩ := ht.descriptor (by simp [segments])
    rw [hcs, hcode, if_neg (by decide)]
    dsimp only
    rw [if_neg (by decide), if_neg (by decide)]

theorem returnStack_user (ht : Installed sym esp0 t) : returnStack t 3 0x23 = .ok () := by
  have hdata : t.descriptor 0x23 = some ⟨0,2 ^ 20 - 1,0xF2,0xC⟩ := ht.descriptor (by simp [segments])
  unfold returnStack
  rw [hdata, if_neg (by decide)]
  dsimp only
  rw [if_neg (by decide), if_neg (by decide), if_neg (by decide)]

def resumed (c : Cpu) (f : Frame) : Cpu :=
  { c with
    gpr := f.gpr
    eip := f.eip
    seg := fun _ => c.seg .ds }

theorem iret_frame (ht : Installed sym esp0 t) (hc : Context t c) {s : State} {f : Frame} (hcs : f.cs = c.cs.toUInt32)
    (hfl : f.eflags = c.eflags) (hs : OnStack s (f.eip :: f.cs :: f.eflags :: outerWords c)) (hcpl : s.cpu.cpl = 0)
    (hss : s.cpu.ss = 0x10) (hnt : s.cpu.eflags.toNat.testBit 14 = false) (hgpr : s.cpu.gpr = f.gpr)
    (hseg : s.cpu.seg = fun _ => c.seg .ds) (hesp : c.cpl = 0 → s.cpu.esp + 12 = c.esp) :
    iret t s = .ok ⟨resumed c f,s.mem⟩ := by
  have htarget := hc.returnTarget ht
  have hsel : f.cs.toUInt16 = c.cs := by rw [hcs, UInt16.toUInt16_toUInt32]
  have hvm : f.eflags.toNat.testBit 17 = false := by rw [hfl]; exact hc.vm
  rw [← hsel] at htarget
  rcases hc.cases with ⟨h0,hcode,hstack⟩ | ⟨h3,hcode,hstack⟩
  · have hrpl : rpl f.cs.toUInt16 = 0 := by
      rw [hsel]
      exact h0
    rw [iret_same hcpl hnt hvm htarget hs hrpl, hsel, hfl, hesp h0]
    simp only [resumed, hgpr, hseg, hss, hstack]
  · have hrpl : rpl f.cs.toUInt16 = 3 := by
      rw [hsel]
      exact h3
    have houter : outerWords c = [c.esp, c.ss.toUInt32] := if_neg (by omega)
    have hss' : c.ss.toUInt32.toUInt16 = c.ss := UInt16.toUInt16_toUInt32 _
    have hds : outerSeg t 3 (c.seg .ds) = c.seg .ds := outerSeg_of_loadable (h3 ▸ hc.ds) hc.null
    rw [houter] at hs
    rw [iret_outer hcpl hnt hvm htarget hs (by omega) (by rw [hrpl, hss', hstack]; exact returnStack_user ht), hsel, hfl, hss']
    simp only [resumed, hgpr, hseg, hsel ▸ hrpl, hds]

theorem run_commonExit (ht : Installed sym esp0 t) (hc : Context t c) {s : State} {p : UInt32} {f : Frame}
    (hs : OnStack s (p :: (f.words ++ outerWords c))) (hds : f.ds.toUInt16 = c.seg .ds) (hcs : f.cs = c.cs.toUInt32)
    (hfl : f.eflags = c.eflags) (hcpl : s.cpu.cpl = 0) (hss : s.cpu.ss = 0x10)
    (hnt : s.cpu.eflags.toNat.testBit 14 = false) (hesp : c.cpl = 0 → s.cpu.esp + 60 = c.esp) :
    run t commonExit s = .ok ⟨resumed c f,s.mem⟩ := by
  have hframe : OnStack { s with cpu := { s.cpu with esp := s.cpu.esp + 4 } } (f.words ++ outerWords c) :=
    hs.drop (k := 1) (by simp) rfl rfl
  have hword : State.word { s with cpu := { s.cpu with esp := s.cpu.esp + 4 } } 0 = f.ds := hframe.word rfl
  have hload : loadable t s.cpu.cpl (c.seg .ds) = .ok () := by
    rw [hcpl]
    exact loadable_zero hc.ds
  have hpop : exec t { s with cpu := { s.cpu with esp := s.cpu.esp + 4 } } .popEax = .ok { s with cpu := { s.cpu with
      esp := s.cpu.esp + 8
      gpr := Function.update s.cpu.gpr .eax f.ds } } := by
    have hnext : s.cpu.esp + 4 + 4 = s.cpu.esp + 8 := by grind
    simp only [exec, hword]
    rw [← hnext]
    rfl
  have hregs : OnStack { s with cpu := { s.cpu with
      esp := s.cpu.esp + 8
      gpr := Function.update s.cpu.gpr .eax f.ds
      seg := fun _ => c.seg .ds } } ((f.words ++ outerWords c).drop 1) := by
    refine hframe.drop (k := 1) (by simp [Frame.words]) rfl ?_
    change s.cpu.esp + 8 = s.cpu.esp + 4 + 4
    grind
  have hpopa : exec t { s with cpu := { s.cpu with
      esp := s.cpu.esp + 8
      gpr := Function.update s.cpu.gpr .eax f.ds
      seg := fun _ => c.seg .ds } } .popa = .ok { s with cpu := { s.cpu with
        esp := s.cpu.esp + 40
        gpr := f.gpr
        seg := fun _ => c.seg .ds } } := by
    have hnext : s.cpu.esp + 8 + UInt32.ofNat (4 * 8) = s.cpu.esp + 40 := by
      change s.cpu.esp + 8 + 32 = _
      grind
    simp only [exec, State.drop, hnext]
    congr 3
    funext r
    cases r with
    | edi => exact hregs.word rfl
    | esi => exact hregs.word rfl
    | ebp => exact hregs.word rfl
    | ebx => exact hregs.word rfl
    | edx => exact hregs.word rfl
    | ecx => exact hregs.word rfl
    | eax => exact hregs.word rfl
  have hadd : exec t { s with cpu := { s.cpu with
      esp := s.cpu.esp + 40
      gpr := f.gpr
      seg := fun _ => c.seg .ds } } (.addEsp 8) = .ok { s with cpu := { s.cpu with
        esp := s.cpu.esp + 48
        gpr := f.gpr
        seg := fun _ => c.seg .ds } } := by
    have hnext : s.cpu.esp + 40 + 8 = s.cpu.esp + 48 := by grind
    simp only [exec, hnext]
  have hret : OnStack { s with cpu := { s.cpu with
      esp := s.cpu.esp + 48
      gpr := f.gpr
      seg := fun _ => c.seg .ds } } (f.eip :: f.cs :: f.eflags :: outerWords c) := by
    refine hregs.drop (k := 10) (by simp [Frame.words]) rfl ?_
    change s.cpu.esp + 48 = s.cpu.esp + 8 + 40
    grind
  have hend : exec t { s with cpu := { s.cpu with
      esp := s.cpu.esp + 48
      gpr := f.gpr
      seg := fun _ => c.seg .ds } } .iret = .ok ⟨resumed c f,s.mem⟩ := by
    refine iret_frame ht hc hcs hfl hret hcpl hss hnt rfl rfl fun h0 => ?_
    rw [← hesp h0]
    change s.cpu.esp + 48 + 12 = _
    grind
  have hsel : (Function.update s.cpu.gpr .eax f.ds .eax).toUInt16 = c.seg .ds := by
    rw [Function.update_self]
    exact hds
  rw [commonExit, run_cons rfl, run_cons hpop]
  refine (run_loadSegs (s := { s with cpu := { s.cpu with
    esp := s.cpu.esp + 8
    gpr := Function.update s.cpu.gpr .eax f.ds } }) hsel hload _).trans ?_
  rw [run_cons hpopa, run_cons hadd, run_cons hend, run_nil]

/-! ## The way through the kernel -/

theorem words_length (f : Frame) : f.words.length = 14 := rfl

theorem outerWords_length_le (c : Cpu) : (outerWords c).length ≤ 2 := by
  unfold outerWords
  split <;> simp

theorem run_entry (ht : Installed sym esp0 t) (trap : Trap) (hroom : 68 ≤ (stackTop esp0 c).toNat) :
    run t (trap.stub ++ commonEntry) (stacked (entered sym c trap) m (stackTop esp0 c)
        ((outerWords c).reverse ++ [c.eflags, c.cs.toUInt32, c.eip] ++ trap.error.toList)) =
      .ok (stacked (kernelSegments (entered sym c trap)) m (stackTop esp0 c)
        (((frameOf esp0 c trap).words ++ outerWords c).reverse ++
          [stackTop esp0 c - UInt32.ofNat (4 * ((outerWords c).length + 14))])) := by
  have hlen := outerWords_length_le c
  have hbase : ((outerWords c).reverse ++ [c.eflags, c.cs.toUInt32, c.eip]).length = (outerWords c).length + 3 := by simp
  have hcpl : (entered sym c trap).cpl = 0 := by
    change (0x08 : UInt16).toNat % 4 = 0
    decide
  have hstub : run t trap.stub (stacked (entered sym c trap) m (stackTop esp0 c)
      ((outerWords c).reverse ++ [c.eflags, c.cs.toUInt32, c.eip] ++ trap.error.toList)) = _ := run_stub (by omega) trap
  have hentry : run t commonEntry (stacked (entered sym c trap) m (stackTop esp0 c)
      ((outerWords c).reverse ++ [c.eflags, c.cs.toUInt32, c.eip] ++ [trap.error.getD 0, trap.vector.toUInt32])) = _ :=
    run_commonEntry ht hcpl (by simp only [List.length_append, hbase, List.length_cons, List.length_nil]; omega)
  have hpushed : ((outerWords c).reverse ++ [c.eflags, c.cs.toUInt32, c.eip] ++
      [trap.error.getD 0, trap.vector.toUInt32]).length = (outerWords c).length + 5 := by simp
  rw [run_append hstub, hentry, hpushed]
  simp only [frameOf, Frame.words, List.reverse_cons, List.nil_append, List.append_assoc, List.cons_append]
  rfl

structure Called (esp0 : UInt32) (c : Cpu) (m : Mem) (trap : Trap) (s : State) : Prop where
  ring : s.cpu.cs = 0x08 ∧ s.cpu.ss = 0x10 ∧ ∀ r, s.cpu.seg r = 0x10
  interrupts : s.cpu.eflags.toNat.testBit 9 = (decide (trap = .syscall) && c.eflags.toNat.testBit 9)
  argument : s.word 0 = s.cpu.esp + 4
  frame : Holds s.mem (s.cpu.esp.toNat + 4) ((frameOf esp0 c trap).words ++ outerWords c)
  depth : s.cpu.esp.toNat + 4 * (15 + (outerWords c).length) = (stackTop esp0 c).toNat
  mem : ∀ x, x < s.cpu.esp.toNat ∨ (stackTop esp0 c).toNat ≤ x → s.mem x = m x

structure Returned (s s' : State) (words : List UInt32) : Prop where
  esp : s'.cpu.esp = s.cpu.esp
  cs : s'.cpu.cs = s.cpu.cs
  ss : s'.cpu.ss = s.cpu.ss
  nt : s'.cpu.eflags.toNat.testBit 14 = false
  frame : Holds s'.mem (s.cpu.esp.toNat + 4) words

theorem entered_interrupts (sym : Symbols) (c : Cpu) (trap : Trap) :
    (entered sym c trap).eflags.toNat.testBit 9 = (decide (trap = .syscall) && c.eflags.toNat.testBit 9) := by
  have hon : (~~~(0x34100 : UInt32)).toNat.testBit 9 = true := by decide
  have hoff : (~~~(0x34300 : UInt32)).toNat.testBit 9 = false := by decide
  unfold entered
  dsimp only
  by_cases hsys : trap = .syscall
  · rw [if_pos hsys, UInt32.toNat_and, Nat.testBit_and, hon, decide_eq_true hsys, Bool.and_comm]
  · rw [if_neg hsys, UInt32.toNat_and, Nat.testBit_and, hoff, decide_eq_false hsys, Bool.and_false, Bool.false_and]

theorem called_stacked (sym : Symbols) (m : Mem) (trap : Trap) (hroom : 68 ≤ (stackTop esp0 c).toNat) :
    Called esp0 c m trap (stacked (kernelSegments (entered sym c trap)) m (stackTop esp0 c)
      (((frameOf esp0 c trap).words ++ outerWords c).reverse ++
        [stackTop esp0 c - UInt32.ofNat (4 * ((outerWords c).length + 14))])) := by
  have hlen := outerWords_length_le c
  have hpushed : (((frameOf esp0 c trap).words ++ outerWords c).reverse ++
      [stackTop esp0 c - UInt32.ofNat (4 * ((outerWords c).length + 14))]).length = (outerWords c).length + 15 := by
    simp [words_length, Nat.add_comm]
  have hfits : 4 * (((frameOf esp0 c trap).words ++ outerWords c).reverse ++
      [stackTop esp0 c - UInt32.ofNat (4 * ((outerWords c).length + 14))]).length ≤ (stackTop esp0 c).toNat := by
    rw [hpushed]
    omega
  have hon := onStack_stacked (c := kernelSegments (entered sym c trap)) (m := m) hfits
  have hesp := stacked_esp (c := kernelSegments (entered sym c trap)) (m := m) hfits
  have hrev : ∀ (ws : List UInt32) (p : UInt32), (ws.reverse ++ [p]).reverse = p :: ws := by simp
  rw [hrev] at hon
  refine ⟨⟨rfl,rfl,fun _ => rfl⟩,entered_interrupts sym c trap,?_,hon.holds.2,?_,fun x hx => ?_⟩
  · rw [hon.word rfl]
    change _ = stackTop esp0 c - UInt32.ofNat (4 * _) + 4
    rw [hpushed, show 4 * ((outerWords c).length + 15) = 4 * ((outerWords c).length + 14) + 4 by omega, UInt32.ofNat_add]
    change _ = stackTop esp0 c - (_ + 4) + 4
    grind
  · rw [hesp, hpushed]
    omega
  · rw [hesp] at hx
    exact pushes_apply hfits hx

theorem run_exit (ht : Installed sym esp0 t) (hc : Context t c) (trap : Trap) {s s' : State} (hs : Called esp0 c m trap s)
    {eax : UInt32} (hret : Returned s s' ({ frameOf esp0 c trap with eax := eax }.words ++ outerWords c)) :
    run t commonExit s' = .ok ⟨{ c with gpr := Function.update c.gpr .eax eax, seg := fun _ => c.seg .ds },s'.mem⟩ := by
  have hresumed : resumed c { frameOf esp0 c trap with eax := eax } =
      { c with gpr := Function.update c.gpr .eax eax, seg := fun _ => c.seg .ds } := by
    have hgpr : ({ frameOf esp0 c trap with eax := eax } : Frame).gpr = Function.update c.gpr .eax eax := by
      funext r
      cases r <;> rfl
    rw [resumed, hgpr]
    rfl
  rw [← hresumed]
  have hdepth := hs.depth
  have htop := (stackTop esp0 c).toNat_lt
  have hpointer : (UInt32.ofNat (read32 s'.mem s.cpu.esp.toNat)).toNat = read32 s'.mem s.cpu.esp.toNat :=
    UInt32.toNat_ofNat_of_lt' (read32_lt _ _)
  have hon : OnStack s' (UInt32.ofNat (read32 s'.mem s.cpu.esp.toNat) ::
      ({ frameOf esp0 c trap with eax := eax }.words ++ outerWords c)) := by
    refine ⟨⟨?_,?_⟩,?_⟩
    · rw [hret.esp, hpointer]
    · rw [hret.esp]
      exact hret.frame
    · rw [hret.esp, List.length_cons, List.length_append, words_length]
      omega
  refine run_commonExit ht hc hon (toUInt16_setAx _ _) rfl rfl ?_ (hret.ss.trans hs.ring.2.1) hret.nt fun h0 => ?_
  · rw [Cpu.cpl, hret.cs, hs.ring.1]
    decide
  · have hesp0 : stackTop esp0 c = c.esp := if_pos h0
    have houter : outerWords c = [] := if_pos h0
    rw [houter, hesp0] at hdepth
    apply UInt32.toNat_inj.mp
    rw [hret.esp, UInt32.toNat_add, ← hdepth]
    exact Nat.mod_eq_of_lt (by have := c.esp.toNat_lt; change _ + 60 < _; simp at hdepth; omega)

end

/-- Interrupts are transparent. From Ring 0 or Ring 3, through every gate the processor reaches the stub of the vector, and
the stub reaches the handler, in Ring 0, with the kernel's data segments, with interrupts off unless it is a system call and
with the interrupted registers in the frame, whether or not the processor has pushed an error code. When the handler has
returned, the interrupted code goes on as the frame says. Only `es`, `fs` and `gs` are lost to `ds`. -/
theorem interrupt_transparent (sym : Symbols) (gdt : Gdt) (idt : Idt) (esp0 : UInt32) (m : Mem) {c : Cpu}
    (hc : Context (tables sym gdt idt esp0) c) (trap : Trap) (hroom : 68 ≤ (stackTop esp0 c).toNat) :
    let t := tables sym gdt idt esp0
    ∃ s₀ s₁, deliver t trap.vector trap.software trap.error ⟨c,m⟩ = .ok s₀ ∧ s₀.cpu.eip = trap.stubAddress sym ∧
      run t (trap.stub ++ commonEntry) s₀ = .ok s₁ ∧ Called esp0 c m trap s₁ ∧
      ∀ s₂ eax, Returned s₁ s₂ ({ frameOf esp0 c trap with eax := eax }.words ++ outerWords c) →
        run t commonExit s₂ = .ok ⟨{ c with gpr := Function.update c.gpr .eax eax, seg := fun _ => c.seg .ds },s₂.mem⟩ := by
  intro t
  have ht : Installed sym esp0 t := tables_installed sym gdt idt esp0
  have hcalled := called_stacked sym m trap hroom
  refine ⟨_,_,deliver_trap ht hc trap hroom,rfl,run_entry ht trap hroom,hcalled,fun s₂ eax hret => ?_⟩
  exact run_exit ht hc trap hcalled hret

/-- Whatever words a handler is to leave in the frame, it can leave them. -/
theorem Called.exists_returned {esp0 : UInt32} {c : Cpu} {m : Mem} {trap : Trap} {s : State} (h : Called esp0 c m trap s)
    (words : List UInt32) (hlen : words.length = 14 + (outerWords c).length) : ∃ s', Returned s s' words := by
  have hdepth := h.depth
  have hroom : 4 * words.reverse.length ≤ (stackTop esp0 c).toNat := by
    rw [List.length_reverse]
    omega
  have hnone : Holds s.mem (stackTop esp0 c).toNat [] := trivial
  have hheld := holds_pushes hroom hnone
  rw [List.length_reverse, List.reverse_reverse, List.append_nil] at hheld
  refine ⟨⟨{ s.cpu with eflags := 2 },pushes s.mem (stackTop esp0 c).toNat words.reverse⟩,rfl,rfl,rfl,?_,?_⟩
  · change (2 : UInt32).toNat.testBit 14 = false
    decide
  · rwa [show (stackTop esp0 c).toNat - 4 * words.length = s.cpu.esp.toNat + 4 by omega] at hheld

/-- A program in Ring 3 that asks for its number, with null selectors in `es`, `fs` and `gs`. -/
def userCpu : Cpu where
  gpr r := if r = .eax then 4 else 7
  esp := 0xBFFFF000
  eip := 0x08048000
  eflags := 0x202
  cs := 0x1B
  ss := 0x23
  seg r := if r = .ds then 0x23 else 0

theorem context_user {sym : Symbols} {esp0 : UInt32} {t : Tables} (ht : Installed sym esp0 t) : Context t userCpu := by
  have hdata : t.descriptor 0x23 = some ⟨0,2 ^ 20 - 1,0xF2,0xC⟩ := ht.descriptor (by simp [segments])
  refine ⟨.inr ⟨rfl,rfl⟩,?_,fun hnull => absurd hnull (by decide),by decide⟩
  change loadable t 3 0x23 = .ok ()
  unfold loadable
  rw [hdata, if_neg (by decide)]
  dsimp only
  rw [if_neg (by decide), if_neg (by decide), if_neg (by decide)]

def someSymbols : Symbols := ⟨fun i => 0x2000 + 16 * UInt32.ofNat i,fun i => 0x2200 + 16 * UInt32.ofNat i,0x2300,0x8000⟩
def noGdt : Gdt := fun _ => ⟨0,0,0,0,0,0⟩
def noIdt : Idt := fun _ => ⟨0,0,0,0,0⟩

/-- A system call of a program in Ring 3, on the way in and out with 5 in `eax`. -/
theorem interrupt_transparent_syscall : ∃ s₀ s₁ s₂,
    deliver (tables someSymbols noGdt noIdt 0x9FC00) 0x80 true none ⟨userCpu,fun _ => 0⟩ = .ok s₀ ∧ s₀.cpu.eip = 0x2300 ∧
    run (tables someSymbols noGdt noIdt 0x9FC00) (syscallStub ++ commonEntry) s₀ = .ok s₁ ∧ s₁.cpu.cs = 0x08 ∧
    run (tables someSymbols noGdt noIdt 0x9FC00) commonExit s₂ =
      .ok ⟨{ userCpu with gpr := Function.update userCpu.gpr .eax 5, seg := fun _ => 0x23 },s₂.mem⟩ := by
  obtain ⟨s₀,s₁,hdeliver,heip,hentry,hcalled,hexit⟩ := interrupt_transparent someSymbols noGdt noIdt 0x9FC00 (fun _ => 0)
    (context_user (tables_installed someSymbols noGdt noIdt 0x9FC00)) .syscall (by decide)
  obtain ⟨s₂,hret⟩ := hcalled.exists_returned
    ({ frameOf 0x9FC00 userCpu .syscall with eax := 5 }.words ++ outerWords userCpu) (by rw [List.length_append]; rfl)
  exact ⟨s₀,s₁,s₂,hdeliver,heip,hentry,hcalled.ring.1,hexit s₂ 5 hret⟩

theorem openGate_int {sym : Symbols} {esp0 : UInt32} {t : Tables} (ht : Installed sym esp0 t) {v : UInt8} (hv : v ≠ 0x80) :
    openGate t 3 v true = .error (.gp (8 * v.toNat + 2)) := by
  unfold openGate
  rw [ht.gate]
  cases stubOf sym v with
  | none => rfl
  | some h => simp [hv, Gate.isOther, Gate.isInterrupt, Gate.isTrap, Gate.kind, Gate.dpl]

/-- Ring 3 gets into the kernel by `INT` only through the gate for system calls. With any other vector it ends in a general
protection fault, which enters `isr13` with the ring of the task in its frame. -/
theorem int_from_user (sym : Symbols) (gdt : Gdt) (idt : Idt) (esp0 : UInt32) (m : Mem) {c : Cpu}
    (hc : Context (tables sym gdt idt esp0) c) (huser : c.cs = 0x1B) (hroom : 68 ≤ esp0.toNat) (v : UInt8) :
    let t := tables sym gdt idt esp0
    if v = 0x80 then ∃ s, deliver t v true none ⟨c,m⟩ = .ok s ∧ s.cpu.eip = sym.syscallStub ∧ s.cpu.cs = 0x08
    else deliver t v true none ⟨c,m⟩ = .error (.gp (8 * v.toNat + 2)) ∧
      ∃ s, deliver t 13 false (some (UInt32.ofNat (8 * v.toNat + 2))) ⟨c,m⟩ = .ok s ∧ s.cpu.eip = sym.isr 13 ∧
        s.cpu.cs = 0x08 ∧ (frameOf esp0 c (.exception 13 (UInt32.ofNat (8 * v.toNat + 2)))).cs &&& 3 = 3 := by
  intro t
  have ht : Installed sym esp0 t := tables_installed sym gdt idt esp0
  have hcpl : c.cpl = 3 := congrArg (·.toNat % 4) huser
  have htop : stackTop esp0 c = esp0 := if_neg (by omega)
  rw [← htop] at hroom
  split
  · rename_i hv
    subst hv
    exact ⟨_,deliver_trap ht hc .syscall hroom,rfl,rfl⟩
  · rename_i hv
    refine ⟨?_,_,deliver_trap ht hc (.exception 13 (UInt32.ofNat (8 * v.toNat + 2))) hroom,rfl,rfl,?_⟩
    · have hgate := openGate_int ht hv
      rw [← hcpl] at hgate
      unfold deliver
      simp only [hgate, bind, Except.bind]
    · change c.cs.toUInt32 &&& 3 = 3
      rw [huser]
      decide

theorem int_from_user_breakpoint :
    deliver (tables someSymbols noGdt noIdt 0x9FC00) 3 true none ⟨userCpu,fun _ => 0⟩ = .error (.gp 26) := by
  have hint := int_from_user someSymbols noGdt noIdt 0x9FC00 (fun _ => 0)
    (context_user (tables_installed someSymbols noGdt noIdt 0x9FC00)) rfl (by decide) 3
  rw [if_neg (by decide)] at hint
  exact hint.1

end ApPa.Arch

import ApPa.Lib.WordStack

/-! # Protected mode of a 32-bit processor

Segment descriptors and gates as the processor reads them from its tables, the delivery of an interrupt through a gate, and
the return from it. Stacks are flat segments; task gates, 16-bit gates and virtual-8086 mode are not modelled and show as
`unmodelled`.
-/
namespace ApPa.Protected
open ByteMem LittleEndian WordStack

inductive Gpr where
  | eax
  | ecx
  | edx
  | ebx
  | ebp
  | esi
  | edi
  deriving DecidableEq, Repr

inductive DataSeg where
  | ds
  | es
  | fs
  | gs
  deriving DecidableEq, Repr

structure Cpu where
  gpr : Gpr → UInt32
  esp : UInt32
  eip : UInt32
  eflags : UInt32
  cs : UInt16
  ss : UInt16
  seg : DataSeg → UInt16

structure State where
  cpu : Cpu
  mem : Mem

/-- The ring is the one of the code selector. -/
def Cpu.cpl (c : Cpu) : ℕ := c.cs.toNat % 4

inductive Fault where
  | gp (error : ℕ)
  | np (error : ℕ)
  | ts (error : ℕ)
  | ss (error : ℕ)
  | unmodelled
  deriving DecidableEq, Repr

/-! ## Descriptors -/

structure Descriptor where
  base : ℕ
  limit : ℕ
  access : UInt8
  flags : ℕ
  deriving DecidableEq, Repr

namespace Descriptor

def decode : List UInt8 → Option Descriptor
  | [l0, l1, b0, b1, b2, access, fl, b3] =>
    some ⟨leNat [b0, b1, b2, b3],leNat [l0, l1] + 2 ^ 16 * (fl.toNat % 16),access,fl.toNat / 16⟩
  | _ => none

variable (d : Descriptor)

def present : Bool := d.access.toNat.testBit 7
def dpl : ℕ := d.access.toNat / 32 % 4
def isData : Bool := d.access.toNat.testBit 4 && !d.access.toNat.testBit 3
def isCode : Bool := d.access.toNat.testBit 4 && d.access.toNat.testBit 3
def conforming : Bool := d.isCode && d.access.toNat.testBit 2
def writable : Bool := d.isData && d.access.toNat.testBit 1
def readable : Bool := d.isData || d.isCode && d.access.toNat.testBit 1

/-- All of the linear address space. -/
def flat : Bool := d.base == 0 && d.limit == 2 ^ 20 - 1 && d.flags.testBit 3

end Descriptor

structure Gate where
  offset : ℕ
  selector : UInt16
  attr : UInt8
  deriving DecidableEq, Repr

namespace Gate

def decode : List UInt8 → Option Gate
  | [o0, o1, s0, s1, _, attr, o2, o3] => some ⟨leNat [o0, o1, o2, o3],UInt16.ofNat (leNat [s0, s1]),attr⟩
  | _ => none

variable (g : Gate)

def present : Bool := g.attr.toNat.testBit 7
def dpl : ℕ := g.attr.toNat / 32 % 4
def kind : ℕ := g.attr.toNat % 32
def isInterrupt : Bool := g.kind == 14
def isTrap : Bool := g.kind == 15
def isOther : Bool := g.kind == 5 || g.kind == 6 || g.kind == 7

end Gate

/-- The two descriptor tables up to their limits, and the task state segment. -/
structure Tables where
  gdt : List UInt8
  idt : List UInt8
  tss : List UInt8

/-- An entry of eight bytes, if it is within the limit. -/
def entry (table : List UInt8) (i : ℕ) : Option (List UInt8) :=
  if 8 * i + 8 ≤ table.length then some ((table.drop (8 * i)).take 8) else none

namespace Tables
variable (t : Tables)

/-- There is no local table. -/
def descriptor (sel : UInt16) : Option Descriptor :=
  if sel.toNat / 4 % 2 = 1 then none else (entry t.gdt (sel.toNat / 8)).bind Descriptor.decode

def gate (vector : UInt8) : Option Gate := (entry t.idt vector.toNat).bind Gate.decode

def esp0 : UInt32 := UInt32.ofNat (leNat ((t.tss.drop 4).take 4))
def ss0 : UInt16 := UInt16.ofNat (leNat ((t.tss.drop 8).take 2))

end Tables

def isNull (sel : UInt16) : Bool := sel.toNat / 4 == 0
def rpl (sel : UInt16) : ℕ := sel.toNat % 4

/-- The part of an error code that names a selector. -/
def selError (sel : UInt16) : ℕ := sel.toNat / 4 * 4

/-! ## The stack -/

namespace State
variable (s : State)

def push (v : UInt32) : State :=
  ⟨{ s.cpu with esp := s.cpu.esp - 4 },write32 s.mem (s.cpu.esp - 4).toNat v.toNat⟩

def pushes (vs : List UInt32) : State := vs.foldl push s

def word (k : ℕ) : UInt32 := UInt32.ofNat (read32 s.mem (s.cpu.esp + UInt32.ofNat (4 * k)).toNat)

def drop (k : ℕ) : State := { s with cpu := { s.cpu with esp := s.cpu.esp + UInt32.ofNat (4 * k) } }

end State

/-! ## Loading segment registers -/

/-- A data segment register takes the null selector, or a segment that the ring may read. -/
def loadable (t : Tables) (cpl : ℕ) (sel : UInt16) : Except Fault Unit :=
  if isNull sel then .ok ()
  else
    match t.descriptor sel with
    | none => .error (.gp (selError sel))
    | some d =>
      if !d.readable then .error (.gp (selError sel))
      else if !d.conforming && (d.dpl < cpl || d.dpl < rpl sel) then .error (.gp (selError sel))
      else if !d.present then .error (.np (selError sel))
      else .ok ()

def innerStack (t : Tables) (dpl ext : ℕ) : Except Fault Unit :=
  if isNull t.ss0 then .error (.ts ext)
  else
    match t.descriptor t.ss0 with
    | none => .error (.ts (selError t.ss0 + ext))
    | some d =>
      if rpl t.ss0 ≠ dpl ∨ d.dpl ≠ dpl ∨ d.writable = false then .error (.ts (selError t.ss0 + ext))
      else if d.present = false then .error (.ss (selError t.ss0 + ext))
      else if d.flat = false then .error .unmodelled
      else .ok ()

/-! ## Delivery -/

/-- An interrupt gate clears the interrupt flag, a trap gate does not. -/
def entryFlags (g : Gate) (eflags : UInt32) : UInt32 :=
  eflags &&& ~~~(if g.isInterrupt then 0x34300 else 0x34100)

/-- The gate of a vector. `software` is an `INT` instruction. -/
def openGate (t : Tables) (cpl : ℕ) (vector : UInt8) (software : Bool) : Except Fault Gate :=
  let ext := if software then 0 else 1
  let error := 8 * vector.toNat + 2 + ext
  match t.gate vector with
  | none => .error (.gp error)
  | some g =>
    if g.isOther then .error .unmodelled
    else if !(g.isInterrupt || g.isTrap) then .error (.gp error)
    else if software && g.dpl < cpl then .error (.gp error)
    else if !g.present then .error (.np error)
    else .ok g

def gateTarget (t : Tables) (cpl : ℕ) (g : Gate) (ext : ℕ) : Except Fault Descriptor :=
  if isNull g.selector then .error (.gp ext)
  else
    match t.descriptor g.selector with
    | none => .error (.gp (selError g.selector + ext))
    | some d =>
      if !d.isCode || cpl < d.dpl then .error (.gp (selError g.selector + ext))
      else if !d.present then .error (.np (selError g.selector + ext))
      else .ok d

/-- An inner ring gets the stack of the task state segment and the old stack pointer on it. -/
def deliver (t : Tables) (vector : UInt8) (software : Bool) (error : Option UInt32) (s : State) : Except Fault State := do
  let c := s.cpu
  let ext := if software then 0 else 1
  let g ← openGate t c.cpl vector software
  let d ← gateTarget t c.cpl g ext
  let inner := !d.conforming && d.dpl < c.cpl
  if inner then innerStack t d.dpl ext
  let frame := [c.eflags, c.cs.toUInt32, c.eip] ++ error.toList
  let s' := if inner
    then State.pushes ⟨{ c with esp := t.esp0, ss := t.ss0 },s.mem⟩ ([c.ss.toUInt32, c.esp] ++ frame)
    else s.pushes frame
  let ring := if inner then d.dpl else c.cpl
  return { s' with cpu := { s'.cpu with
    cs := UInt16.ofNat (g.selector.toNat / 4 * 4 + ring)
    eip := UInt32.ofNat g.offset
    eflags := entryFlags g c.eflags } }

/-! ## Return -/

def returnTarget (t : Tables) (cpl : ℕ) (sel : UInt16) : Except Fault Unit :=
  if isNull sel then .error (.gp 0)
  else
    match t.descriptor sel with
    | none => .error (.gp (selError sel))
    | some d =>
      if rpl sel < cpl ∨ d.isCode = false ∨ (if d.conforming then rpl sel < d.dpl else d.dpl ≠ rpl sel)
      then .error (.gp (selError sel))
      else if d.present = false then .error (.np (selError sel))
      else .ok ()

def returnStack (t : Tables) (ring : ℕ) (sel : UInt16) : Except Fault Unit :=
  if isNull sel then .error (.gp 0)
  else
    match t.descriptor sel with
    | none => .error (.gp (selError sel))
    | some d =>
      if rpl sel ≠ ring ∨ d.dpl ≠ ring ∨ d.writable = false then .error (.gp (selError sel))
      else if d.present = false then .error (.ss (selError sel))
      else if d.flat = false then .error .unmodelled
      else .ok ()

/-- A data segment of an inner ring does not survive the return to an outer one. -/
def outerSeg (t : Tables) (ring : ℕ) (sel : UInt16) : UInt16 :=
  match t.descriptor sel with
  | none => 0
  | some d => if isNull sel || !d.conforming && d.dpl < ring then 0 else sel

/-- `iret` of ring 0. -/
def iret (t : Tables) (s : State) : Except Fault State := do
  if s.cpu.cpl ≠ 0 ∨ s.cpu.eflags.toNat.testBit 14 ∨ (s.word 2).toNat.testBit 17 then throw .unmodelled
  let cs := (s.word 1).toUInt16
  returnTarget t 0 cs
  let c := { (s.drop 3).cpu with eip := s.word 0, cs := cs, eflags := s.word 2 }
  if rpl cs = 0 then return { s with cpu := c }
  let ss := (s.word 4).toUInt16
  returnStack t (rpl cs) ss
  return { s with cpu := { c with esp := s.word 3, ss := ss, seg := fun r => outerSeg t (rpl cs) (s.cpu.seg r) } }

/-! ## Straight code -/

inductive Instr where
  | pushImm (v : UInt32)
  | pusha
  | popa
  | movAxDs
  | movAxImm (v : UInt16)
  | movSegAx (r : DataSeg)
  | pushEax
  | popEax
  | pushEsp
  | addEsp (n : UInt32)
  | iret
  deriving DecidableEq, Repr

/-- `ax` as the low half of `eax`. -/
def setAx (eax : UInt32) (v : UInt16) : UInt32 := eax &&& 0xFFFF0000 ||| v.toUInt32

def exec (t : Tables) (s : State) : Instr → Except Fault State
  | .pushImm v => .ok (s.push v)
  | .pusha => .ok (s.pushes [s.cpu.gpr .eax, s.cpu.gpr .ecx, s.cpu.gpr .edx, s.cpu.gpr .ebx, s.cpu.esp, s.cpu.gpr .ebp,
      s.cpu.gpr .esi, s.cpu.gpr .edi])
  | .popa => .ok { s with cpu := { (s.drop 8).cpu with gpr := fun
      | .edi => s.word 0
      | .esi => s.word 1
      | .ebp => s.word 2
      | .ebx => s.word 4
      | .edx => s.word 5
      | .ecx => s.word 6
      | .eax => s.word 7 } }
  | .movAxDs => .ok { s with cpu := { s.cpu with
      gpr := Function.update s.cpu.gpr .eax (setAx (s.cpu.gpr .eax) (s.cpu.seg .ds)) } }
  | .movAxImm v => .ok { s with cpu := { s.cpu with gpr := Function.update s.cpu.gpr .eax (setAx (s.cpu.gpr .eax) v) } }
  | .movSegAx r => do
    let sel := (s.cpu.gpr .eax).toUInt16
    loadable t s.cpu.cpl sel
    return { s with cpu := { s.cpu with seg := Function.update s.cpu.seg r sel } }
  | .pushEax => .ok (s.push (s.cpu.gpr .eax))
  | .popEax => .ok { s with cpu := { (s.drop 1).cpu with gpr := Function.update s.cpu.gpr .eax (s.word 0) } }
  | .pushEsp => .ok (s.push s.cpu.esp)
  | .addEsp n => .ok { s with cpu := { s.cpu with esp := s.cpu.esp + n } }
  | .iret => iret t s

def run (t : Tables) (code : List Instr) (s : State) : Except Fault State := code.foldlM (exec t) s

/-! ## Facts -/

section
variable {t : Tables} {s : State}

theorem entry_flatMap {f : ℕ → List UInt8} (hf : ∀ i, (f i).length = 8) {n i : ℕ} (hi : i < n) :
    entry ((List.range n).flatMap f) i = some (f i) := by
  have hlen : ∀ k, ((List.range k).flatMap f).length = 8 * k := by
    intro k
    induction k with
    | zero => rfl
    | succ k ih => simp [List.range_succ, hf, ih, Nat.mul_succ]
  have hsplit : ∀ k, i < k → ∃ rest, (List.range k).flatMap f = (List.range i).flatMap f ++ (f i ++ rest) := by
    intro k hk
    induction k with
    | zero => exact absurd hk (Nat.not_lt_zero i)
    | succ k ih =>
      rw [List.range_succ, List.flatMap_append, List.flatMap_singleton]
      by_cases hik : i = k
      · exact ⟨[],by rw [hik, List.append_nil]⟩
      · obtain ⟨rest,hrest⟩ := ih (by omega)
        exact ⟨rest ++ f k,by simp [hrest]⟩
  obtain ⟨rest,hrest⟩ := hsplit n hi
  rw [entry, if_pos (by rw [hlen]; omega), hrest, ← hlen i, List.drop_left, ← hf i, List.take_left]

theorem pushes_eq {vs : List UInt32} (h : 4 * vs.length ≤ s.cpu.esp.toNat) :
    s.pushes vs = ⟨{ s.cpu with esp := s.cpu.esp - UInt32.ofNat (4 * vs.length) },
      WordStack.pushes s.mem s.cpu.esp.toNat vs⟩ := by
  induction vs generalizing s with
  | nil => simp [State.pushes, WordStack.pushes]
  | cons v vs ih =>
    simp only [List.length_cons] at h ⊢
    have hsub : (s.cpu.esp - 4).toNat = s.cpu.esp.toNat - 4 :=
      UInt32.toNat_sub_of_le _ _ (UInt32.le_iff_toNat_le.mpr (by change 4 ≤ _; omega))
    have hpush : s.push v = ⟨{ s.cpu with esp := s.cpu.esp - 4 },write32 s.mem (s.cpu.esp.toNat - 4) v.toNat⟩ := by
      rw [State.push, hsub]
    change (s.push v).pushes vs = _
    rw [ih (by rw [hpush]; dsimp only; omega), hpush]
    dsimp only
    have hnext : s.cpu.esp - 4 - UInt32.ofNat (4 * vs.length) = s.cpu.esp - UInt32.ofNat (4 * (vs.length + 1)) := by
      rw [Nat.mul_add, UInt32.ofNat_add]
      grind
    rw [hsub, WordStack.pushes, hnext]

def stacked (c : Cpu) (m : Mem) (top : UInt32) (vs : List UInt32) : State :=
  ⟨{ c with esp := top - UInt32.ofNat (4 * vs.length) },WordStack.pushes m top.toNat vs⟩

theorem stacked_esp {c : Cpu} {m : Mem} {top : UInt32} {vs : List UInt32} (h : 4 * vs.length ≤ top.toNat) :
    (stacked c m top vs).cpu.esp.toNat = top.toNat - 4 * vs.length := by
  have hlt := top.toNat_lt
  have hofNat : (UInt32.ofNat (4 * vs.length)).toNat = 4 * vs.length := UInt32.toNat_ofNat_of_lt' (by change _ < 2 ^ 32; omega)
  change (top - UInt32.ofNat (4 * vs.length)).toNat = _
  rw [UInt32.toNat_sub_of_le _ _ (UInt32.le_iff_toNat_le.mpr (by omega)), hofNat]

theorem stacked_pushes {c : Cpu} {m : Mem} {top : UInt32} {vs ws : List UInt32} (h : 4 * (vs.length + ws.length) ≤ top.toNat) :
    (stacked c m top vs).pushes ws = stacked c m top (vs ++ ws) := by
  have hsub : (top - UInt32.ofNat (4 * vs.length)).toNat = top.toNat - 4 * vs.length :=
    stacked_esp (c := c) (m := m) (by omega)
  have hnext : top - UInt32.ofNat (4 * vs.length) - UInt32.ofNat (4 * ws.length) =
      top - UInt32.ofNat (4 * (vs ++ ws).length) := by
    rw [List.length_append, Nat.mul_add, UInt32.ofNat_add]
    grind
  unfold stacked
  rw [pushes_eq (by dsimp only; omega)]
  dsimp only
  rw [hnext, hsub, pushes_append]

theorem stacked_push {c : Cpu} {m : Mem} {top : UInt32} {vs : List UInt32} (h : 4 * (vs.length + 1) ≤ top.toNat) (v : UInt32) :
    (stacked c m top vs).push v = stacked c m top (vs ++ [v]) := by
  change (stacked c m top vs).pushes [v] = _
  exact stacked_pushes h

structure OnStack (s : State) (vs : List UInt32) : Prop where
  holds : Holds s.mem s.cpu.esp.toNat vs
  room : s.cpu.esp.toNat + 4 * vs.length < 2 ^ 32

theorem onStack_stacked {c : Cpu} {m : Mem} {top : UInt32} {vs : List UInt32} (h : 4 * vs.length ≤ top.toNat) :
    OnStack (stacked c m top vs) vs.reverse := by
  have hesp := stacked_esp (c := c) (m := m) h
  have hlt := top.toNat_lt
  refine ⟨?_,?_⟩
  · rw [hesp]
    have hholds := holds_pushes (m := m) h (show Holds m top.toNat [] from trivial)
    rwa [List.append_nil] at hholds
  · rw [hesp, List.length_reverse]
    omega

namespace OnStack
variable {vs : List UInt32}

theorem toNat_add (h : OnStack s vs) {k : ℕ} (hk : k ≤ vs.length) :
    (s.cpu.esp + UInt32.ofNat (4 * k)).toNat = s.cpu.esp.toNat + 4 * k := by
  have hroom := h.room
  rw [UInt32.toNat_add, UInt32.toNat_ofNat', Nat.mod_eq_of_lt (by omega : 4 * k < 2 ^ 32), Nat.mod_eq_of_lt (by omega)]

theorem word (h : OnStack s vs) {k : ℕ} {v : UInt32} (hk : vs[k]? = some v) : s.word k = v := by
  have hlt := (List.getElem?_eq_some_iff.mp hk).1
  rw [State.word, h.toNat_add hlt.le, h.holds.read hk, UInt32.ofNat_toNat]

theorem drop (h : OnStack s vs) {k : ℕ} (hk : k ≤ vs.length) {s' : State} (hmem : s'.mem = s.mem)
    (hesp : s'.cpu.esp = s.cpu.esp + UInt32.ofNat (4 * k)) : OnStack s' (vs.drop k) := by
  have hadd := h.toNat_add hk
  have hroom := h.room
  have hholds := h.holds
  rw [← List.take_append_drop k vs] at hholds
  have hrest := hholds.append.2
  rw [List.length_take, Nat.min_eq_left hk] at hrest
  refine ⟨?_,?_⟩
  · rw [hmem, hesp, hadd]
    exact hrest
  · rw [hesp, hadd, List.length_drop]
    omega

end OnStack

section
variable {vector : UInt8} {software : Bool} {error : Option UInt32} {g : Gate} {d : Descriptor}
  (hg : openGate t s.cpu.cpl vector software = .ok g) (hd : gateTarget t s.cpu.cpl g (if software then 0 else 1) = .ok d)
include hg hd

theorem deliver_inner (hring : (!d.conforming && d.dpl < s.cpu.cpl) = true)
    (hstack : innerStack t d.dpl (if software then 0 else 1) = .ok ())
    (hroom : 4 * (5 + error.toList.length) ≤ t.esp0.toNat) :
    deliver t vector software error s = .ok (stacked { s.cpu with
        ss := t.ss0
        cs := UInt16.ofNat (g.selector.toNat / 4 * 4 + d.dpl)
        eip := UInt32.ofNat g.offset
        eflags := entryFlags g s.cpu.eflags } s.mem t.esp0
      ([s.cpu.ss.toUInt32, s.cpu.esp, s.cpu.eflags, s.cpu.cs.toUInt32, s.cpu.eip] ++ error.toList)) := by
  have hpush : State.pushes ⟨{ s.cpu with esp := t.esp0, ss := t.ss0 },s.mem⟩
      ([s.cpu.ss.toUInt32, s.cpu.esp] ++ ([s.cpu.eflags, s.cpu.cs.toUInt32, s.cpu.eip] ++ error.toList)) = _ :=
    pushes_eq (by simp only [List.length_append, List.length_cons, List.length_nil]; omega)
  unfold deliver
  simp only [hg, hd, hring, hstack, bind, Except.bind, if_true, hpush]
  rfl

theorem deliver_same (hring : (!d.conforming && d.dpl < s.cpu.cpl) = false)
    (hroom : 4 * (3 + error.toList.length) ≤ s.cpu.esp.toNat) :
    deliver t vector software error s = .ok (stacked { s.cpu with
        cs := UInt16.ofNat (g.selector.toNat / 4 * 4 + s.cpu.cpl)
        eip := UInt32.ofNat g.offset
        eflags := entryFlags g s.cpu.eflags } s.mem s.cpu.esp
      ([s.cpu.eflags, s.cpu.cs.toUInt32, s.cpu.eip] ++ error.toList)) := by
  have hpush : s.pushes ([s.cpu.eflags, s.cpu.cs.toUInt32, s.cpu.eip] ++ error.toList) = _ :=
    pushes_eq (by simp only [List.length_append, List.length_cons, List.length_nil]; omega)
  unfold deliver
  simp only [hg, hd, hring, bind, Except.bind, Bool.false_eq_true, if_false, hpush]
  rfl

end

section
variable {eip cs eflags : UInt32} {rest : List UInt32} (hcpl : s.cpu.cpl = 0) (hnt : s.cpu.eflags.toNat.testBit 14 = false)
  (hvm : eflags.toNat.testBit 17 = false) (htarget : returnTarget t 0 cs.toUInt16 = .ok ())
include hcpl hnt hvm htarget

theorem iret_same (h : OnStack s (eip :: cs :: eflags :: rest)) (hrpl : rpl cs.toUInt16 = 0) :
    iret t s = .ok { s with cpu := { s.cpu with
      esp := s.cpu.esp + 12
      eip := eip
      cs := cs.toUInt16
      eflags := eflags } } := by
  have h0 : s.word 0 = eip := h.word rfl
  have h1 : s.word 1 = cs := h.word rfl
  have h2 : s.word 2 = eflags := h.word rfl
  unfold iret
  simp only [h0, h1, h2, hcpl, hnt, hvm, htarget, hrpl, bind, Except.bind]
  rfl

theorem iret_outer {esp ss : UInt32} (h : OnStack s (eip :: cs :: eflags :: esp :: ss :: rest)) (hrpl : rpl cs.toUInt16 ≠ 0)
    (hstack : returnStack t (rpl cs.toUInt16) ss.toUInt16 = .ok ()) :
    iret t s = .ok { s with cpu := { s.cpu with
      esp := esp
      eip := eip
      cs := cs.toUInt16
      eflags := eflags
      ss := ss.toUInt16
      seg := fun r => outerSeg t (rpl cs.toUInt16) (s.cpu.seg r) } } := by
  have h0 : s.word 0 = eip := h.word rfl
  have h1 : s.word 1 = cs := h.word rfl
  have h2 : s.word 2 = eflags := h.word rfl
  have h3 : s.word 3 = esp := h.word rfl
  have h4 : s.word 4 = ss := h.word rfl
  unfold iret
  simp only [h0, h1, h2, h3, h4, hcpl, hnt, hvm, htarget, hstack, if_neg hrpl, bind, Except.bind]
  rfl

end

@[simp] theorem run_nil : run t [] s = .ok s := rfl

theorem run_cons {i : Instr} {code : List Instr} {s' : State} (h : exec t s i = .ok s') :
    run t (i :: code) s = run t code s' := by
  change (exec t s i).bind (run t code) = _
  rw [h]
  rfl

theorem run_append {code code' : List Instr} {s' : State} (h : run t code s = .ok s') :
    run t (code ++ code') s = run t code' s' := by
  rw [run, List.foldlM_append]
  change (run t code s).bind _ = _
  rw [h]
  rfl

theorem loadable_zero {cpl : ℕ} {sel : UInt16} (h : loadable t cpl sel = .ok ()) : loadable t 0 sel = .ok () := by
  unfold loadable at h ⊢
  split at h
  · rename_i hnull
    rw [if_pos hnull]
  · rename_i hnull
    rw [if_neg hnull]
    split at h
    · cases h
    · rename_i d hd
      split at h
      · cases h
      · rename_i hread
        split at h
        · cases h
        · rename_i hring
          split at h
          · cases h
          · rename_i hpresent
            have hring0 : ¬(!d.conforming && (decide (d.dpl < 0) || decide (d.dpl < rpl sel))) = true := by
              simp only [Bool.and_eq_true, Bool.or_eq_true, Bool.not_eq_true', decide_eq_true_eq] at hring ⊢
              exact fun hlow => hring ⟨hlow.1,.inr (hlow.2.resolve_left (Nat.not_lt_zero _))⟩
            simp only [if_neg hread, if_neg hring0, if_neg hpresent]

/-- What a ring could load survives the return to it. -/
theorem outerSeg_of_loadable {ring : ℕ} {sel : UInt16} (h : loadable t ring sel = .ok ()) (hnull : isNull sel → sel = 0) :
    outerSeg t ring sel = sel := by
  unfold outerSeg
  unfold loadable at h
  by_cases hsel : isNull sel = true
  · have hzero := hnull hsel
    split
    · exact hzero.symm
    · simp [hzero]
  · rw [if_neg hsel] at h
    split at h
    · cases h
    · split at h
      · cases h
      · split at h
        · cases h
        · rename_i hring
          refine if_neg fun hlow => hring ?_
          simp only [Bool.and_eq_true, Bool.or_eq_true, Bool.not_eq_true', decide_eq_true_eq] at hlow ⊢
          exact hlow.elim (fun hn => absurd hn hsel) fun hl => ⟨hl.1,.inl hl.2⟩

end

end ApPa.Protected

import ApPa.Lib.Machine
import ApPa.Lib.Pic8259
import ApPa.Lib.PortIo
import Mathlib.Data.Nat.Notation

/-! # Hardware interrupts

`irq_handler` ends an interrupt at the controllers before it calls the handler. Devices raise and withdraw requests at any time
in between, also between the two writes of `pic_send_eoi`. The handler itself is one step here: the processor takes the next
interrupt after the `iret`. A handler that enables interrupts, as the keyboard's does when it starts a program, and is
interrupted before its end is outside this model.
-/
namespace ApPa.Arch.Irq
open Pic8259 PortIo

def pic1Command : UInt16 := 0x20
def pic1Data : UInt16 := 0x21
def pic2Command : UInt16 := 0xA0
def pic2Data : UInt16 := 0xA1
def icw1Init : UInt8 := 0x10
def icw1Icw4 : UInt8 := 0x01
def icw4Mode8086 : UInt8 := 0x01
def picEoi : UInt8 := 0x20

/-! ## The driver -/

def picOut (c : Pair) (port : UInt16) (word : UInt8) : Pair :=
  if port = pic1Command then { c with master := c.master.command word }
  else if port = pic1Data then { c with master := c.master.data word }
  else if port = pic2Command then { c with slave := c.slave.command word }
  else if port = pic2Data then { c with slave := c.slave.data word }
  else c

def picIn (c : Pair) (port : UInt16) : UInt8 :=
  if port = pic1Data then c.master.imr else if port = pic2Data then c.slave.imr else 0xFF

instance : Device Pair Unit := ⟨picOut,fun _ c port => (picIn c port, c)⟩

/-- The saved masks are not written back. -/
def picRemap (offset1 offset2 : UInt8) (c : Pair) : Pair :=
  let c := portByteOut c pic1Command (icw1Init ||| icw1Icw4)
  let c := portByteOut c pic2Command (icw1Init ||| icw1Icw4)
  let c := portByteOut c pic1Data offset1
  let c := portByteOut c pic2Data offset2
  let c := portByteOut c pic1Data 0x04
  let c := portByteOut c pic2Data 0x02
  let c := portByteOut c pic1Data icw4Mode8086
  let c := portByteOut c pic2Data icw4Mode8086
  let c := portByteOut c pic1Data 0x00
  portByteOut c pic2Data 0x00

def sendEoiSlave (irq : UInt8) (c : Pair) : Pair := if 8 ≤ irq then portByteOut c pic2Command picEoi else c
def sendEoiMaster (c : Pair) : Pair := portByteOut c pic1Command picEoi

def picSendEoi (irq : UInt8) (c : Pair) : Pair := sendEoiMaster (sendEoiSlave irq c)

def maskPort (irq : UInt8) : UInt16 × UInt8 := if irq < 8 then (pic1Data, irq) else (pic2Data, irq - 8)

/-- The last two writes are for the debugger. -/
def irqClearMask (irq : UInt8) (c : Pair) : Pair :=
  let (port, irq) := maskPort irq
  let c := portByteOut c port ((portByteIn () c port).1 &&& ~~~(1 <<< irq))
  let c := portByteOut c 0xE9 'U'.toUInt8
  portByteOut c 0xE9 ('0'.toUInt8 + irq)

def irqSetMask (irq : UInt8) (c : Pair) : Pair :=
  let (port, irq) := maskPort irq
  portByteOut c port ((portByteIn () c port).1 ||| 1 <<< irq)

/-! ## The processor, the devices and the controllers -/

/-- Where the processor is on its way through an interrupt. -/
inductive Phase where
  | running
  | inta1
  | inta2 (line : Option (Fin 8))
  | slaveEoi (intNo : UInt8)
  | masterEoi (intNo : UInt8)
  | handler (intNo : UInt8)
  deriving DecidableEq

/-- The counters say how often a line has been latched, withdrawn, reported without a request and handled. -/
structure Sys where
  pics : Pair
  phase : Phase
  intFlag : Bool
  raised : Fin 16 → ℕ
  withdrawn : Fin 16 → ℕ
  spurious : Fin 16 → ℕ
  handled : Fin 16 → ℕ

inductive Event where
  | raise (line : Fin 16)
  | withdraw (line : Fin 16)
  | cpu
  | cli
  | sti
  | setMask (line : Fin 16)
  | clearMask (line : Fin 16)

def bump (f : Fin 16 → ℕ) (n : Fin 16) : Fin 16 → ℕ := Function.update f n (f n + 1)

def onMaster (i : Fin 8) : Fin 16 := ⟨i,by omega⟩
def onSlave (i : Fin 8) : Fin 16 := ⟨8 + i,by omega⟩

def latched (c : Pair) (n : Fin 16) : Bool :=
  if h : n.val < 8 then c.master.irr ⟨n,h⟩ else c.slave.irr ⟨n - 8,by omega⟩

def setLatch (c : Pair) (n : Fin 16) (b : Bool) : Pair :=
  if h : n.val < 8 then { c with master := { c.master with irr := Function.update c.master.irr ⟨n,h⟩ b } }
  else { c with slave := { c.slave with irr := Function.update c.slave.irr ⟨n - 8,by omega⟩ b } }

/-- `irq` of `irq_handler`, and the line that it stands for. -/
def irqOf (intNo : UInt8) : UInt8 := intNo - 32
def lineOf (intNo : UInt8) : Fin 16 := Fin.ofNat 16 (irqOf intNo).toNat

/-- One step of the processor. The handler of a line runs in the last of them. -/
def cpuStep (s : Sys) : Sys :=
  match s.phase with
  | .running => if s.intFlag && s.pics.intr then { s with phase := .inta1 } else s
  | .inta1 => { s with pics := s.pics.inta1.2, phase := .inta2 s.pics.inta1.1 }
  | .inta2 line =>
    let ((intNo, empty), pics) := s.pics.inta2 line
    { s with pics := pics, phase := .slaveEoi intNo, spurious := if empty then bump s.spurious (lineOf intNo) else s.spurious }
  | .slaveEoi intNo => { s with pics := sendEoiSlave (irqOf intNo) s.pics, phase := .masterEoi intNo }
  | .masterEoi intNo => { s with pics := sendEoiMaster s.pics, phase := .handler intNo }
  | .handler intNo => { s with phase := .running, handled := bump s.handled (lineOf intNo) }

/-- The wire of line 2 belongs to the slave. What the kernel does to its flag or its masks it does while it runs. -/
def step (e : Event) (s : Sys) : Sys :=
  match e with
  | .cpu => cpuStep s
  | .raise n =>
    if n = 2 ∨ latched s.pics n = true then s else { s with pics := setLatch s.pics n true, raised := bump s.raised n }
  | .withdraw n =>
    if latched s.pics n = true then { s with pics := setLatch s.pics n false, withdrawn := bump s.withdrawn n } else s
  | .cli => if s.phase = .running then { s with intFlag := false } else s
  | .sti => if s.phase = .running then { s with intFlag := true } else s
  | .setMask n => if s.phase = .running then { s with pics := irqSetMask (UInt8.ofNat n) s.pics } else s
  | .clearMask n => if s.phase = .running then { s with pics := irqClearMask (UInt8.ofNat n) s.pics } else s

def run (es : List Event) (s : Sys) : Sys := es.foldl (fun s e => step e s) s

/-- The machine behind `pic_remap(32, 40)`, before the first `sti`. -/
def start (c : Pair) : Sys := ⟨picRemap 32 40 c,.running,false,fun _ => 0,fun _ => 0,fun _ => 0,fun _ => 0⟩

/-! ## What holds between the steps -/

namespace Phase

def masterLine : Phase → Option (Fin 8)
  | .inta2 line => line
  | .slaveEoi intNo | .masterEoi intNo => some (if h : (lineOf intNo).val < 8 then ⟨lineOf intNo,h⟩ else 2)
  | _ => none

def slaveLine : Phase → Option (Fin 8)
  | .slaveEoi intNo => if (lineOf intNo).val < 8 then none else some ⟨lineOf intNo - 8,by omega⟩
  | _ => none

def intNo : Phase → Option UInt8
  | .slaveEoi intNo | .masterEoi intNo | .handler intNo => some intNo
  | _ => none

/-- The line that is no longer latched and not yet handled. -/
def current : Phase → Option (Fin 16)
  | .inta2 (some i) => if i = 2 then none else some (onMaster i)
  | .slaveEoi intNo | .masterEoi intNo | .handler intNo => some (lineOf intNo)
  | _ => none

end Phase

structure Initialized (p : Pic) (base cascade : UInt8) : Prop where
  base : p.base = base
  cascade : p.cascade = cascade
  mode : p.mode = 1
  stage : p.stage = .ready

/-- Vectors of hardware interrupts, and none for the line of the slave. -/
structure IsIrq (intNo : UInt8) : Prop where
  ge : 32 ≤ intNo.toNat
  lt : intNo.toNat < 48
  ne : intNo ≠ 34

structure Protocol (s : Sys) : Prop where
  master : Initialized s.pics.master 32 4
  slave : Initialized s.pics.slave 40 2
  masterIsr : ∀ i, s.pics.master.isr i = true → s.phase.masterLine = some i
  slaveIsr : ∀ i, s.pics.slave.isr i = true → s.phase.slaveLine = some i
  wire : s.pics.master.irr 2 = false
  vector : ∀ v, s.phase.intNo = some v → IsIrq v
  count : ∀ n, s.handled n + (if s.phase.current = some n then 1 else 0) + (latched s.pics n).toNat + s.withdrawn n =
    s.raised n + s.spurious n
  last : ∀ n, n ≠ 7 → n ≠ 15 → s.spurious n = 0

theorem run_invariant {inv : Sys → Prop} (hstep : ∀ s e, inv s → inv (step e s)) (es : List Event) {s : Sys} (h : inv s) :
    inv (run es s) := by
  induction es generalizing s with
  | nil => exact h
  | cons e es ih => exact ih (hstep s e h)

theorem isIrq_master : ∀ i : Fin 8, i ≠ 2 → IsIrq (32 + UInt8.ofNat i) ∧ lineOf (32 + UInt8.ofNat i) = onMaster i := by
  have hall : ∀ i : Fin 8, i ≠ 2 → (32 ≤ (32 + UInt8.ofNat i).toNat ∧ (32 + UInt8.ofNat i).toNat < 48 ∧
      32 + UInt8.ofNat i ≠ 34) ∧ lineOf (32 + UInt8.ofNat i) = onMaster i := by decide
  exact fun i hi => ⟨⟨(hall i hi).1.1,(hall i hi).1.2.1,(hall i hi).1.2.2⟩,(hall i hi).2⟩

theorem isIrq_slave : ∀ i : Fin 8, IsIrq (40 + UInt8.ofNat i) ∧ lineOf (40 + UInt8.ofNat i) = onSlave i := by
  have hall : ∀ i : Fin 8, (32 ≤ (40 + UInt8.ofNat i).toNat ∧ (40 + UInt8.ofNat i).toNat < 48 ∧
      40 + UInt8.ofNat i ≠ 34) ∧ lineOf (40 + UInt8.ofNat i) = onSlave i := by decide
  exact fun i => ⟨⟨(hall i).1.1,(hall i).1.2.1,(hall i).1.2.2⟩,(hall i).2⟩

theorem IsIrq.lineOf_val {v : UInt8} (h : IsIrq v) : (lineOf v).val = (irqOf v).toNat := by
  have hge := h.ge
  have hlt := h.lt
  have hsub : (irqOf v).toNat = v.toNat - 32 := UInt8.toNat_sub_of_le _ _ (UInt8.le_iff_toNat_le.mpr hge)
  change (irqOf v).toNat % 16 = _
  omega

theorem protocol_start (c : Pair) : Protocol (start c) := by
  refine ⟨⟨rfl,rfl,rfl,rfl⟩,⟨rfl,rfl,rfl,rfl⟩,?_,?_,rfl,?_,?_,fun _ _ _ => rfl⟩
  · intro i h
    exact absurd h Bool.false_ne_true
  · intro i h
    exact absurd h Bool.false_ne_true
  · intro v h
    cases h
  · intro n
    have hlatch : latched (start c).pics n = false := by
      unfold latched
      split <;> rfl
    rw [hlatch]
    rfl

/-! ## Latches -/

section
variable (c : Pair) (n : Fin 16) (b : Bool)

theorem latched_setLatch_self : latched (setLatch c n b) n = b := by
  unfold latched setLatch
  split
  · exact Function.update_self ..
  · exact Function.update_self ..

theorem latched_setLatch_of_ne {m : Fin 16} (h : m ≠ n) : latched (setLatch c n b) m = latched c m := by
  have hne : m.val ≠ n.val := fun heq => h (Fin.ext heq)
  unfold latched setLatch
  by_cases hn : n.val < 8
  · rw [dif_pos hn]
    by_cases hm : m.val < 8
    · rw [dif_pos hm, dif_pos hm]
      exact Function.update_of_ne (show (⟨m,hm⟩ : Fin 8) ≠ ⟨n,hn⟩ from fun heq => hne (Fin.mk.inj heq)) ..
    · rw [dif_neg hm, dif_neg hm]
  · rw [dif_neg hn]
    by_cases hm : m.val < 8
    · rw [dif_pos hm, dif_pos hm]
    · rw [dif_neg hm, dif_neg hm]
      refine Function.update_of_ne (show (⟨m - 8,by omega⟩ : Fin 8) ≠ ⟨n - 8,by omega⟩ from fun heq => hne ?_) ..
      have hval := Fin.mk.inj heq
      omega

theorem setLatch_master : (setLatch c n b).master = { c.master with irr := (setLatch c n b).master.irr } := by
  unfold setLatch
  split <;> rfl

theorem setLatch_slave : (setLatch c n b).slave = { c.slave with irr := (setLatch c n b).slave.irr } := by
  unfold setLatch
  split <;> rfl

theorem latched_onMaster (i : Fin 8) : latched c (onMaster i) = c.master.irr i := dif_pos i.isLt

theorem latched_onSlave (i : Fin 8) : latched c (onSlave i) = c.slave.irr i := by
  rw [latched, dif_neg (by change ¬8 + i.val < 8; omega)]
  congr 1
  ext
  change 8 + i.val - 8 = i.val
  omega

end

theorem latched_ackMaster (c : Pair) (i : Fin 8) (n : Fin 16) :
    latched { c with master := c.master.ack i } n = latched (setLatch c (onMaster i) false) n := by
  have hset : setLatch c (onMaster i) false =
      { c with master := { c.master with irr := Function.update c.master.irr i false } } := dif_pos i.isLt
  rw [hset]
  rfl

theorem latched_ackSlave (c : Pair) (i : Fin 8) (n : Fin 16) :
    latched { c with slave := c.slave.ack i } n = latched (setLatch c (onSlave i) false) n := by
  have hline : (⟨(onSlave i).val - 8,by omega⟩ : Fin 8) = i := Fin.ext (Nat.add_sub_cancel_left 8 i.val)
  have hset : setLatch c (onSlave i) false =
      { c with slave := { c.slave with irr := Function.update c.slave.irr i false } } := by
    rw [setLatch, dif_neg (by change ¬8 + i.val < 8; omega), hline]
  rw [hset]
  rfl

theorem ack_isr {p : Pic} (hmode : p.mode = 1) (i : Fin 8) : (p.ack i).isr = Function.update p.isr i true := by
  rw [Pic.ack, if_neg (by rw [hmode]; decide)]

theorem maskPort_data (irq : UInt8) : (maskPort irq).1 ≠ pic1Command ∧ (maskPort irq).1 ≠ pic2Command := by
  unfold maskPort
  split
  · exact ⟨show pic1Data ≠ _ by decide,show pic1Data ≠ _ by decide⟩
  · exact ⟨show pic2Data ≠ _ by decide,show pic2Data ≠ _ by decide⟩

theorem bump_self (f : Fin 16 → ℕ) (n : Fin 16) : bump f n n = f n + 1 := Function.update_self ..

theorem bump_of_ne (f : Fin 16 → ℕ) {n m : Fin 16} (h : m ≠ n) : bump f n m = f m := Function.update_of_ne h ..

section
variable {s : Sys} (h : Protocol s)
include h

theorem Protocol.setLatch {n : Fin 16} (hn : n ≠ 2) (b : Bool) {raised withdrawn : Fin 16 → ℕ}
    (hcount : ∀ m, (latched (setLatch s.pics n b) m).toNat + withdrawn m + s.raised m =
      (latched s.pics m).toNat + s.withdrawn m + raised m) :
    Protocol { s with pics := setLatch s.pics n b, raised := raised, withdrawn := withdrawn } := by
  refine ⟨?_,?_,?_,?_,?_,h.vector,fun m => ?_,h.last⟩
  · rw [setLatch_master]
    exact ⟨h.master.base,h.master.cascade,h.master.mode,h.master.stage⟩
  · rw [setLatch_slave]
    exact ⟨h.slave.base,h.slave.cascade,h.slave.mode,h.slave.stage⟩
  · rw [setLatch_master]
    exact h.masterIsr
  · rw [setLatch_slave]
    exact h.slaveIsr
  · have hother := latched_setLatch_of_ne s.pics n b (m := onMaster 2) (Ne.symm hn)
    rw [latched_onMaster, latched_onMaster] at hother
    exact hother.trans h.wire
  · have hold := h.count m
    have hnew := hcount m
    dsimp only
    omega

theorem Protocol.raise {n : Fin 16} (hn : n ≠ 2) (hlatch : latched s.pics n = false) :
    Protocol { s with pics := Irq.setLatch s.pics n true, raised := bump s.raised n } := by
  refine h.setLatch hn true fun m => ?_
  by_cases hm : m = n
  · rw [hm, latched_setLatch_self, hlatch, bump_self, Bool.toNat_true, Bool.toNat_false]
    omega
  · rw [latched_setLatch_of_ne _ _ _ hm, bump_of_ne _ hm]

theorem Protocol.withdraw {n : Fin 16} (hlatch : latched s.pics n = true) :
    Protocol { s with pics := Irq.setLatch s.pics n false, withdrawn := bump s.withdrawn n } := by
  have hn : n ≠ 2 := by
    rintro rfl
    have hwire := (latched_onMaster s.pics 2).trans h.wire
    exact Bool.false_ne_true (hwire.symm.trans hlatch)
  refine h.setLatch hn false fun m => ?_
  by_cases hm : m = n
  · rw [hm, latched_setLatch_self, hlatch, bump_self, Bool.toNat_true, Bool.toNat_false]
    omega
  · rw [latched_setLatch_of_ne _ _ _ hm, bump_of_ne _ hm]

theorem Protocol.setImr (m m' : UInt8) :
    Protocol { s with pics := ⟨{ s.pics.master with imr := m },{ s.pics.slave with imr := m' }⟩ } :=
  ⟨⟨h.master.base,h.master.cascade,h.master.mode,h.master.stage⟩,
    ⟨h.slave.base,h.slave.cascade,h.slave.mode,h.slave.stage⟩,h.masterIsr,h.slaveIsr,h.wire,h.vector,h.count,h.last⟩

theorem Protocol.dataOut {port : UInt16} (hport : port ≠ pic1Command ∧ port ≠ pic2Command) (word : UInt8) :
    ∃ m m', portByteOut s.pics port word = ⟨{ s.pics.master with imr := m },{ s.pics.slave with imr := m' }⟩ := by
  change ∃ m m', picOut s.pics port word = _
  unfold picOut
  rw [if_neg hport.1, if_neg hport.2, Pic.data_ready h.master.stage, Pic.data_ready h.slave.stage]
  split
  · exact ⟨word,_,rfl⟩
  · split
    · exact ⟨_,word,rfl⟩
    · exact ⟨_,_,rfl⟩

theorem Protocol.setMask (irq : UInt8) : Protocol { s with pics := irqSetMask irq s.pics } := by
  obtain ⟨m,m',hout⟩ := h.dataOut (maskPort_data irq)
    ((portByteIn () s.pics (maskPort irq).1).1 ||| 1 <<< (maskPort irq).2)
  have hmask : irqSetMask irq s.pics = _ := hout
  rw [hmask]
  exact h.setImr m m'

theorem Protocol.clearMask (irq : UInt8) : Protocol { s with pics := irqClearMask irq s.pics } := by
  obtain ⟨m,m',hout⟩ := h.dataOut (maskPort_data irq)
    ((portByteIn () s.pics (maskPort irq).1).1 &&& ~~~(1 <<< (maskPort irq).2))
  have hmask : irqClearMask irq s.pics = _ := hout
  rw [hmask]
  exact h.setImr m m'

/-! ## The steps of the processor -/

theorem Protocol.cascade_iff (i : Fin 8) : s.pics.master.cascade.toNat.testBit i = true ↔ i = 2 := by
  rw [h.master.cascade]
  revert i
  decide

theorem Protocol.masterIdle (hphase : s.phase.masterLine = none) (i : Fin 8) : s.pics.master.isr i = false := by
  refine Bool.eq_false_of_not_eq_true fun hi => ?_
  exact Option.some_ne_none i ((h.masterIsr i hi).symm.trans hphase)

theorem Protocol.slaveIdle (hphase : s.phase.slaveLine = none) (i : Fin 8) : s.pics.slave.isr i = false := by
  refine Bool.eq_false_of_not_eq_true fun hi => ?_
  exact Option.some_ne_none i ((h.slaveIsr i hi).symm.trans hphase)

/-- A line that is acknowledged moves from its latch to the processor. -/
theorem Protocol.count_ack {c : Pair} {i n : Fin 16} (hphase : s.phase.current = none) (hlatch : latched s.pics i = true)
    (hc : ∀ m, latched c m = latched (Irq.setLatch s.pics i false) m) :
    s.handled n + (if some i = some n then 1 else 0) + (latched c n).toNat + s.withdrawn n = s.raised n + s.spurious n := by
  have hcount := h.count n
  rw [hphase] at hcount
  rw [hc]
  by_cases hn : n = i
  · subst hn
    rw [hlatch] at hcount
    rw [if_pos rfl, latched_setLatch_self]
    exact hcount
  · rw [if_neg (fun heq => hn (Option.some.inj heq).symm), latched_setLatch_of_ne _ _ _ hn]
    exact hcount

theorem Protocol.inta1 (hphase : s.phase = .inta1) :
    Protocol { s with pics := s.pics.inta1.2, phase := .inta2 s.pics.inta1.1 } := by
  have hidle := h.masterIdle (by rw [hphase]; rfl)
  have hslave := h.slaveIdle (by rw [hphase]; rfl)
  have hnone : ∀ {p : Fin 8 → Prop} (i : Fin 8), s.pics.slave.isr i = true → p i := fun i hi =>
    absurd hi (by rw [hslave]; exact Bool.false_ne_true)
  unfold Pair.inta1
  cases hnext : s.pics.master.next s.pics.requests with
  | none =>
    have hcount := h.count
    rw [hphase] at hcount
    exact ⟨h.master,h.slave,fun i hi => absurd hi (by rw [hidle]; exact Bool.false_ne_true),hnone,h.wire,
      fun v hv => (nomatch hv),hcount,h.last⟩
  | some i =>
    refine ⟨⟨h.master.base,h.master.cascade,h.master.mode,h.master.stage⟩,h.slave,fun j hj => ?_,hnone,?_,
      fun v hv => (nomatch hv),fun n => ?_,h.last⟩
    · dsimp only at hj
      rw [ack_isr h.master.mode] at hj
      by_cases hji : j = i
      · rw [hji]
        rfl
      · rw [Function.update_of_ne hji, hidle] at hj
        exact absurd hj Bool.false_ne_true
    · change Function.update s.pics.master.irr i false 2 = false
      by_cases hi : (2 : Fin 8) = i
      · rw [hi, Function.update_self]
      · rw [Function.update_of_ne hi]
        exact h.wire
    · by_cases hi : i = 2
      · -- the line of the slave, which is not a latch of the master
        subst hi
        have hcount := h.count n
        rw [hphase] at hcount
        dsimp only
        rw [latched_ackMaster]
        have hsame : latched (Irq.setLatch s.pics (onMaster 2) false) n = latched s.pics n := by
          by_cases hn : n = onMaster 2
          · rw [hn, latched_setLatch_self, latched_onMaster, h.wire]
          · exact latched_setLatch_of_ne _ _ _ hn
        rw [hsame]
        exact hcount
      · obtain ⟨hrequest,-⟩ := Pic.of_next hnext
        have hcascade : ¬s.pics.master.cascade.toNat.testBit i = true := fun hbit => hi ((h.cascade_iff i).mp hbit)
        rw [Pair.requests, if_neg hcascade] at hrequest
        have hcurrent : Phase.current (.inta2 (some i)) = some (onMaster i) := if_neg hi
        dsimp only
        rw [hcurrent]
        exact h.count_ack (by rw [hphase]; rfl) ((latched_onMaster ..).trans hrequest) fun m => latched_ackMaster s.pics i m

theorem Protocol.count_spurious {i n : Fin 16} (hphase : s.phase.current = none) :
    s.handled n + (if some i = some n then 1 else 0) + (latched s.pics n).toNat + s.withdrawn n =
      s.raised n + bump s.spurious i n := by
  have hcount := h.count n
  rw [hphase, if_neg (by exact Option.some_ne_none n ∘ Eq.symm)] at hcount
  by_cases hn : n = i
  · subst hn
    rw [if_pos rfl, bump_self]
    omega
  · rw [if_neg (fun heq => hn (Option.some.inj heq).symm), bump_of_ne _ hn]
    omega

theorem Protocol.last_spurious {i : Fin 16} (hi : i = 7 ∨ i = 15) (n : Fin 16) (h7 : n ≠ 7) (h15 : n ≠ 15) :
    bump s.spurious i n = 0 := by
  rw [bump_of_ne]
  · exact h.last n h7 h15
  · rintro rfl
    exact hi.elim h7 h15

theorem Protocol.inta2 {line : Option (Fin 8)} (hphase : s.phase = .inta2 line) : Protocol (cpuStep s) := by
  have hslave := h.slaveIdle (by rw [hphase]; rfl)
  have hmaster := h.masterIsr
  have hcount := h.count
  rw [hphase] at hmaster hcount
  have hnone : ∀ {p : Fin 8 → Prop} (i : Fin 8), s.pics.slave.isr i = true → p i := fun i hi =>
    absurd hi (by rw [hslave]; exact Bool.false_ne_true)
  obtain ⟨hirq,hline⟩ := isIrq_master 7 (by decide)
  obtain ⟨hirq',hline'⟩ := isIrq_slave 7
  unfold cpuStep
  rw [hphase]
  dsimp only
  cases line with
  | none =>
    have hv : s.pics.inta2 none = ((32 + UInt8.ofNat (7 : Fin 8), true), s.pics) := by
      rw [Pair.inta2, h.master.base]
      rfl
    rw [hv]
    dsimp only
    rw [if_pos rfl, hline]
    refine ⟨h.master,h.slave,fun i hi => (nomatch hmaster i hi),hnone,h.wire,?_,fun n => ?_,
      fun n => h.last_spurious (.inl rfl) n⟩
    · rintro v ⟨⟩
      exact hirq
    · change _ + (if some (lineOf _) = some n then 1 else 0) + _ + _ = _
      rw [hline]
      exact h.count_spurious (by rw [hphase]; rfl)
  | some i =>
    by_cases hi : i = 2
    · subst hi
      have hcascade := (h.cascade_iff 2).mpr rfl
      cases hnext : s.pics.slave.next s.pics.slave.irr with
      | none =>
        have hv : s.pics.inta2 (some 2) = ((40 + UInt8.ofNat (7 : Fin 8), true), s.pics) := by
          rw [Pair.inta2, if_pos hcascade, hnext, h.slave.base]
          rfl
        rw [hv]
        dsimp only
        rw [if_pos rfl, hline']
        refine ⟨h.master,h.slave,fun i hi => ?_,hnone,h.wire,?_,fun n => ?_,fun n => h.last_spurious (.inr rfl) n⟩
        · rw [← hmaster i hi]
          rfl
        · rintro v ⟨⟩
          exact hirq'
        · change _ + (if some (lineOf _) = some n then 1 else 0) + _ + _ = _
          rw [hline']
          exact h.count_spurious (by rw [hphase]; rfl)
      | some j =>
        obtain ⟨hirqj,hlinej⟩ := isIrq_slave j
        have hv : s.pics.inta2 (some 2) =
            ((40 + UInt8.ofNat j, false), { s.pics with slave := s.pics.slave.ack j }) := by
          rw [Pair.inta2, if_pos hcascade, hnext, h.slave.base]
        rw [hv]
        dsimp only
        rw [if_neg Bool.false_ne_true]
        refine ⟨h.master,⟨h.slave.base,h.slave.cascade,h.slave.mode,h.slave.stage⟩,fun i hi => ?_,fun k hk => ?_,h.wire,?_,
          fun n => ?_,h.last⟩
        · rw [← hmaster i hi]
          change some (dite _ _ _) = some 2
          rw [dif_neg (by rw [hlinej]; change ¬8 + j.val < 8; omega)]
        · dsimp only at hk
          rw [ack_isr h.slave.mode] at hk
          by_cases hkj : k = j
          · change ite _ _ _ = _
            rw [if_neg (by rw [hlinej]; change ¬8 + j.val < 8; omega), hkj]
            congr 1
            ext
            change (lineOf (40 + UInt8.ofNat j)).val - 8 = j.val
            rw [hlinej]
            exact Nat.add_sub_cancel_left 8 j.val
          · rw [Function.update_of_ne hkj, hslave] at hk
            exact absurd hk Bool.false_ne_true
        · rintro v ⟨⟩
          exact hirqj
        · change _ + (if some (lineOf _) = some n then 1 else 0) + _ + _ = _
          rw [hlinej]
          exact h.count_ack (by rw [hphase]; rfl) ((latched_onSlave ..).trans (Pic.of_next hnext).1)
            fun m => latched_ackSlave s.pics j m
    · obtain ⟨hirqi,hlinei⟩ := isIrq_master i hi
      have hcascade : ¬s.pics.master.cascade.toNat.testBit i = true := fun hbit => hi ((h.cascade_iff i).mp hbit)
      have hv : s.pics.inta2 (some i) = ((32 + UInt8.ofNat i, false), s.pics) := by
        rw [Pair.inta2, if_neg hcascade, h.master.base]
      rw [hv]
      dsimp only
      rw [if_neg Bool.false_ne_true]
      refine ⟨h.master,h.slave,fun k hk => ?_,hnone,h.wire,?_,fun n => ?_,h.last⟩
      · rw [← hmaster k hk]
        change some (dite _ _ _) = some i
        rw [dif_pos (by rw [hlinei]; exact i.isLt)]
        congr 1
        ext
        change (lineOf (32 + UInt8.ofNat i)).val = i.val
        rw [hlinei]
        rfl
      · rintro v ⟨⟩
        exact hirqi
      · change _ + (if some (lineOf _) = some n then 1 else 0) + _ + _ = _
        rw [hlinei]
        have hold := hcount n
        rwa [show Phase.current (.inta2 (some i)) = some (onMaster i) from if_neg hi] at hold

theorem Protocol.slaveEoi {v : UInt8} (hphase : s.phase = .slaveEoi v) : Protocol (cpuStep s) := by
  have hirq := h.vector v (by rw [hphase]; rfl)
  have hmaster := h.masterIsr
  have hslave := h.slaveIsr
  have hcount := h.count
  rw [hphase] at hmaster hslave hcount
  have hline : (8 : UInt8) ≤ irqOf v ↔ ¬(lineOf v).val < 8 := by
    rw [hirq.lineOf_val, UInt8.le_iff_toNat_le, Nat.not_lt]
    rfl
  unfold cpuStep
  rw [hphase]
  dsimp only
  unfold sendEoiSlave
  split
  · rename_i hge
    -- the one line of the slave that may be in service
    have hidle : eoi s.pics.slave.isr = fun _ => false := eoi_of_subset fun j hj => by
      have hset := hslave j hj
      rw [Phase.slaveLine, if_neg (hline.mp hge)] at hset
      exact (Option.some.inj hset).symm
    refine ⟨h.master,⟨h.slave.base,h.slave.cascade,h.slave.mode,h.slave.stage⟩,hmaster,fun i hi => ?_,h.wire,?_,hcount,h.last⟩
    · change eoi s.pics.slave.isr i = true at hi
      rw [hidle] at hi
      exact absurd hi Bool.false_ne_true
    · rintro w ⟨⟩
      exact hirq
  · rename_i hlt
    refine ⟨h.master,h.slave,hmaster,fun i hi => ?_,h.wire,?_,hcount,h.last⟩
    · have hset := hslave i hi
      rw [Phase.slaveLine, if_pos (not_not.mp (hline.not.mp hlt))] at hset
      cases hset
    · rintro w ⟨⟩
      exact hirq

theorem Protocol.masterEoi {v : UInt8} (hphase : s.phase = .masterEoi v) : Protocol (cpuStep s) := by
  have hirq := h.vector v (by rw [hphase]; rfl)
  have hmaster := h.masterIsr
  have hslave := h.slaveIsr
  have hcount := h.count
  rw [hphase] at hmaster hslave hcount
  have hidle : eoi s.pics.master.isr = fun _ => false := eoi_of_subset fun j hj => (Option.some.inj (hmaster j hj)).symm
  unfold cpuStep
  rw [hphase]
  refine ⟨⟨h.master.base,h.master.cascade,h.master.mode,h.master.stage⟩,h.slave,fun i hi => ?_,hslave,h.wire,?_,hcount,h.last⟩
  · change eoi s.pics.master.isr i = true at hi
    rw [hidle] at hi
    exact absurd hi Bool.false_ne_true
  · rintro w ⟨⟩
    exact hirq

theorem Protocol.handler {v : UInt8} (hphase : s.phase = .handler v) : Protocol (cpuStep s) := by
  have hmaster := h.masterIsr
  have hslave := h.slaveIsr
  have hcount := h.count
  rw [hphase] at hmaster hslave hcount
  unfold cpuStep
  rw [hphase]
  refine ⟨h.master,h.slave,hmaster,hslave,h.wire,fun w hw => (nomatch hw),fun n => ?_,h.last⟩
  have hold : s.handled n + (if some (lineOf v) = some n then 1 else 0) + (latched s.pics n).toNat + s.withdrawn n =
      s.raised n + s.spurious n := hcount n
  change bump s.handled (lineOf v) n + 0 + _ + _ = _
  by_cases hn : n = lineOf v
  · rw [hn, if_pos rfl] at hold
    rw [hn, bump_self]
    omega
  · rw [if_neg (fun heq => hn (Option.some.inj heq).symm)] at hold
    rw [bump_of_ne _ hn]
    exact hold

theorem Protocol.cpu : Protocol (cpuStep s) := by
  cases hphase : s.phase with
  | running =>
    unfold cpuStep
    rw [hphase]
    dsimp only
    split
    · have hmaster := h.masterIsr
      have hslave := h.slaveIsr
      have hcount := h.count
      rw [hphase] at hmaster hslave hcount
      exact ⟨h.master,h.slave,hmaster,hslave,h.wire,fun v hv => (nomatch hv),hcount,h.last⟩
    · exact h
  | inta1 =>
    unfold cpuStep
    rw [hphase]
    exact h.inta1 hphase
  | inta2 line => exact h.inta2 hphase
  | slaveEoi v => exact h.slaveEoi hphase
  | masterEoi v => exact h.masterEoi hphase
  | handler v => exact h.handler hphase

theorem Protocol.step (e : Event) : Protocol (step e s) := by
  cases e with
  | cpu => exact h.cpu
  | raise n =>
    unfold Irq.step
    dsimp only
    split
    · exact h
    · rename_i hfree
      exact h.raise (fun hn => hfree (.inl hn)) (Bool.eq_false_of_not_eq_true fun hn => hfree (.inr hn))
  | withdraw n =>
    unfold Irq.step
    dsimp only
    split
    · rename_i hlatch
      exact h.withdraw hlatch
    · exact h
  | cli | sti =>
    unfold Irq.step
    dsimp only
    split
    · exact ⟨h.master,h.slave,h.masterIsr,h.slaveIsr,h.wire,h.vector,h.count,h.last⟩
    · exact h
  | setMask n =>
    unfold Irq.step
    dsimp only
    split
    · exact h.setMask _
    · exact h
  | clearMask n =>
    unfold Irq.step
    dsimp only
    split
    · exact h.clearMask _
    · exact h

end

/-! ## Requests that get through -/

/-- A line that is latched and neither masked itself nor behind a masked line. -/
def deliverable (c : Pair) (n : Fin 16) : Bool :=
  latched c n && if h : n.val < 8 then !c.master.masked ⟨n,h⟩ else !c.slave.masked ⟨n - 8,by omega⟩ && !c.master.masked 2

theorem deliverable_onMaster (c : Pair) (i : Fin 8) :
    deliverable c (onMaster i) = (c.master.irr i && !c.master.masked i) := by
  rw [deliverable, latched_onMaster, dif_pos (show (onMaster i).val < 8 from i.isLt)]
  rfl

theorem deliverable_onSlave (c : Pair) (i : Fin 8) :
    deliverable c (onSlave i) = (c.slave.irr i && (!c.slave.masked i && !c.master.masked 2)) := by
  have hline : (⟨(onSlave i).val - 8,by omega⟩ : Fin 8) = i := Fin.ext (Nat.add_sub_cancel_left 8 i.val)
  rw [deliverable, latched_onSlave, dif_neg (by change ¬8 + i.val < 8; omega), hline]

@[elab_as_elim]
theorem lineCases {motive : Fin 16 → Prop} (master : ∀ i, motive (onMaster i)) (slave : ∀ i, motive (onSlave i))
    (n : Fin 16) : motive n := by
  by_cases hn : n.val < 8
  · exact master ⟨n,hn⟩
  · have hline : onSlave ⟨n - 8,by omega⟩ = n := Fin.ext (Nat.add_sub_cancel' (Nat.not_lt.mp hn))
    rw [← hline]
    exact slave _

section
variable {s : Sys} (h : Protocol s)
include h

theorem Protocol.slave_next (hphase : s.phase.slaveLine = none) :
    (s.pics.slave.next s.pics.slave.irr).isSome ↔ ∃ j, (s.pics.slave.irr j && !s.pics.slave.masked j) = true := by
  rw [Pic.next_of_idle (h.slaveIdle hphase), first_isSome]

/-- With nothing in service the interrupt line tells whether there is something to do. -/
theorem Protocol.intr_iff (hmaster : s.phase.masterLine = none) (hslave : s.phase.slaveLine = none) :
    s.pics.intr = true ↔ ∃ n, deliverable s.pics n = true := by
  have hrequest : ∀ i, i ≠ 2 → s.pics.requests i = s.pics.master.irr i := fun i hi => if_neg (hi ∘ (h.cascade_iff i).mp)
  have hcascade : s.pics.requests 2 = (s.pics.slave.next s.pics.slave.irr).isSome := if_pos ((h.cascade_iff 2).mpr rfl)
  have hnext := h.slave_next hslave
  rw [← hcascade] at hnext
  rw [Pair.intr, Pic.next_of_idle (h.masterIdle hmaster), first_isSome]
  constructor
  · rintro ⟨i,hi⟩
    by_cases h2 : i = 2
    · subst h2
      rw [Bool.and_eq_true] at hi
      obtain ⟨j,hj⟩ := hnext.mp hi.1
      refine ⟨onSlave j,?_⟩
      rw [deliverable_onSlave, ← Bool.and_assoc, hj, hi.2]
      rfl
    · rw [hrequest i h2] at hi
      exact ⟨onMaster i,(deliverable_onMaster ..).trans hi⟩
  · rintro ⟨n,hn⟩
    cases n using lineCases with
    | master i =>
      rw [deliverable_onMaster] at hn
      have h2 : i ≠ 2 := by
        rintro rfl
        rw [h.wire] at hn
        exact Bool.false_ne_true hn
      refine ⟨i,?_⟩
      rw [hrequest i h2]
      exact hn
    | slave j =>
      rw [deliverable_onSlave, ← Bool.and_assoc, Bool.and_eq_true] at hn
      refine ⟨2,?_⟩
      rw [hnext.mpr ⟨j,hn.1⟩, hn.2]
      rfl

end

/-- What the processor has been promised is still there. -/
def Wanted (s : Sys) : Prop :=
  match s.phase with
  | .inta1 => ∃ n, deliverable s.pics n = true
  | .inta2 none => False
  | .inta2 (some i) => i = 2 → ∃ j, (s.pics.slave.irr j && !s.pics.slave.masked j) = true
  | _ => True

theorem deliverable_setLatch {c : Pair} {m : Fin 16} (n : Fin 16) (h : deliverable c m = true) :
    deliverable (setLatch c n true) m = true := by
  have hlatch : latched (setLatch c n true) m = true := by
    by_cases hm : m = n
    · rw [hm, latched_setLatch_self]
    · rw [latched_setLatch_of_ne _ _ _ hm]
      exact (Bool.and_eq_true _ _ ▸ h).1
  rw [deliverable, Bool.and_eq_true] at h ⊢
  rw [setLatch_master, setLatch_slave]
  exact ⟨hlatch,h.2⟩

theorem Wanted.raise {s : Sys} (h : Wanted s) (n : Fin 16) (raised : Fin 16 → ℕ) :
    Wanted { s with pics := setLatch s.pics n true, raised := raised } := by
  unfold Wanted at h ⊢
  dsimp only
  split at h
  · obtain ⟨m,hm⟩ := h
    exact ⟨m,deliverable_setLatch n hm⟩
  · exact h
  · intro hi
    obtain ⟨j,hj⟩ := h hi
    rw [Bool.and_eq_true] at hj
    refine ⟨j,?_⟩
    rw [setLatch_slave, Bool.and_eq_true]
    refine ⟨?_,hj.2⟩
    change (setLatch s.pics n true).slave.irr j = true
    rw [← latched_onSlave]
    by_cases hn : onSlave j = n
    · rw [hn, latched_setLatch_self]
    · rw [latched_setLatch_of_ne _ _ _ hn, latched_onSlave]
      exact hj.1
  · trivial

theorem Wanted.cpu {s : Sys} (h : Protocol s) (hwanted : Wanted s) :
    Wanted (cpuStep s) ∧ (cpuStep s).spurious = s.spurious := by
  cases hphase : s.phase with
  | running =>
    unfold cpuStep
    rw [hphase]
    dsimp only
    split
    · rename_i hintr
      rw [Bool.and_eq_true] at hintr
      exact ⟨(h.intr_iff (by rw [hphase]; rfl) (by rw [hphase]; rfl)).mp hintr.2,rfl⟩
    · exact ⟨hwanted,rfl⟩
  | inta1 =>
    rw [Wanted, hphase] at hwanted
    have hintr := (h.intr_iff (by rw [hphase]; rfl) (by rw [hphase]; rfl)).mpr hwanted
    unfold cpuStep
    rw [hphase]
    refine ⟨?_,rfl⟩
    rw [Pair.intr, Option.isSome_iff_exists] at hintr
    obtain ⟨i,hi⟩ := hintr
    unfold Wanted Pair.inta1
    dsimp only
    rw [hi]
    rintro rfl
    have hrequest := (Pic.of_next hi).1
    rw [Pair.requests, if_pos ((h.cascade_iff 2).mpr rfl)] at hrequest
    exact (h.slave_next (by rw [hphase]; rfl)).mp hrequest
  | inta2 line =>
    rw [Wanted, hphase] at hwanted
    unfold cpuStep
    rw [hphase]
    refine ⟨trivial,?_⟩
    dsimp only
    suffices hvector : (s.pics.inta2 line).1.2 = false by
      rw [hvector]
      rfl
    cases line with
    | none => exact hwanted.elim
    | some i =>
      by_cases hi : i = 2
      · have hnext := (h.slave_next (by rw [hphase]; rfl)).mpr (hwanted hi)
        rw [Option.isSome_iff_exists] at hnext
        obtain ⟨j,hj⟩ := hnext
        rw [Pair.inta2, if_pos ((h.cascade_iff i).mpr hi), hj]
      · rw [Pair.inta2, if_neg (hi ∘ (h.cascade_iff i).mp)]
  | slaveEoi v | masterEoi v | handler v =>
    unfold cpuStep
    rw [hphase]
    exact ⟨trivial,rfl⟩

/-- Without withdrawals every acknowledgement has a request behind it. -/
structure Quiet (s : Sys) : Prop where
  protocol : Protocol s
  wanted : (∀ n, s.withdrawn n = 0) → Wanted s ∧ ∀ n, s.spurious n = 0

theorem quiet_start (c : Pair) : Quiet (start c) := ⟨protocol_start c,fun _ => ⟨trivial,fun _ => rfl⟩⟩

theorem Quiet.step {s : Sys} (h : Quiet s) (e : Event) : Quiet (step e s) := by
  refine ⟨h.protocol.step e,?_⟩
  cases e with
  | cpu =>
    have hwithdrawn : (cpuStep s).withdrawn = s.withdrawn := by
      unfold cpuStep
      split <;> try rfl
      split <;> rfl
    intro hnone
    change ∀ n, (cpuStep s).withdrawn n = 0 at hnone
    rw [hwithdrawn] at hnone
    obtain ⟨hwanted,hspurious⟩ := h.wanted hnone
    obtain ⟨hnext,hsame⟩ := hwanted.cpu h.protocol
    refine ⟨hnext,?_⟩
    change ∀ n, (cpuStep s).spurious n = 0
    rw [hsame]
    exact hspurious
  | raise n =>
    unfold Irq.step
    dsimp only
    split
    · exact h.wanted
    · exact fun hnone => ⟨(h.wanted hnone).1.raise n _,(h.wanted hnone).2⟩
  | withdraw n =>
    unfold Irq.step
    dsimp only
    split
    · intro hnone
      have hpos := hnone n
      dsimp only at hpos
      rw [bump_self] at hpos
      cases hpos
    · exact h.wanted
  | cli | sti | setMask n | clearMask n =>
    unfold Irq.step
    dsimp only
    split
    · rename_i hrun
      refine fun hnone => ⟨?_,(h.wanted hnone).2⟩
      unfold Wanted
      dsimp only
      rw [hrun]
      trivial
    · exact h.wanted

theorem quiet_run (c : Pair) (es : List Event) : Quiet (run es (start c)) :=
  run_invariant (fun _ e h => h.step e) es (quiet_start c)

/-- Interrupts between any steps of the devices and the kernel. While no interrupt is being taken nothing is in service, so a
request that is not masked is never held back. Each request that has been latched is handled once, is still latched, is being
taken or was withdrawn. Only the last lines are ever handled without a request, and they only after a withdrawal. -/
theorem irq_protocol (c : Pair) (es : List Event) :
    let s := run es (start c)
    (s.phase = .running → (∀ i, s.pics.master.isr i = false ∧ s.pics.slave.isr i = false) ∧
      (s.pics.intr = true ↔ ∃ n, deliverable s.pics n = true)) ∧
    (∀ v, s.phase.intNo = some v → 32 ≤ v.toNat ∧ v.toNat < 48 ∧ v ≠ 34) ∧
    (∀ n, s.handled n + (if s.phase.current = some n then 1 else 0) + (latched s.pics n).toNat + s.withdrawn n =
      s.raised n + s.spurious n) ∧
    (∀ n, n ≠ 7 → n ≠ 15 → s.spurious n = 0) ∧ ((∀ n, s.withdrawn n = 0) → ∀ n, s.spurious n = 0) := by
  intro s
  obtain ⟨h,hquiet⟩ := quiet_run c es
  refine ⟨fun hrun => ⟨fun i => ⟨?_,?_⟩,?_⟩,fun v hv => ?_,h.count,h.last,fun hnone => (hquiet hnone).2⟩
  · exact h.masterIdle (by rw [hrun]; rfl) i
  · exact h.slaveIdle (by rw [hrun]; rfl) i
  · exact h.intr_iff (by rw [hrun]; rfl) (by rw [hrun]; rfl)
  · have hirq := h.vector v hv
    exact ⟨hirq.ge,hirq.lt,hirq.ne⟩

/-! ## Progress -/

theorem deliverable_congr {c c' : Pair} (hlatch : ∀ n, latched c n = latched c' n) (hmaster : c.master.imr = c'.master.imr)
    (hslave : c.slave.imr = c'.slave.imr) (n : Fin 16) : deliverable c n = deliverable c' n := by
  have hm : c.master.masked = c'.master.masked := funext fun i => by rw [Pic.masked, hmaster]; rfl
  have hs : c.slave.masked = c'.slave.masked := funext fun i => by rw [Pic.masked, hslave]; rfl
  rw [deliverable, deliverable, hlatch, hm, hs]

theorem deliverable_setLatch_false (c : Pair) (n m : Fin 16) :
    deliverable (setLatch c n false) m = (deliverable c m && decide (m ≠ n)) := by
  have hmasks : deliverable (setLatch c n false) m = (latched (setLatch c n false) m &&
      if h : m.val < 8 then !c.master.masked ⟨m,h⟩ else !c.slave.masked ⟨m - 8,by omega⟩ && !c.master.masked 2) := by
    rw [deliverable, setLatch_master, setLatch_slave]
    rfl
  rw [hmasks]
  by_cases hm : m = n
  · rw [hm, latched_setLatch_self, decide_eq_false (not_not.mpr rfl), Bool.and_false]
    rfl
  · rw [latched_setLatch_of_ne _ _ _ hm, decide_eq_true hm, Bool.and_true]
    rfl

theorem deliverable_sendEoi (irq : UInt8) (c : Pair) : deliverable (picSendEoi irq c) = deliverable c := by
  funext n
  unfold picSendEoi sendEoiSlave
  split <;> rfl

/-- The acknowledgement of a request, from the interrupt line to the entry of the stub. -/
theorem Protocol.acknowledge {s : Sys} (h : Protocol s) (hrun : s.phase = .running) (hif : s.intFlag = true)
    (hintr : s.pics.intr = true) : ∃ v c, deliverable s.pics (lineOf v) = true ∧
      (∀ m, deliverable c m = (deliverable s.pics m && decide (m ≠ lineOf v))) ∧
      cpuStep (cpuStep (cpuStep s)) = { s with pics := c, phase := .slaveEoi v } := by
  have htaken : cpuStep s = { s with phase := .inta1 } := by
    unfold cpuStep
    rw [hrun]
    dsimp only
    rw [hif, hintr]
    rfl
  obtain ⟨i,hi⟩ := Option.isSome_iff_exists.mp hintr
  have hfirst : cpuStep (cpuStep s) =
      { s with pics := { s.pics with master := s.pics.master.ack i }, phase := .inta2 (some i) } := by
    rw [htaken]
    change ({ s with pics := s.pics.inta1.2, phase := .inta2 s.pics.inta1.1 } : Sys) = _
    rw [Pair.inta1, hi]
  obtain ⟨hrequest,hmask⟩ := Pic.of_next hi
  rw [hfirst]
  by_cases h2 : i = 2
  · subst h2
    rw [Pair.requests, if_pos ((h.cascade_iff 2).mpr rfl), Option.isSome_iff_exists] at hrequest
    obtain ⟨j,hj⟩ := hrequest
    obtain ⟨hirr,hopen⟩ := Pic.of_next hj
    obtain ⟨-,hline⟩ := isIrq_slave j
    refine ⟨40 + UInt8.ofNat j,⟨s.pics.master.ack 2,s.pics.slave.ack j⟩,?_,fun m => ?_,?_⟩
    · rw [hline, deliverable_onSlave, hirr, hopen, hmask]
      rfl
    · rw [hline, ← deliverable_setLatch_false]
      refine deliverable_congr (fun n => ?_) ?_ ?_ m
      · -- the latch of the master's line was already clear
        have hsame : Function.update s.pics.master.irr 2 false = s.pics.master.irr := by
          rw [← h.wire, Function.update_eq_self]
        rw [← latched_ackSlave]
        unfold latched
        split
        · change Function.update s.pics.master.irr 2 false _ = _
          rw [hsame]
        · rfl
      · rw [setLatch_master]
        rfl
      · rw [setLatch_slave]
        rfl
    · have hv : Pair.inta2 ⟨s.pics.master.ack 2,s.pics.slave⟩ (some 2) =
          ((40 + UInt8.ofNat j, false), ⟨s.pics.master.ack 2,s.pics.slave.ack j⟩) := by
        refine (if_pos ((h.cascade_iff 2).mpr rfl)).trans ?_
        dsimp only
        rw [hj, h.slave.base]
      unfold cpuStep
      dsimp only
      rw [hv]
      rfl
  · have hcascade : ¬s.pics.master.cascade.toNat.testBit i = true := h2 ∘ (h.cascade_iff i).mp
    rw [Pair.requests, if_neg hcascade] at hrequest
    obtain ⟨-,hline⟩ := isIrq_master i h2
    refine ⟨32 + UInt8.ofNat i,{ s.pics with master := s.pics.master.ack i },?_,fun m => ?_,?_⟩
    · rw [hline, deliverable_onMaster, hrequest, hmask]
      rfl
    · rw [hline, ← deliverable_setLatch_false]
      refine deliverable_congr (latched_ackMaster s.pics i) ?_ ?_ m
      · rw [setLatch_master]
        rfl
      · rw [setLatch_slave]
    · have hv : Pair.inta2 ⟨s.pics.master.ack i,s.pics.slave⟩ (some i) =
          ((32 + UInt8.ofNat i, false), ⟨s.pics.master.ack i,s.pics.slave⟩) := by
        refine (if_neg hcascade).trans ?_
        rw [← h.master.base]
        rfl
      unfold cpuStep
      dsimp only
      rw [hv]
      rfl

/-- One request from the interrupt line to the `iret`. -/
theorem Protocol.serve {s : Sys} (h : Protocol s) (hrun : s.phase = .running) (hif : s.intFlag = true)
    (hintr : s.pics.intr = true) : ∃ n, deliverable s.pics n = true ∧
      let s' := run (List.replicate 6 .cpu) s
      s'.phase = .running ∧ s'.intFlag = true ∧ s'.handled = bump s.handled n ∧
      ∀ m, deliverable s'.pics m = (deliverable s.pics m && decide (m ≠ n)) := by
  obtain ⟨v,c,hline,hc,hstub⟩ := h.acknowledge hrun hif hintr
  have hend : run (List.replicate 6 .cpu) s =
      { s with pics := picSendEoi (irqOf v) c, phase := .running, handled := bump s.handled (lineOf v) } := by
    change cpuStep (cpuStep (cpuStep (cpuStep (cpuStep (cpuStep s))))) = _
    rw [hstub]
    rfl
  refine ⟨lineOf v,hline,?_⟩
  rw [hend]
  refine ⟨rfl,hif,rfl,fun m => ?_⟩
  rw [deliverable_sendEoi]
  exact hc m

def waiting (c : Pair) : Finset (Fin 16) := Finset.univ.filter (deliverable c · = true)

theorem Protocol.drain {s : Sys} (h : Protocol s) (hrun : s.phase = .running) (hif : s.intFlag = true) :
    let s' := run (List.replicate (6 * (waiting s.pics).card) .cpu) s
    s'.phase = .running ∧ (∀ n, deliverable s'.pics n = false) ∧
      ∀ n, s'.handled n = s.handled n + (deliverable s.pics n).toNat := by
  induction hk : (waiting s.pics).card generalizing s with
  | zero =>
    have hnone : ∀ n, deliverable s.pics n = false := fun n => Bool.eq_false_of_not_eq_true fun hn =>
      Finset.notMem_empty n (Finset.card_eq_zero.mp hk ▸ Finset.mem_filter.mpr ⟨Finset.mem_univ n,hn⟩)
    refine ⟨hrun,hnone,fun n => ?_⟩
    rw [hnone]
    rfl
  | succ k ih =>
    obtain ⟨n,hn⟩ := Finset.card_pos.mp (by rw [hk]; exact Nat.succ_pos k)
    have hintr := (h.intr_iff (by rw [hrun]; rfl) (by rw [hrun]; rfl)).mpr ⟨n,(Finset.mem_filter.mp hn).2⟩
    obtain ⟨m,hm,hrun',hif',hhandled,hrest⟩ := h.serve hrun hif hintr
    have hwaiting : waiting (run (List.replicate 6 .cpu) s).pics = (waiting s.pics).erase m := by
      ext l
      rw [Finset.mem_erase, waiting, waiting, Finset.mem_filter, Finset.mem_filter, hrest, Bool.and_eq_true, decide_eq_true_eq]
      tauto
    have hmem : m ∈ waiting s.pics := Finset.mem_filter.mpr ⟨Finset.mem_univ m,hm⟩
    have hcard : (waiting (run (List.replicate 6 .cpu) s).pics).card = k := by
      rw [hwaiting, Finset.card_erase_of_mem hmem, hk]
      rfl
    have hsplit : run (List.replicate (6 * (k + 1)) .cpu) s =
        run (List.replicate (6 * k) .cpu) (run (List.replicate 6 .cpu) s) := by
      rw [Nat.mul_succ, Nat.add_comm, List.replicate_add]
      exact List.foldl_append ..
    obtain ⟨hidle,hnone,hcount⟩ := ih (run_invariant (fun _ e hs => hs.step e) _ h) hrun' hif' hcard
    rw [hsplit]
    refine ⟨hidle,hnone,fun l => ?_⟩
    rw [hcount, hhandled, hrest]
    by_cases hl : l = m
    · rw [hl, bump_self, hm, decide_eq_false (not_not.mpr rfl)]
      rfl
    · rw [bump_of_ne _ hl, decide_eq_true hl, Bool.and_true]

/-- Once the devices are quiet, the processor handles every request that is not masked, each exactly once and in six steps. -/
theorem irq_drain (c : Pair) (es : List Event) (hrun : (run es (start c)).phase = .running)
    (hif : (run es (start c)).intFlag = true) :
    let s := run es (start c)
    let s' := run (List.replicate (6 * (waiting s.pics).card) .cpu) s
    s'.phase = .running ∧ (∀ n, deliverable s'.pics n = false) ∧
      ∀ n, s'.handled n = s.handled n + (deliverable s.pics n).toNat :=
  (quiet_run c es).protocol.drain hrun hif

def unset : Pic := ⟨fun _ => false,fun _ => false,0,0,0,0,.ready⟩

/-- The keyboard, the clock on the slave and a masked line. -/
theorem irq_drain_three :
    let s := run [.setMask 4, .raise 1, .raise 8, .raise 4, .sti] (start ⟨unset,unset⟩)
    let s' := run (List.replicate (6 * (waiting s.pics).card) .cpu) s
    (s.phase = .running ∧ s.intFlag = true) ∧ s'.handled 1 = 1 ∧ s'.handled 8 = 1 ∧ s'.handled 4 = 0 := by
  have hdrain := (irq_drain ⟨unset,unset⟩ [.setMask 4, .raise 1, .raise 8, .raise 4, .sti] rfl rfl).2.2
  exact ⟨⟨rfl,rfl⟩,(hdrain 1).trans rfl,(hdrain 8).trans rfl,(hdrain 4).trans rfl⟩

end ApPa.Arch.Irq

import ApPa.Lib.ByteMem
import ApPa.Lib.Loop
import Mathlib.Data.UInt

/-! # Real mode

The registers, the memory and the stack of 16-bit code, and what such code may expect of the BIOS when it reads a disk. The
BIOS runs on the caller's stack and has memory of its own; what it does there is not known.
-/
namespace ApPa.RealMode
open ByteMem Loop

/-! ## Bytes and words -/

def lo (w : UInt16) : UInt8 := UInt8.ofNat w.toNat
def hi (w : UInt16) : UInt8 := UInt8.ofNat (w.toNat / 256)
def word (h l : UInt8) : UInt16 := UInt16.ofNat (256 * h.toNat + l.toNat)

theorem toNat_word (h l : UInt8) : (word h l).toNat = 256 * h.toNat + l.toNat := by
  have := h.toNat_lt
  have := l.toNat_lt
  rw [word, UInt16.toNat_ofNat']
  omega

@[simp] theorem lo_word (h l : UInt8) : lo (word h l) = l := by
  have := l.toNat_lt
  apply UInt8.toNat_inj.mp
  rw [lo, toNat_word, UInt8.toNat_ofNat']
  omega

@[simp] theorem hi_word (h l : UInt8) : hi (word h l) = h := by
  have := h.toNat_lt
  have := l.toNat_lt
  apply UInt8.toNat_inj.mp
  rw [hi, toNat_word, UInt8.toNat_ofNat']
  omega

@[simp] theorem word_hi_lo (w : UInt16) : word (hi w) (lo w) = w := by
  have := w.toNat_lt
  apply UInt16.toNat_inj.mp
  rw [toNat_word, hi, lo, UInt8.toNat_ofNat', UInt8.toNat_ofNat']
  omega

def readWord (m : Mem) (a : ℕ) : UInt16 := word (m (a + 1)) (m a)

def writeWord (m : Mem) (a : ℕ) (w : UInt16) : Mem := Function.update (Function.update m a (lo w)) (a + 1) (hi w)

@[simp] theorem readWord_writeWord (m : Mem) (a : ℕ) (w : UInt16) : readWord (writeWord m a w) a = w := by
  rw [readWord, writeWord, Function.update_self, Function.update_of_ne (Nat.ne_of_lt (Nat.lt_succ_self a)),
    Function.update_self, word_hi_lo]

theorem writeWord_of_ne {m : Mem} {a x : ℕ} (w : UInt16) (h : x < a ∨ a + 2 ≤ x) : writeWord m a w x = m x := by
  rw [writeWord, Function.update_of_ne (by omega), Function.update_of_ne (by omega)]

theorem readWord_congr {m m' : Mem} {a : ℕ} (h : ∀ x, a ≤ x → x < a + 2 → m' x = m x) : readWord m' a = readWord m a := by
  rw [readWord, h a (Nat.le_refl a) (by omega), h (a + 1) (Nat.le_succ a) (Nat.lt_succ_self _), readWord]

/-! ## The machine -/

structure Cpu where
  ax : UInt16
  cx : UInt16
  dx : UInt16
  bx : UInt16
  sp : UInt16
  bp : UInt16
  si : UInt16
  di : UInt16
  es : UInt16
  ss : UInt16

/-- `calls` counts the calls of the BIOS. -/
structure State where
  cpu : Cpu
  mem : Mem
  calls : ℕ

/-- A segment starts at 16 times its number. -/
def linear (seg off : UInt16) : ℕ := 16 * seg.toNat + off.toNat

def Cpu.top (c : Cpu) : ℕ := linear c.ss c.sp

/-- What `pusha` pushes, in this order. -/
def Cpu.saved (c : Cpu) : List UInt16 := [c.ax, c.cx, c.dx, c.bx, c.sp, c.bp, c.si, c.di]

namespace State
variable (s : State)

def store (a : ℕ) (b : UInt8) : State := { s with mem := Function.update s.mem a b }
def storeWord (a : ℕ) (w : UInt16) : State := { s with mem := writeWord s.mem a w }

def push (w : UInt16) : State :=
  { s with cpu := { s.cpu with sp := s.cpu.sp - 2 }, mem := writeWord s.mem (linear s.cpu.ss (s.cpu.sp - 2)) w }

def pop : UInt16 × State := (readWord s.mem s.cpu.top, { s with cpu := { s.cpu with sp := s.cpu.sp + 2 } })

def pusha : State := s.cpu.saved.foldl push s

/-- The saved `sp` is skipped. -/
def popa : State :=
  let saved := fun i : UInt16 => readWord s.mem (linear s.cpu.ss (s.cpu.sp + 2 * i))
  let cpu := { s.cpu with di := saved 0, si := saved 1, bp := saved 2, sp := s.cpu.sp + 16 }
  { s with cpu := { cpu with bx := saved 4, dx := saved 5, cx := saved 6, ax := saved 7 } }

end State

section
variable {s : State}

theorem store_self (a : ℕ) (b : UInt8) : (s.store a b).mem a = b := Function.update_self ..

theorem store_of_ne {a x : ℕ} (b : UInt8) (h : x ≠ a) : (s.store a b).mem x = s.mem x := Function.update_of_ne h ..

theorem linear_sub {seg off k : UInt16} (h : k ≤ off) : linear seg (off - k) + k.toNat = linear seg off := by
  have := UInt16.le_iff_toNat_le.mp h
  rw [linear, linear, UInt16.toNat_sub_of_le _ _ h]
  omega

theorem top_push (h : 2 ≤ s.cpu.sp) (w : UInt16) : (s.push w).cpu.top + 2 = s.cpu.top := linear_sub h

theorem push_mem_of_ne (h : 2 ≤ s.cpu.sp) (w : UInt16) {x : ℕ} (hx : x + 2 < s.cpu.top ∨ s.cpu.top ≤ x) :
    (s.push w).mem x = s.mem x := by
  have := top_push h w
  exact writeWord_of_ne w (show x < (s.push w).cpu.top ∨ (s.push w).cpu.top + 2 ≤ x by omega)

/-- A word that is popped at once has been written below the top all the same. -/
theorem pop_push (w : UInt16) : (s.push w).pop = (w, s.storeWord (linear s.cpu.ss (s.cpu.sp - 2)) w) := by
  have hword : readWord (s.push w).mem (s.push w).cpu.top = w := readWord_writeWord ..
  have hsp : (s.push w).cpu.sp + 2 = s.cpu.sp := UInt16.sub_add_cancel ..
  rw [State.pop, hword, hsp]
  rfl

end

-- eight pushes are not to be unfolded by the way
attribute [irreducible] State.pusha

/-- What keeps code from going on: an error that it reports, a return to somewhere else than behind the call, or the end of the
fuel. -/
inductive Stop where
  | diskError
  | wildReturn (ip : UInt16)
  | outOfFuel
  deriving DecidableEq

/-- A near call. The address behind it is on the stack, where `ret` finds it. -/
def call (back : UInt16) (body : State → Except Stop State) (s : State) : Except Stop State := do
  let s ← body (s.push back)
  let (ip, s) := s.pop
  if ip = back then .ok s else .error (.wildReturn ip)

/-- A loop that ends when it has counted a byte of memory down to zero. -/
theorem loop_countdown {step : State → State ⊕ Except Stop State} {v : ℕ} (Inv Post : State → Prop)
    (hend : ∀ s, Inv s → s.mem v = 0 → ∃ s', step s = .inr (.ok s') ∧ Post s')
    (hturn : ∀ s, Inv s → s.mem v ≠ 0 → ∃ s', step s = .inl s' ∧ Inv s' ∧ (s'.mem v).toNat < (s.mem v).toNat)
    {s : State} (hs : Inv s) {fuel : ℕ} (hfuel : 256 ≤ fuel) :
    ∃ s', (loop step fuel s).getD (.error .outOfFuel) = .ok s' ∧ Post s' := by
  have hloop : ∃ r, loop step fuel s = some r ∧ ∃ s', r = .ok s' ∧ Post s' := by
    refine loop_spec Inv _ (fun s => (s.mem v).toNat) (fun s hs => ?_) hs (Nat.lt_of_lt_of_le (s.mem v).toNat_lt hfuel)
    by_cases hzero : s.mem v = 0
    · obtain ⟨s',hstep,hpost⟩ := hend s hs hzero
      exact .inr ⟨_,hstep,s',rfl,hpost⟩
    · exact .inl (hturn s hs hzero)
  obtain ⟨r,hloop,s',rfl,hpost⟩ := hloop
  exact ⟨s',by rw [hloop]; rfl,hpost⟩

/-! ## Disks -/

structure Geometry where
  sectorsPerTrack : ℕ
  heads : ℕ

def sectorBytes : ℕ := 512

/-! The registers of a read, function 2 of interrupt 13h. -/
namespace Cpu
variable (c : Cpu)

def count : ℕ := (lo c.ax).toNat
/-- Sectors are counted from 1. -/
def sector : ℕ := (lo c.cx).toNat % 64
def cylinder : ℕ := (hi c.cx).toNat + 256 * ((lo c.cx).toNat / 64)
def head : ℕ := (hi c.dx).toNat
def drive : UInt8 := lo c.dx
def buffer : ℕ := linear c.es c.bx

def lba (g : Geometry) : ℕ := (c.cylinder * g.heads + c.head) * g.sectorsPerTrack + (c.sector - 1)

/-- There are such sectors, on one track, and a buffer for them in the segment. -/
structure Valid (g : Geometry) : Prop where
  function : hi c.ax = 2
  sector_pos : 0 < c.sector
  head_lt : c.head < g.heads
  count_pos : 0 < c.count
  on_track : c.sector - 1 + c.count ≤ g.sectorsPerTrack
  in_segment : c.bx.toNat + sectorBytes * c.count ≤ 2 ^ 16

def InBuffer (x : ℕ) : Prop := c.buffer ≤ x ∧ x < c.buffer + sectorBytes * c.count

/-- The part of the stack that an interrupt may use. -/
def BelowTop (depth x : ℕ) : Prop := c.top ≤ x + depth ∧ x < c.top

end Cpu

/-- The service behind interrupt 13h: what it does at its `i`-th call. `none` is the carry flag. -/
abbrev Bios := ℕ → Cpu → Mem → Option (Cpu × Mem)

def State.int13 (bios : Bios) (s : State) : Option State :=
  (bios s.calls s.cpu s.mem).map fun r => ⟨r.1,r.2,s.calls + 1⟩

section
variable (g : Geometry) (disks : UInt8 → ℕ → UInt8) (own : ℕ → Prop) (depth : ℕ)

/-- The sectors are in the buffer. The rest of the memory is as before, except what the BIOS has for itself and the stack. -/
structure HasRead (c : Cpu) (m : Mem) (c' : Cpu) (m' : Mem) : Prop where
  cpu : ∃ ax, c' = { c with ax }
  data : ∀ j < sectorBytes * c.count, m' (c.buffer + j) = disks c.drive (sectorBytes * c.lba g + j)
  rest : ∀ x, ¬own x → ¬c.InBuffer x → ¬c.BelowTop depth x → m' x = m x

/-- The BIOS reads whatever there is to read, into a buffer that it does not use itself. -/
def Bios.Reads (bios : Bios) : Prop := ∀ i (c : Cpu) m, c.Valid g →
  (∀ x, c.InBuffer x → ¬own x ∧ ¬c.BelowTop depth x) → ∃ c' m', bios i c m = some (c', m') ∧ HasRead g disks own depth c m c' m'

end

/-- A request for sectors from `a` on into a buffer at `b`, where neither the BIOS nor the stack is. -/
theorem Bios.Reads.int13 {g : Geometry} {disks : UInt8 → ℕ → UInt8} {own : ℕ → Prop} {depth : ℕ} {bios : Bios}
    (h : bios.Reads g disks own depth) {s : State} {a b n : ℕ} (hvalid : s.cpu.Valid g) (hcount : s.cpu.count = n)
    (hlba : s.cpu.lba g = a) (hbuffer : s.cpu.buffer = b) (hfree : ∀ x, b ≤ x → x < b + 512 * n → ¬own x ∧ x + depth < s.cpu.top) :
    ∃ ax m', s.int13 bios = some ⟨{ s.cpu with ax },m',s.calls + 1⟩ ∧
      (∀ j < 512 * n, m' (b + j) = disks s.cpu.drive (512 * a + j)) ∧
      ∀ x, ¬own x → x < b ∨ b + 512 * n ≤ x → x + depth < s.cpu.top ∨ s.cpu.top ≤ x → m' x = s.mem x := by
  subst hcount hlba hbuffer
  obtain ⟨c',m',hbios,hread⟩ := h s.calls s.cpu s.mem hvalid fun x hx =>
    ⟨(hfree x hx.1 hx.2).1,fun hb => absurd hb.1 (Nat.not_le.mpr (hfree x hx.1 hx.2).2)⟩
  obtain ⟨ax,rfl⟩ := hread.cpu
  refine ⟨ax,m',by rw [State.int13, hbios]; rfl,hread.data,fun x hx hbuf hstack => hread.rest x hx (fun hb => ?_) fun hb => ?_⟩
  · exact hbuf.elim (Nat.not_lt.mpr hb.1) (Nat.not_le.mpr hb.2)
  · exact hstack.elim (Nat.not_lt.mpr hb.1) (Nat.not_le.mpr hb.2)

end ApPa.RealMode

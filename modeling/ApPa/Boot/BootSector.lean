import ApPa.Lib.Loop
import ApPa.Lib.RealMode

/-! # The boot sector

It loads the second stage to 0x0600 and jumps there. Its variables are bytes of the sector itself, its stack grows down from
0x9000, and the BIOS works on that stack too. Data and extra segment are 0, as the BIOS leaves them. The texts that are
printed on the way are left out.
-/
namespace ApPa.Boot
open ByteMem Loop RealMode

/-- The geometry that `stage2.asm` computes with. -/
def hdd : Geometry := ⟨63,16⟩

/-- What the BIOS has for itself: the vectors and data below, the extended data, the screen and the ROM above. -/
def biosArea (x : ℕ) : Prop := x < 0x600 ∨ 0x9FC00 ≤ x

/-- As much as the BIOS takes of the caller's stack. -/
def biosDepth : ℕ := 0x1000

def realModeStack : UInt16 := 0x9000
def stage2Offset : ℕ := 0x0600

/-- Where the assembler has put the variables of the boot sector, and the instructions behind its calls. -/
structure SectorLabels where
  sectorsRemaining : ℕ
  bootDrive : ℕ
  afterLoadStage2 : UInt16
  afterDiskLoad : UInt16
  in_sector : 0x7C00 ≤ sectorsRemaining
  in_order : sectorsRemaining + 3 ≤ bootDrive
  before_signature : bootDrive < 0x7DFE

namespace SectorLabels
variable (l : SectorLabels)

def currentSector : ℕ := l.sectorsRemaining + 1
def driveNum : ℕ := l.sectorsRemaining + 2

end SectorLabels

section
variable (bios : Bios) (l : SectorLabels)

/-- One turn of `.read_loop`. The comparison with 18 is signed. -/
def diskLoadStep (s : State) : State ⊕ Except Stop State :=
  let al := s.mem l.sectorsRemaining
  if al = 0 then .inr (.ok { s with cpu := { s.cpu with ax := word (hi s.cpu.ax) al } })
  else
    let al := if al.toInt8 ≤ 18 then al else 18
    let s := s.push (word (hi s.cpu.ax) al)
    let dx := word 0 (s.mem l.driveNum)
    let cx := word 0 (s.mem l.currentSector)
    match { s with cpu := { s.cpu with ax := word 2 al, dx, cx } }.int13 bios with
    | none => .inr (.error .diskError)
    | some s =>
      let (dx, s) := s.pop
      let al := lo dx
      let s := s.store l.sectorsRemaining (s.mem l.sectorsRemaining - al)
      let s := s.store l.currentSector (s.mem l.currentSector + al)
      let ax := al.toUInt16 <<< 9
      .inl { s with cpu := { s.cpu with ax, dx, bx := s.cpu.bx + ax } }

/-- `disk_load`, up to its `ret`. -/
def diskLoad (fuel : ℕ) (s : State) : Except Stop State := do
  let dx := s.cpu.dx
  let s := s.pusha.push dx
  let s := s.store l.sectorsRemaining (hi dx)
  let s := s.store l.currentSector 2
  let s := s.store l.driveNum (lo dx)
  let s ← (loop (diskLoadStep bios l) fuel s).getD (.error .outOfFuel)
  let (dx, s) := s.pop
  let s := { s with cpu := { s.cpu with dx } }
  return s.popa

def loadStage2 (fuel : ℕ) (s : State) : Except Stop State :=
  call l.afterDiskLoad (diskLoad bios l fuel)
    { s with cpu := { s.cpu with bx := UInt16.ofNat stage2Offset, dx := word 4 (s.mem l.bootDrive) } }

/-- The boot sector, up to the jump to the second stage. -/
def bootSector (fuel : ℕ) (s : State) : Except Stop State :=
  let s := s.store l.bootDrive (lo s.cpu.dx)
  call l.afterLoadStage2 (loadStage2 bios l fuel) { s with cpu := { s.cpu with bp := realModeStack, sp := realModeStack } }

end

/-! ## The loop -/

section
variable {bios : Bios} {l : SectorLabels} {disks : UInt8 → ℕ → UInt8} {s₀ : State} {N : ℕ}

/-- A buffer for `N` sectors below the boot sector, and a stack above it with room for `used` bytes and the BIOS. -/
structure Room (s : State) (N used : ℕ) : Prop where
  on_track : N ≤ 62
  low : 0x600 ≤ s.cpu.buffer
  high : s.cpu.buffer + 512 * N ≤ 0x7C00
  offset : s.cpu.bx.toNat + 512 * N < 2 ^ 16
  sp : used ≤ s.cpu.sp.toNat
  top_low : 0x7E00 + biosDepth + used ≤ s.cpu.top
  top_high : s.cpu.top ≤ 0x9000

/-- Neither the buffer, nor that part of the stack, nor the variables of `disk_load`, nor the BIOS's own. -/
structure Untouched (l : SectorLabels) (s : State) (N used x : ℕ) : Prop where
  bios : ¬biosArea x
  buffer : x < s.cpu.buffer ∨ s.cpu.buffer + 512 * N ≤ x
  stack : x + biosDepth + used < s.cpu.top ∨ s.cpu.top ≤ x
  vars : x < l.sectorsRemaining ∨ l.sectorsRemaining + 3 ≤ x

/-- `k` sectors have been fetched since the loop was entered in `s₀`. -/
structure Fetched (disks : UInt8 → ℕ → UInt8) (l : SectorLabels) (s₀ : State) (N k : ℕ) (s : State) : Prop where
  remaining : k + (s.mem l.sectorsRemaining).toNat = N
  sector : (s.mem l.currentSector).toNat = 2 + k
  drive : s.mem l.driveNum = s₀.mem l.driveNum
  offset : s.cpu.bx.toNat = s₀.cpu.bx.toNat + 512 * k
  cpu : s.cpu = { s₀.cpu with ax := s.cpu.ax, cx := s.cpu.cx, dx := s.cpu.dx, bx := s.cpu.bx }
  loaded : ∀ j < 512 * k, s.mem (s₀.cpu.buffer + j) = disks (s₀.mem l.driveNum) (512 + j)
  kept : ∀ x, Untouched l s₀ N 2 x → s.mem x = s₀.mem x

theorem toInt8_le (n : ℕ) (h : n < 63) : (UInt8.ofNat n).toInt8 ≤ 18 ↔ n ≤ 18 := by
  revert n
  decide

theorem toNat_chunk {al : UInt8} (h : al.toNat ≤ 62) : (if al.toInt8 ≤ 18 then al else 18).toNat = min 18 al.toNat := by
  have hsigned := toInt8_le al.toNat (Nat.lt_succ_of_le h)
  rw [UInt8.ofNat_toNat] at hsigned
  split
  · rename_i hle
    have := hsigned.mp hle
    omega
  · rename_i hle
    have : ¬al.toNat ≤ 18 := fun h => hle (hsigned.mpr h)
    change 18 = _
    omega

theorem toNat_shift9 {c : UInt8} (h : c.toNat ≤ 18) : (c.toUInt16 <<< 9).toNat = 512 * c.toNat := by
  rw [UInt16.toNat_shiftLeft, UInt8.toNat_toUInt16, Nat.shiftLeft_eq]
  change c.toNat * 2 ^ 9 % 2 ^ 16 = _
  omega

theorem diskLoad_request {k : ℕ} (c : Cpu) (al : UInt8) {current drive : UInt8} (hax : c.ax = word 2 al) (hcx : c.cx = word 0 current)
    (hdx : c.dx = word 0 drive) (hcurrent : current.toNat = 2 + k) (hal : 0 < al.toNat) (hk : k + al.toNat ≤ 62)
    (hbx : c.bx.toNat + 512 * al.toNat ≤ 2 ^ 16) :
    c.Valid hdd ∧ c.count = al.toNat ∧ c.lba hdd = 1 + k ∧ c.drive = drive := by
  have hcount : c.count = al.toNat := by rw [Cpu.count, hax, lo_word]
  have hsector : c.sector = 2 + k := by
    rw [Cpu.sector, hcx, lo_word, hcurrent]
    omega
  have hcylinder : c.cylinder = 0 := by
    rw [Cpu.cylinder, hcx, lo_word, hi_word, hcurrent]
    change 0 + _ = 0
    omega
  have hhead : c.head = 0 := by
    rw [Cpu.head, hdx, hi_word]
    rfl
  refine ⟨⟨?_,?_,?_,?_,?_,?_⟩,hcount,?_,?_⟩
  · rw [hax, hi_word]
  · omega
  · rw [hhead]
    decide
  · omega
  · rw [hsector, hcount]
    change _ ≤ 63
    omega
  · rw [hcount]
    exact hbx
  · rw [Cpu.lba, hcylinder, hhead, hsector]
    omega
  · rw [Cpu.drive, hdx, lo_word]

/-- The state in which a turn calls the BIOS for `al` sectors. -/
def chunkRequest (l : SectorLabels) (s : State) (al : UInt8) : State :=
  let s := s.push (word (hi s.cpu.ax) al)
  { s with cpu := { s.cpu with ax := word 2 al, dx := word 0 (s.mem l.driveNum), cx := word 0 (s.mem l.currentSector) } }

theorem Fetched.interrupt (hreads : bios.Reads hdd disks biosArea biosDepth) (hroom : Room s₀ N 2) {k : ℕ} {s : State}
    (h : Fetched disks l s₀ N k s) {al : UInt8} (hpos : 0 < al.toNat) (hal : al.toNat ≤ (s.mem l.sectorsRemaining).toNat) :
    ∃ ax m', (chunkRequest l s al).int13 bios = some ⟨{ (chunkRequest l s al).cpu with ax },m',s.calls + 1⟩ ∧
      readWord m' (s.push (word (hi s.cpu.ax) al)).cpu.top = word (hi s.cpu.ax) al ∧
      (∀ j < 512 * al.toNat, m' (s₀.cpu.buffer + (512 * k + j)) = disks (s₀.mem l.driveNum) (512 + (512 * k + j))) ∧
      ∀ x, ¬biosArea x → x < s₀.cpu.buffer + 512 * k ∨ s₀.cpu.buffer + 512 * (k + al.toNat) ≤ x →
        x + biosDepth + 2 < s₀.cpu.top ∨ s₀.cpu.top ≤ x → m' x = s.mem x := by
  obtain ⟨hN,hlow,hhigh,hoffset,hsp,htoplow,htophigh⟩ := hroom
  have hremaining := h.remaining
  have hbx := h.offset
  have hsector := l.in_sector
  have hvars : l.currentSector < 0x7E00 ∧ l.driveNum < 0x7E00 := by
    have := l.in_order
    have := l.before_signature
    unfold SectorLabels.currentSector SectorLabels.driveNum
    omega
  have hdepth : biosDepth = 0x1000 := rfl
  have htop : s.cpu.top = s₀.cpu.top := by rw [h.cpu]; rfl
  have h2 : 2 ≤ s.cpu.sp := by rw [h.cpu]; exact UInt16.le_iff_toNat_le.mpr hsp
  let s₁ := s.push (word (hi s.cpu.ax) al)
  let c := (chunkRequest l s al).cpu
  have hpush : s₁.cpu.top + 2 = s.cpu.top := top_push h2 _
  have hs₁ : ∀ x, x + 2 < s.cpu.top ∨ s.cpu.top ≤ x → s₁.mem x = s.mem x := fun x hx => push_mem_of_ne h2 _ hx
  obtain ⟨hvalid,hcount,hlba,hdrive⟩ := diskLoad_request (k := k) c al rfl rfl rfl
    (by rw [hs₁ _ (by omega)]; exact h.sector) hpos (by omega) (by change s.cpu.bx.toNat + _ ≤ _; omega)
  have hbuffer : c.buffer = s₀.cpu.buffer + 512 * k := by
    change linear s.cpu.es s.cpu.bx = linear s₀.cpu.es s₀.cpu.bx + _
    rw [linear, linear, hbx, h.cpu]
    exact (Nat.add_assoc ..).symm
  obtain ⟨ax,m',hint,hdata,hrest⟩ := hreads.int13 (s := chunkRequest l s al) hvalid hcount hlba hbuffer fun x hx₁ hx₂ =>
    ⟨by unfold biosArea; omega,show _ < s₁.cpu.top by omega⟩
  change ∀ x, _ → _ → x + _ < s₁.cpu.top ∨ s₁.cpu.top ≤ x → m' x = s₁.mem x at hrest
  refine ⟨ax,m',hint,?_,fun j hj => ?_,fun x hbios hbuf hstack => ?_⟩
  · have hkept := readWord_congr fun x hx₁ hx₂ => hrest x (by unfold biosArea; omega) (by omega) (.inr hx₁)
    exact hkept.trans (readWord_writeWord s.mem _ _)
  · have hsector := hdata j hj
    change m' _ = disks c.drive _ at hsector
    rwa [hdrive, hs₁ _ (by omega), h.drive, Nat.add_assoc, Nat.mul_add, Nat.add_assoc] at hsector
  · rw [hrest x hbios (by omega) (by omega), hs₁ x (by omega)]

theorem Fetched.step (hreads : bios.Reads hdd disks biosArea biosDepth) (hroom : Room s₀ N 2) {k : ℕ} {s : State}
    (h : Fetched disks l s₀ N k s) (hrem : s.mem l.sectorsRemaining ≠ 0) :
    ∃ s' k', diskLoadStep bios l s = .inl s' ∧ Fetched disks l s₀ N k' s' ∧
      (s'.mem l.sectorsRemaining).toNat < (s.mem l.sectorsRemaining).toNat := by
  have hremaining := h.remaining
  have hsector := l.in_sector
  have horder := l.in_order
  have hsignature := l.before_signature
  have hlow := hroom.low
  have hhigh := hroom.high
  have htoplow := hroom.top_low
  have hoffset := hroom.offset
  have hN := hroom.on_track
  have hcur : l.currentSector = l.sectorsRemaining + 1 := rfl
  have hdrv : l.driveNum = l.sectorsRemaining + 2 := rfl
  have hrem' : 0 < (s.mem l.sectorsRemaining).toNat := Nat.pos_of_ne_zero fun h => hrem (UInt8.toNat_inj.mp h)
  have hc := toNat_chunk (show (s.mem l.sectorsRemaining).toNat ≤ 62 by omega)
  unfold diskLoadStep
  dsimp only
  rw [if_neg hrem]
  generalize (if (s.mem l.sectorsRemaining).toInt8 ≤ 18 then s.mem l.sectorsRemaining else 18) = al at hc
  obtain ⟨ax,m',hint,hpop,hdata,hkept⟩ := h.interrupt hreads hroom (show 0 < al.toNat by omega) (by omega)
  -- the variables are where the BIOS does not write
  have hvars : ∀ x, l.sectorsRemaining ≤ x → x < l.sectorsRemaining + 3 → m' x = s.mem x := by
    intro x hx₁ hx₂
    exact hkept x (by unfold biosArea; omega) (by omega) (by omega)
  unfold chunkRequest at hint
  dsimp only at hint
  rw [hint]
  have hpop' : readWord m' (linear s.cpu.ss (s.cpu.sp - 2)) = word (hi s.cpu.ax) al := hpop
  let m₁ := Function.update m' l.sectorsRemaining (m' l.sectorsRemaining - al)
  let m₂ := Function.update m₁ l.currentSector (m₁ l.currentSector + al)
  have hm₁ : ∀ x, x ≠ l.sectorsRemaining → m₁ x = m' x := fun x hx => Function.update_of_ne hx ..
  have hm₂ : ∀ x, x ≠ l.currentSector → m₂ x = m₁ x := fun x hx => Function.update_of_ne hx ..
  have hrest : (m₂ l.sectorsRemaining).toNat = (s.mem l.sectorsRemaining).toNat - al.toNat := by
    rw [hm₂ _ (by omega), show m₁ l.sectorsRemaining = _ from Function.update_self .., hvars _ (Nat.le_refl _) (by omega)]
    exact UInt8.toNat_sub_of_le _ _ (UInt8.le_iff_toNat_le.mpr (by omega))
  let cx := (chunkRequest l s al).cpu.cx
  let ax' := al.toUInt16 <<< 9
  refine ⟨⟨{ s.cpu with ax := ax', cx, dx := word (hi s.cpu.ax) al, bx := s.cpu.bx + ax' },m₂,s.calls + 1⟩,k + al.toNat,?_,
    ⟨?_,?_,?_,?_,?_,fun j hj => ?_,fun x hx => ?_⟩,?_⟩
  · simp only [State.pop, State.store, Cpu.top, State.push, hpop', lo_word, UInt16.sub_add_cancel]
    rfl
  · change _ + (m₂ l.sectorsRemaining).toNat = N
    omega
  · change (m₂ l.currentSector).toNat = _
    rw [show m₂ l.currentSector = _ from Function.update_self .., hm₁ _ (by omega), hvars _ (by omega) (by omega),
      UInt8.toNat_add, h.sector]
    omega
  · change m₂ l.driveNum = _
    rw [hm₂ _ (by omega), hm₁ _ (by omega), hvars _ (by omega) (by omega)]
    exact h.drive
  · change (s.cpu.bx + al.toUInt16 <<< 9).toNat = _
    rw [UInt16.toNat_add, toNat_shift9 (by omega), h.offset]
    omega
  · rw [h.cpu]
  · change m₂ (s₀.cpu.buffer + j) = _
    rw [hm₂ _ (by omega), hm₁ _ (by omega)]
    by_cases hj' : j < 512 * k
    · rw [hkept _ (by unfold biosArea; omega) (by omega) (by omega)]
      exact h.loaded j hj'
    · have := hdata (j - 512 * k) (by omega)
      rwa [Nat.add_sub_cancel' (Nat.not_lt.mp hj')] at this
  · change m₂ x = _
    have hx₁ := hx.vars
    have hx₂ := hx.buffer
    rw [hm₂ _ (by omega), hm₁ _ (by omega), hkept x hx.bios (by omega) hx.stack]
    exact h.kept x hx
  · change (m₂ l.sectorsRemaining).toNat < _
    omega

theorem Fetched.loop (hreads : bios.Reads hdd disks biosArea biosDepth) (hroom : Room s₀ N 2) (h : Fetched disks l s₀ N 0 s₀)
    {fuel : ℕ} (hfuel : 256 ≤ fuel) :
    ∃ s', (Loop.loop (diskLoadStep bios l) fuel s₀).getD (.error .outOfFuel) = .ok s' ∧ Fetched disks l s₀ N N s' := by
  refine loop_countdown (v := l.sectorsRemaining) (fun s => ∃ k, Fetched disks l s₀ N k s) _ (fun s ⟨k,hk⟩ hrem => ?_)
    (fun s ⟨k,hk⟩ hrem => ?_) ⟨0,h⟩ hfuel
  · have hN := hk.remaining
    rw [hrem] at hN
    cases hN
    refine ⟨_,if_pos hrem,⟨hk.remaining,hk.sector,hk.drive,hk.offset,?_,hk.loaded,hk.kept⟩⟩
    rw [hk.cpu]
  · obtain ⟨s',k',hstep,hk',hlt⟩ := hk.step hreads hroom hrem
    exact ⟨s',hstep,⟨k',hk'⟩,hlt⟩

/-! ## The routines -/

end
end ApPa.Boot

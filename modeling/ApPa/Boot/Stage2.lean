import ApPa.Boot.BootSector

/-! # The second stage

It moves the stack out of the way of the kernel and loads the kernel to 0x1000, track by track. Its position is kept in
variables behind its code, and the number of sectors is part of one of its instructions, where the makefile has put it. The
switch to protected mode, which follows, and the texts that are printed are left out.
-/
namespace ApPa.Boot
open ByteMem Loop RealMode

def kernelOffset : ℕ := 0x1000
def stage2PatchOffset : ℕ := 0x3F

/-- Where the assembler has put the variables of the second stage, and the instruction behind its call. -/
structure Stage2Labels where
  bootDrive : ℕ
  afterLoadKernel : UInt16
  after_code : stage2Offset + stage2PatchOffset < bootDrive
  in_stage2 : bootDrive + 6 ≤ stage2Offset + 2048

namespace Stage2Labels
variable (l : Stage2Labels)

def lbaSector : ℕ := l.bootDrive + 1
def sectorsRemaining : ℕ := l.bootDrive + 2
def readCount : ℕ := l.bootDrive + 3
def bufferSeg : ℕ := l.bootDrive + 4

theorem layout : 0x63F < l.bootDrive ∧ l.bootDrive + 6 ≤ 0xE00 ∧ l.lbaSector = l.bootDrive + 1 ∧
    l.sectorsRemaining = l.bootDrive + 2 ∧ l.readCount = l.bootDrive + 3 ∧ l.bufferSeg = l.bootDrive + 4 :=
  ⟨l.after_code,l.in_stage2,rfl,rfl,rfl,rfl⟩

end Stage2Labels

section
variable (bios : Bios) (l : Stage2Labels)

/-- How many sectors a turn reads from sector `cl` of a track on: up to the end of the track, but not more than remain and not
more than 127. -/
def trackCount (cl remaining : UInt8) : UInt8 :=
  let left := 64 - cl
  let al := if left ≤ remaining then left else remaining
  if al ≤ 127 then al else 127

/-- One turn of `.load_loop`. -/
def loadStep (s : State) : State ⊕ Except Stop State :=
  if s.mem l.sectorsRemaining = 0 then .inr (.ok { s with cpu := { s.cpu with ax := word (hi s.cpu.ax) 0 } })
  else
    let lba := s.mem l.lbaSector
    let s := s.push s.cpu.bx
    let track := lba / 63
    let cl := lba % 63 + 1
    let (_, s) := s.pop
    let al := trackCount cl (s.mem l.sectorsRemaining)
    let s := s.store l.readCount al
    let s := s.push (word 0 al)
    let es := readWord s.mem l.bufferSeg
    let (ax, s) := s.pop
    let cx := word (track / 16) cl
    let dx := word (track % 16) (s.mem l.bootDrive)
    match { s with cpu := { s.cpu with ax := word 2 (lo ax), bx := 0, cx, dx, es } }.int13 bios with
    | none => .inr (.error .diskError)
    | some s =>
      let al := s.mem l.readCount
      let s := s.store l.sectorsRemaining (s.mem l.sectorsRemaining - al)
      let s := s.store l.lbaSector (s.mem l.lbaSector + al)
      let ax := (s.mem l.readCount).toUInt16 <<< 5
      let s := s.storeWord l.bufferSeg (readWord s.mem l.bufferSeg + ax)
      .inl { s with cpu := { s.cpu with ax } }

/-- `load_kernel_stage2`, up to its `ret`. The number of sectors is a byte of the code. -/
def loadKernelStage2 (fuel : ℕ) (s : State) : Except Stop State :=
  let s := s.storeWord l.bufferSeg (UInt16.ofNat (kernelOffset / 16))
  let s := s.store l.lbaSector 5
  let s := s.store l.sectorsRemaining (s.mem (stage2Offset + stage2PatchOffset))
  (loop (loadStep bios l) fuel s).getD (.error .outOfFuel)

/-- `stage2_start`, up to the switch to protected mode. The stack is moved before the first call. -/
def stage2Start (fuel : ℕ) (s : State) : Except Stop State :=
  let s := s.store l.bootDrive (lo s.cpu.dx)
  call l.afterLoadKernel (loadKernelStage2 bios l fuel) { s with cpu := { s.cpu with ax := 0x7000, ss := 0x7000, sp := 0, bp := 0 } }

/-- From the start of the boot sector to the switch. -/
def boot (b : SectorLabels) (fuel : ℕ) (s : State) : Except Stop State := do
  let s ← bootSector bios b fuel s
  stage2Start bios l fuel s

end

/-- The disk image that the makefile puts together. `bytes([SECTORS])` fails for a number that is not a byte. -/
def image (bootSector stage2 kernel : List UInt8) : Option (List UInt8) :=
  let sectors := (kernel.length + 511) / 512
  if sectors < 256 then
    let files := bootSector ++ stage2.set stage2PatchOffset (UInt8.ofNat sectors) ++ kernel
    some (files ++ List.replicate (512 + 2048 + sectors * 512 - files.length) 0)
  else none

/-! ## The loop -/

section
variable {bios : Bios} {l : Stage2Labels} {disks : UInt8 → ℕ → UInt8} {s₀ : State} {N : ℕ}

/-- Neither the kernel, nor the variables of the loop, nor the stack, nor the BIOS's own. -/
structure Spared (l : Stage2Labels) (N x : ℕ) : Prop where
  bios : ¬biosArea x
  kernel : x < kernelOffset ∨ kernelOffset + 512 * N ≤ x
  stack : x < 0x7FFFE - biosDepth ∨ 0x7FFFE ≤ x
  vars : x ≤ l.bootDrive ∨ l.bootDrive + 6 ≤ x

/-- `k` sectors have been loaded since the loop was entered in `s₀`. More are to come only from the first of them or from the
start of a track on, so that the sector number, which is a byte, has not wrapped. -/
structure Loaded (disks : UInt8 → ℕ → UInt8) (l : Stage2Labels) (s₀ : State) (N k : ℕ) (s : State) : Prop where
  remaining : k + (s.mem l.sectorsRemaining).toNat = N
  lba : (s.mem l.lbaSector).toNat = (5 + k) % 256
  seg : (readWord s.mem l.bufferSeg).toNat = 256 + 32 * k
  ss : s.cpu.ss = 0x7000
  sp : s.cpu.sp = 0xFFFE
  loaded : ∀ j < 512 * k, s.mem (kernelOffset + j) = disks (s₀.mem l.bootDrive) (512 * 5 + j)
  kept : ∀ x, Spared l N x → s.mem x = s₀.mem x
  aligned : s.mem l.sectorsRemaining = 0 ∨ k = 0 ∨ (5 + k) % 63 = 0

theorem toNat_shift5 {c : UInt8} (h : c.toNat ≤ 63) : (c.toUInt16 <<< 5).toNat = 32 * c.toNat := by
  rw [UInt16.toNat_shiftLeft, UInt8.toNat_toUInt16, Nat.shiftLeft_eq]
  change c.toNat * 2 ^ 5 % 2 ^ 16 = _
  omega

theorem toNat_trackSector (lba : UInt8) : (lba % 63 + 1).toNat = lba.toNat % 63 + 1 := by
  rw [UInt8.toNat_add, UInt8.toNat_mod]
  change (lba.toNat % 63 + 1) % 2 ^ 8 = _
  omega

theorem toNat_trackCount (lba remaining : UInt8) :
    (trackCount (lba % 63 + 1) remaining).toNat = min (63 - lba.toNat % 63) remaining.toNat := by
  have hcl := toNat_trackSector lba
  have hleft : (64 - (lba % 63 + 1)).toNat = 63 - lba.toNat % 63 := by
    rw [UInt8.toNat_sub_of_le _ _ (by rw [UInt8.le_iff_toNat_le, hcl]; change _ ≤ 64; omega), hcl]
    change 64 - _ = _
    omega
  have hmin : (if 64 - (lba % 63 + 1) ≤ remaining then 64 - (lba % 63 + 1) else remaining).toNat =
      min (63 - lba.toNat % 63) remaining.toNat := by
    split
    · rename_i hle
      rw [UInt8.le_iff_toNat_le, hleft] at hle
      omega
    · rename_i hle
      rw [UInt8.le_iff_toNat_le, hleft] at hle
      omega
  unfold trackCount
  dsimp only
  rw [if_pos (UInt8.le_iff_toNat_le.mpr (by rw [hmin]; change _ ≤ 127; omega)), hmin]

theorem load_request (c : Cpu) {lba remaining drive : UInt8} (hlba : lba.toNat ≤ 252) (hrem : 0 < remaining.toNat)
    (hax : c.ax = word 2 (trackCount (lba % 63 + 1) remaining)) (hbx : c.bx = 0) (hcx : c.cx = word (lba / 63 / 16) (lba % 63 + 1))
    (hdx : c.dx = word (lba / 63 % 16) drive) :
    c.Valid hdd ∧ c.count = min (63 - lba.toNat % 63) remaining.toNat ∧ c.lba hdd = lba.toNat ∧ c.drive = drive := by
  have hcount : c.count = min (63 - lba.toNat % 63) remaining.toNat := by rw [Cpu.count, hax, lo_word, toNat_trackCount]
  have hsector : c.sector = lba.toNat % 63 + 1 := by
    rw [Cpu.sector, hcx, lo_word, toNat_trackSector]
    omega
  have hcylinder : c.cylinder = 0 := by
    rw [Cpu.cylinder, hcx, lo_word, hi_word, toNat_trackSector, UInt8.toNat_div, UInt8.toNat_div]
    change lba.toNat / 63 / 16 + _ = 0
    omega
  have hhead : c.head = lba.toNat / 63 := by
    rw [Cpu.head, hdx, hi_word, UInt8.toNat_mod, UInt8.toNat_div]
    change lba.toNat / 63 % 16 = _
    omega
  refine ⟨⟨?_,?_,?_,?_,?_,?_⟩,hcount,?_,?_⟩
  · rw [hax, hi_word]
  · omega
  · rw [hhead]
    change _ < 16
    omega
  · omega
  · rw [hsector, hcount]
    change _ ≤ 63
    omega
  · rw [hbx, hcount]
    change 0 + 512 * _ ≤ _
    omega
  · rw [Cpu.lba, hcylinder, hhead, hsector]
    change (0 * 16 + _) * 63 + _ = _
    omega
  · rw [Cpu.drive, hdx, lo_word]

/-- The state in which a turn calls the BIOS. `bx` and `ax` have been on the stack. -/
def loadRequest (l : Stage2Labels) (s : State) : State :=
  let lba := s.mem l.lbaSector
  let al := trackCount (lba % 63 + 1) (s.mem l.sectorsRemaining)
  let slot := linear s.cpu.ss (s.cpu.sp - 2)
  let s := ((s.storeWord slot s.cpu.bx).store l.readCount al).storeWord slot (word 0 al)
  let cx := word (lba / 63 / 16) (lba % 63 + 1)
  let dx := word (lba / 63 % 16) (s.mem l.bootDrive)
  { s with cpu := { s.cpu with ax := word 2 al, bx := 0, cx, dx, es := readWord s.mem l.bufferSeg } }

theorem loadRequest_regs (l : Stage2Labels) (s : State) :
    (loadRequest l s).cpu.ss = s.cpu.ss ∧ (loadRequest l s).cpu.sp = s.cpu.sp ∧
      (loadRequest l s).cpu.ax = word 2 (trackCount (s.mem l.lbaSector % 63 + 1) (s.mem l.sectorsRemaining)) ∧
      (loadRequest l s).cpu.bx = 0 ∧ (loadRequest l s).cpu.cx = word (s.mem l.lbaSector / 63 / 16) (s.mem l.lbaSector % 63 + 1) ∧
      (loadRequest l s).cpu.dx = word (s.mem l.lbaSector / 63 % 16) ((loadRequest l s).mem l.bootDrive) ∧
      (loadRequest l s).cpu.es = readWord (loadRequest l s).mem l.bufferSeg := by
  unfold loadRequest
  exact ⟨rfl,rfl,rfl,rfl,rfl,rfl,rfl⟩

theorem loadRequest_mem {s : State} (hss : s.cpu.ss = 0x7000) (hsp : s.cpu.sp = 0xFFFE) :
    (loadRequest l s).mem l.readCount = trackCount (s.mem l.lbaSector % 63 + 1) (s.mem l.sectorsRemaining) ∧
      ∀ x, x ≠ l.readCount → x < 0x7FFFC ∨ 0x7FFFE ≤ x → (loadRequest l s).mem x = s.mem x := by
  have hslot : linear s.cpu.ss (s.cpu.sp - 2) = 0x7FFFC := by
    rw [hss, hsp]
    rfl
  obtain ⟨-,hin,-,-,hcount,-⟩ := l.layout
  unfold loadRequest
  dsimp only
  rw [hslot]
  constructor
  · exact (writeWord_of_ne _ (.inl (by omega))).trans (store_self ..)
  · intro x hx hx'
    calc _ = ((s.storeWord 0x7FFFC s.cpu.bx).store l.readCount _).mem x := writeWord_of_ne _ (by omega)
      _ = (s.storeWord 0x7FFFC s.cpu.bx).mem x := store_of_ne _ hx
      _ = s.mem x := writeWord_of_ne _ (by omega)

/-- What a turn does with the answer. -/
def loadAdvance (l : Stage2Labels) (s : State) : State :=
  let al := s.mem l.readCount
  let s := s.store l.sectorsRemaining (s.mem l.sectorsRemaining - al)
  let s := s.store l.lbaSector (s.mem l.lbaSector + al)
  let ax := (s.mem l.readCount).toUInt16 <<< 5
  let s := s.storeWord l.bufferSeg (readWord s.mem l.bufferSeg + ax)
  { s with cpu := { s.cpu with ax } }

theorem loadStep_eq {s : State} (hss : s.cpu.ss = 0x7000) (hsp : s.cpu.sp = 0xFFFE) (hrem : s.mem l.sectorsRemaining ≠ 0) :
    loadStep bios l s = match (loadRequest l s).int13 bios with
      | none => .inr (.error .diskError)
      | some s => .inl (loadAdvance l s) := by
  have hin : l.bootDrive + 6 ≤ 0xE00 := l.in_stage2
  have hkept : (s.storeWord (linear s.cpu.ss (s.cpu.sp - 2)) s.cpu.bx).mem l.sectorsRemaining = s.mem l.sectorsRemaining := by
    rw [hss, hsp]
    exact writeWord_of_ne _ (.inl (show l.bootDrive + 2 < 0x7FFFC by omega))
  unfold loadStep
  rw [if_neg hrem]
  simp only [pop_push, hkept, lo_word]
  rfl

theorem loadAdvance_mem (l : Stage2Labels) (s : State) :
    (loadAdvance l s).mem l.sectorsRemaining = s.mem l.sectorsRemaining - s.mem l.readCount ∧
      (loadAdvance l s).mem l.lbaSector = s.mem l.lbaSector + s.mem l.readCount ∧
      readWord (loadAdvance l s).mem l.bufferSeg = readWord s.mem l.bufferSeg + (s.mem l.readCount).toUInt16 <<< 5 ∧
      ∀ x, x ≤ l.bootDrive ∨ l.bootDrive + 6 ≤ x → (loadAdvance l s).mem x = s.mem x := by
  obtain ⟨-,-,hlba,hrem,hcount,hseg⟩ := l.layout
  let s₁ := s.store l.sectorsRemaining (s.mem l.sectorsRemaining - s.mem l.readCount)
  let s₂ := s₁.store l.lbaSector (s₁.mem l.lbaSector + s.mem l.readCount)
  have hs₁ : ∀ x, x ≠ l.sectorsRemaining → s₁.mem x = s.mem x := fun x hx => store_of_ne _ hx
  have hs₂ : ∀ x, x ≠ l.lbaSector → s₂.mem x = s₁.mem x := fun x hx => store_of_ne _ hx
  have hs₃ : ∀ x, x < l.bufferSeg ∨ l.bufferSeg + 2 ≤ x → (loadAdvance l s).mem x = s₂.mem x := fun x hx => writeWord_of_ne _ hx
  refine ⟨?_,?_,?_,fun x hx => ?_⟩
  · rw [hs₃ _ (by omega), hs₂ _ (by omega)]
    exact store_self ..
  · rw [hs₃ _ (by omega), ← hs₁ _ (show l.lbaSector ≠ _ by omega)]
    exact store_self ..
  · have hword : readWord (loadAdvance l s).mem l.bufferSeg = readWord s₂.mem l.bufferSeg + (s₂.mem l.readCount).toUInt16 <<< 5 :=
      readWord_writeWord ..
    rw [hword, hs₂ _ (by omega), hs₁ _ (by omega),
      readWord_congr fun x _ _ => (hs₂ x (by omega)).trans (hs₁ x (by omega))]
  · rw [hs₃ x (by omega), hs₂ x (by omega), hs₁ x (by omega)]

/-- As long as sectors remain, the byte counts right, and the next sector is on one of the first four tracks. -/
theorem Loaded.position {k : ℕ} {s : State} (h : Loaded disks l s₀ N k s) (hN : N ≤ 255) (hrem : s.mem l.sectorsRemaining ≠ 0) :
    0 < (s.mem l.sectorsRemaining).toNat ∧ (s.mem l.lbaSector).toNat = 5 + k ∧ 5 + k ≤ 252 := by
  have hpos : 0 < (s.mem l.sectorsRemaining).toNat := Nat.pos_of_ne_zero fun h => hrem (UInt8.toNat_inj.mp h)
  have haligned := h.aligned.resolve_left hrem
  have hremaining := h.remaining
  have hlba := h.lba
  omega

theorem Loaded.interrupt (hreads : bios.Reads hdd disks biosArea biosDepth) (hN : N ≤ 255) {k : ℕ} {s : State}
    (h : Loaded disks l s₀ N k s) (hrem : s.mem l.sectorsRemaining ≠ 0) {al : UInt8}
    (hal : al = trackCount (s.mem l.lbaSector % 63 + 1) (s.mem l.sectorsRemaining)) :
    ∃ s', (loadRequest l s).int13 bios = some s' ∧ s'.cpu.ss = 0x7000 ∧ s'.cpu.sp = 0xFFFE ∧ s'.mem l.readCount = al ∧
      (∀ j < 512 * al.toNat, s'.mem (kernelOffset + (512 * k + j)) = disks (s₀.mem l.bootDrive) (512 * 5 + (512 * k + j))) ∧
      ∀ x, ¬biosArea x → x ≠ l.readCount → x < kernelOffset + 512 * k ∨ kernelOffset + 512 * (k + al.toNat) ≤ x →
        x < 0x7FFFE - biosDepth ∨ 0x7FFFE ≤ x → s'.mem x = s.mem x := by
  obtain ⟨hcode,hin,-,-,hcountvar,hsegvar⟩ := l.layout
  have hoffset : kernelOffset = 0x1000 := rfl
  have hdepth : biosDepth = 0x1000 := rfl
  have hremaining := h.remaining
  obtain ⟨hpos,hlba,hle⟩ := h.position hN hrem
  obtain ⟨hcount₁,hmem⟩ := loadRequest_mem (l := l) h.ss h.sp
  obtain ⟨hss,hsp,hax,hbx,hcx,hdx,hes⟩ := loadRequest_regs l s
  generalize loadRequest l s = q at hcount₁ hmem hss hsp hax hbx hcx hdx hes ⊢
  let c := q.cpu
  have hdrive : q.mem l.bootDrive = s₀.mem l.bootDrive := by
    rw [hmem _ (by omega) (by omega)]
    exact h.kept _ ⟨by unfold biosArea; omega,by omega,by omega,.inl (Nat.le_refl _)⟩
  rw [hdrive] at hdx
  obtain ⟨hvalid,hcount,hsector,hdl⟩ := load_request c (by omega) hpos hax hbx hcx hdx
  have hbuffer : c.buffer = kernelOffset + 512 * k := by
    have hseg : readWord q.mem l.bufferSeg = readWord s.mem l.bufferSeg :=
      readWord_congr fun x _ _ => hmem x (by omega) (by omega)
    have hzero : c.bx.toNat = 0 := congrArg UInt16.toNat hbx
    rw [Cpu.buffer, linear, hes, hseg, h.seg, hzero]
    omega
  have htop : c.top = 0x7FFFE := by
    rw [Cpu.top, hss, hsp, h.ss, h.sp]
    rfl
  have hal' : c.count = al.toNat := by rw [hal, toNat_trackCount, hcount]
  obtain ⟨ax,m',hint,hdata,hrest⟩ := hreads.int13 (s := q) hvalid hal' (hsector.trans hlba) hbuffer fun x hx₁ hx₂ =>
    ⟨by unfold biosArea; omega,show _ < c.top by omega⟩
  change ∀ x, _ → _ → x + _ < c.top ∨ c.top ≤ x → m' x = q.mem x at hrest
  refine ⟨_,hint,hss.trans h.ss,hsp.trans h.sp,?_,fun j hj => ?_,fun x hbios hx hbuf hstack => ?_⟩
  · exact (hrest _ (by unfold biosArea; omega) (by omega) (by omega)).trans (hcount₁.trans hal.symm)
  · have hsectors := hdata j hj
    change m' _ = disks c.drive _ at hsectors
    rwa [hdl, Nat.add_assoc, Nat.mul_add, Nat.add_assoc] at hsectors
  · exact (hrest x hbios (by omega) (by omega)).trans (hmem x hx (by omega))

theorem Loaded.step (hreads : bios.Reads hdd disks biosArea biosDepth) (hN : N ≤ 255) {k : ℕ} {s : State}
    (h : Loaded disks l s₀ N k s) (hrem : s.mem l.sectorsRemaining ≠ 0) :
    ∃ s' k', loadStep bios l s = .inl s' ∧ Loaded disks l s₀ N k' s' ∧
      (s'.mem l.sectorsRemaining).toNat < (s.mem l.sectorsRemaining).toNat := by
  obtain ⟨hcode,hin,hlbavar,hremvar,hcountvar,hsegvar⟩ := l.layout
  have hoffset : kernelOffset = 0x1000 := rfl
  have hdepth : biosDepth = 0x1000 := rfl
  have hremaining := h.remaining
  obtain ⟨hpos,hlba,hle⟩ := h.position hN hrem
  obtain ⟨al,hal⟩ : ∃ al, al = trackCount (s.mem l.lbaSector % 63 + 1) (s.mem l.sectorsRemaining) := ⟨_,rfl⟩
  obtain ⟨s₁,hint,hss,hsp,hcount,hdata,hkept⟩ := h.interrupt hreads hN hrem hal
  have hc : al.toNat = min (63 - (5 + k) % 63) (s.mem l.sectorsRemaining).toNat := by rw [hal, toNat_trackCount, hlba]
  -- the variables are where the BIOS does not write
  have hvars : ∀ x, l.bootDrive < x → x < l.bootDrive + 6 → x ≠ l.readCount → s₁.mem x = s.mem x := by
    intro x hx₁ hx₂ hx₃
    exact hkept x (by unfold biosArea; omega) hx₃ (by omega) (by omega)
  obtain ⟨hrem',hlba',hseg',hmem'⟩ := loadAdvance_mem l s₁
  rw [hcount, hvars _ (by omega) (by omega) (by omega)] at hrem' hlba'
  rw [hcount, readWord_congr fun x _ _ => hvars x (by omega) (by omega) (by omega)] at hseg'
  have hrest : (s.mem l.sectorsRemaining - al).toNat = (s.mem l.sectorsRemaining).toNat - al.toNat :=
    UInt8.toNat_sub_of_le _ _ (UInt8.le_iff_toNat_le.mpr (by omega))
  refine ⟨loadAdvance l s₁,k + al.toNat,?_,⟨?_,?_,?_,hss,hsp,fun j hj => ?_,fun x hx => ?_,?_⟩,?_⟩
  · rw [loadStep_eq h.ss h.sp hrem, hint]
  · rw [hrem', hrest]
    omega
  · rw [hlba', UInt8.toNat_add, hlba]
    omega
  · rw [hseg', UInt16.toNat_add, toNat_shift5 (by omega), h.seg]
    omega
  · rw [hmem' _ (by omega)]
    by_cases hj' : j < 512 * k
    · rw [hkept _ (by unfold biosArea; omega) (by omega) (by omega) (by omega)]
      exact h.loaded j hj'
    · have := hdata (j - 512 * k) (by omega)
      rwa [Nat.add_sub_cancel' (Nat.not_lt.mp hj')] at this
  · have hx₁ := hx.vars
    have hx₂ := hx.kernel
    rw [hmem' x hx₁, hkept x hx.bios (by omega) (by omega) hx.stack]
    exact h.kept x hx
  · rcases Nat.eq_zero_or_pos ((s.mem l.sectorsRemaining).toNat - al.toNat) with hz | hpos
    · exact .inl (hrem'.trans (UInt8.toNat_inj.mp (hrest.trans hz)))
    · right
      omega
  · rw [hrem', hrest]
    omega

theorem Loaded.loop (hreads : bios.Reads hdd disks biosArea biosDepth) (hN : N ≤ 255) (h : Loaded disks l s₀ N 0 s₀) {fuel : ℕ}
    (hfuel : 256 ≤ fuel) :
    ∃ s', (Loop.loop (loadStep bios l) fuel s₀).getD (.error .outOfFuel) = .ok s' ∧ Loaded disks l s₀ N N s' := by
  refine loop_countdown (v := l.sectorsRemaining) (fun s => ∃ k, Loaded disks l s₀ N k s) _ (fun s ⟨k,hk⟩ hrem => ?_)
    (fun s ⟨k,hk⟩ hrem => ?_) ⟨0,h⟩ hfuel
  · have hN := hk.remaining
    rw [hrem] at hN
    cases hN
    exact ⟨_,if_pos hrem,⟨hk.remaining,hk.lba,hk.seg,hk.ss,hk.sp,hk.loaded,hk.kept,hk.aligned⟩⟩
  · obtain ⟨s',k',hstep,hk',hlt⟩ := hk.step hreads hN hrem
    exact ⟨s',hstep,⟨k',hk'⟩,hlt⟩

/-! ## The routines -/

end

/-! ## The image -/

section
variable {bootSector stage2 kernel img : List UInt8} (hboot : bootSector.length = 512) (hstage2 : stage2.length = 2048)
  (himage : image bootSector stage2 kernel = some img)
include himage

include hboot hstage2

end

end ApPa.Boot

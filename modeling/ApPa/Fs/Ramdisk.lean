import ApPa.Drivers.Screen
import ApPa.Fs.Volume
import ApPa.Memory.Paging
import ApPa.Memory.Pool

/-! # The RAM disk

`ramdisk.c`: a block device in pages of the physical memory manager. The test of a block number is made
on a 32-bit product and sum. Both wrap, so the block number counts modulo `2 ^ 23` and the last block
below that passes as well.
-/
namespace ApPa.Fs
open ByteMem Drivers Klibc Memory

/-- `ramdisk_base` and `ramdisk_size`. -/
structure Ramdisk where
  base : UInt32
  size : UInt32

structure RamdiskHost where
  phys : Phys
  screen : Screen
  disk : Ramdisk

def ramdiskRead (d : Ramdisk) (block : UInt32) (m : Mem) : Option Block :=
  if d.base = 0 then none
  else
    let offset := block * UInt32.ofNat blockSize
    if d.size < offset + UInt32.ofNat blockSize then none
    else some ⟨load m (d.base + offset).toNat blockSize,by rw [load, List.length_map, List.length_range]⟩

def ramdiskWrite (d : Ramdisk) (block : UInt32) (buf : Block) (m : Mem) : Bool × Mem :=
  if d.base = 0 then (false, m)
  else
    let offset := block * UInt32.ofNat blockSize
    if d.size < offset + UInt32.ofNat blockSize then (false, m)
    else (true, store m (d.base + offset).toNat buf.bytes)

/-- `(size_bytes + PAGE_SIZE - 1) / PAGE_SIZE`. -/
def pagesNeeded (sizeKb : UInt32) : UInt32 :=
  (sizeKb * 1024 + UInt32.ofNat pageSize - 1) / UInt32.ofNat pageSize

/-- `total_blocks` of the device that is returned, if there is one. -/
def ramdiskInit (h : RamdiskHost) (sizeKb : UInt32) : Option UInt32 × RamdiskHost :=
  let pages := pagesNeeded sizeKb
  let (physAddr, pmm) := h.phys.pmm.allocPages pages.toNat
  if physAddr = 0 then
    let screen := h.screen.kprint (ascii "ERROR: ramdisk_init() - Failed to allocate ")
    let screen := (screen.kprintUint pages).kprint (ascii " pages\n")
    (none, { h with phys := { h.phys with pmm }, screen })
  else
    let size := pages * UInt32.ofNat pageSize
    (some (size / UInt32.ofNat blockSize),
      { h with phys := ⟨fill h.phys.mem physAddr size.toNat 0,pmm⟩, disk := ⟨UInt32.ofNat physAddr,size⟩ })

def ramdiskDevice (d : Ramdisk) : BlockDevice Mem where
  read block m := (ramdiskRead d block m, m)
  write := ramdiskWrite d
  totalBlocks := d.size / UInt32.ofNat blockSize

/-! ## Disks that have been set up -/

/-- The disk lies in frames of its own, none of them the first. -/
structure Created (d : Ramdisk) : Prop where
  base_pos : 0 < d.base.toNat
  size_pages : ∃ pages, d.size.toNat = 8 * pages * blockSize
  fits : d.base.toNat + d.size.toNat ≤ totalFrames * pageSize

theorem created_of_ramdiskInit {h h' : RamdiskHost} {sizeKb total : UInt32}
    (hinit : ramdiskInit h sizeKb = (some total, h')) :
    Created h'.disk ∧ total = h'.disk.size / UInt32.ofNat blockSize := by
  unfold ramdiskInit at hinit
  generalize pagesNeeded sizeKb = pages at hinit
  dsimp only at hinit
  split at hinit
  · cases hinit
  · rename_i hne
    cases hinit
    refine ⟨?_,rfl⟩
    rcases h.phys.pmm.allocPages_spec pages.toNat with ⟨start,_,⟨haddr,hfits,_,_⟩,_⟩ | hnone
    · have hframes : totalFrames = 4096 := rfl
      have hpage : pageSize = 4096 := rfl
      have hblock : blockSize = 512 := rfl
      have hsize : (pages * UInt32.ofNat pageSize).toNat = pages.toNat * 4096 := by
        rw [UInt32.toNat_mul, UInt32.toNat_ofNat', hpage]
        omega
      have hbase : (UInt32.ofNat (h.phys.pmm.allocPages pages.toNat).1).toNat = start * 4096 := by
        rw [haddr, UInt32.toNat_ofNat', hpage]
        omega
      rw [haddr, hpage] at hne
      constructor
      · rw [hbase]
        omega
      · exact ⟨pages.toNat,by rw [hsize, hblock]; omega⟩
      · rw [hbase, hsize, hframes, hpage]
        omega
    · rw [hnone] at hne
      exact absurd rfl hne

theorem toNat_totalBlocks (d : Ramdisk) : (d.size / UInt32.ofNat blockSize).toNat = d.size.toNat / 512 :=
  UInt32.toNat_div ..

section
variable {d : Ramdisk} (hd : Created d)
include hd

theorem Created.accepts_iff (block : UInt32) :
    ¬d.size < block * UInt32.ofNat blockSize + UInt32.ofNat blockSize ↔
      block.toNat % 2 ^ 23 < d.size.toNat / 512 ∨ block.toNat % 2 ^ 23 = 2 ^ 23 - 1 := by
  have hfits := hd.fits
  obtain ⟨pages,hpages⟩ := hd.size_pages
  simp only [totalFrames, pageSize, blockSize] at hfits hpages
  rw [UInt32.not_lt, UInt32.le_iff_toNat_le, UInt32.toNat_add, UInt32.toNat_mul,
    show (UInt32.ofNat blockSize).toNat = 512 from rfl]
  omega

theorem Created.base_ne : d.base ≠ 0 := fun h => by
  have hpos := hd.base_pos
  rw [h] at hpos
  exact absurd hpos (Nat.lt_irrefl 0)

theorem Created.address {block : UInt32} (h : block.toNat % 2 ^ 23 < d.size.toNat / 512) :
    (d.base + block * UInt32.ofNat blockSize).toNat = d.base.toNat + block.toNat % 2 ^ 23 * blockSize := by
  have hfits := hd.fits
  simp only [totalFrames, pageSize] at hfits
  rw [UInt32.toNat_add, UInt32.toNat_mul, show (UInt32.ofNat blockSize).toNat = 512 from rfl, show blockSize = 512 from rfl]
  omega

end

def blockAt (d : Ramdisk) (n : ℕ) (m : Mem) : Block :=
  ⟨load m (d.base.toNat + n * blockSize) blockSize,by rw [load, List.length_map, List.length_range]⟩

section
variable {d : Ramdisk} (hd : Created d) {block : UInt32}
include hd

theorem Created.read_of_lt (h : block.toNat % 2 ^ 23 < d.size.toNat / 512) (m : Mem) :
    ramdiskRead d block m = some (blockAt d (block.toNat % 2 ^ 23) m) := by
  simp only [ramdiskRead, if_neg hd.base_ne, if_neg ((hd.accepts_iff block).mpr (.inl h)), hd.address h, blockAt]

theorem Created.write_of_lt (h : block.toNat % 2 ^ 23 < d.size.toNat / 512) (buf : Block) (m : Mem) :
    ramdiskWrite d block buf m = (true, store m (d.base.toNat + block.toNat % 2 ^ 23 * blockSize) buf.bytes) := by
  simp only [ramdiskWrite, if_neg hd.base_ne, if_neg ((hd.accepts_iff block).mpr (.inl h)), hd.address h]

/-- Only a block number that does not wrap into the disk is refused. -/
theorem Created.refused (h : d.size.toNat / 512 ≤ block.toNat % 2 ^ 23) (hlast : block.toNat % 2 ^ 23 ≠ 2 ^ 23 - 1)
    (buf : Block) (m : Mem) : ramdiskRead d block m = none ∧ ramdiskWrite d block buf m = (false, m) := by
  have hover : d.size < block * UInt32.ofNat blockSize + UInt32.ofNat blockSize := by
    by_contra hpass
    rcases (hd.accepts_iff block).mp hpass with hlt | heq
    · exact absurd hlt (Nat.not_lt.mpr h)
    · exact hlast heq
  simp only [ramdiskRead, ramdiskWrite, if_neg hd.base_ne, if_pos hover, and_self]

theorem Created.read_of_last (hlast : block.toNat % 2 ^ 23 = 2 ^ 23 - 1) (m : Mem) : (ramdiskRead d block m).isSome := by
  simp only [ramdiskRead, if_neg hd.base_ne, if_neg ((hd.accepts_iff block).mpr (.inr hlast)), Option.isSome_some]

end

/-- Blocks of the disk are read and written in their own place, and calls with other numbers fail and do nothing. -/
structure BlockLaw (d : Ramdisk) (total block : UInt32) : Prop where
  read_iff : ∀ m, (ramdiskRead d block m).isSome ↔ block < total
  write_iff : ∀ buf m, (ramdiskWrite d block buf m).1 = true ↔ block < total
  reads : block < total → ∀ m, ramdiskRead d block m = some (blockAt d block.toNat m)
  writes : block < total → ∀ buf m,
    (ramdiskWrite d block buf m).2 = store m (d.base.toNat + block.toNat * blockSize) buf.bytes
  refuses : ¬block < total → ∀ buf m, (ramdiskWrite d block buf m).2 = m

/-- Block numbers in range, and those that stay out of range modulo `2 ^ 23`. -/
def Unwrapped (total block : UInt32) : Prop :=
  block < total ∨ total.toNat ≤ block.toNat % 2 ^ 23 ∧ block.toNat % 2 ^ 23 ≠ 2 ^ 23 - 1

theorem lt_totalBlocks {d : Ramdisk} {block : UInt32} :
    block < d.size / UInt32.ofNat blockSize ↔ block.toNat < d.size.toNat / 512 := by
  rw [UInt32.lt_iff_toNat_lt, toNat_totalBlocks]

section
variable {d : Ramdisk} (hd : Created d) {block : UInt32}
include hd

theorem Created.blockLaw_iff : BlockLaw d (d.size / UInt32.ofNat blockSize) block ↔
    Unwrapped (d.size / UInt32.ofNat blockSize) block := by
  have hfits := hd.fits
  simp only [totalFrames, pageSize] at hfits
  by_cases hlt : block < d.size / UInt32.ofNat blockSize
  · have hn := lt_totalBlocks.mp hlt
    have hmod : block.toNat % 2 ^ 23 = block.toNat := Nat.mod_eq_of_lt (by omega)
    have hread := fun m => hd.read_of_lt (hmod.symm ▸ hn) m
    have hwrite := fun buf m => hd.write_of_lt (hmod.symm ▸ hn) buf m
    rw [hmod] at hread hwrite
    refine iff_of_true ⟨fun m => ?_,fun buf m => ?_,fun _ => hread,fun _ buf m => ?_,fun h => absurd hlt h⟩ (.inl hlt)
    · rw [hread]
      exact iff_of_true rfl hlt
    · rw [hwrite]
      exact iff_of_true rfl hlt
    · rw [hwrite]
  · constructor
    · intro hlaw
      have hnone := fun m => (hlaw.read_iff m).not.mpr hlt
      refine .inr ⟨Nat.le_of_not_lt fun h => hnone (fun _ => 0) ?_,fun h => hnone (fun _ => 0) (hd.read_of_last h _)⟩
      rw [hd.read_of_lt (toNat_totalBlocks d ▸ h)]
      rfl
    · rintro (h | ⟨hout,hlast⟩)
      · exact absurd h hlt
      · have hrefused := hd.refused (toNat_totalBlocks d ▸ hout) hlast
        refine ⟨fun m => ?_,fun buf m => ?_,fun h => absurd h hlt,fun h => absurd h hlt,fun _ buf m => ?_⟩
        · rw [(hrefused Block.zero m).1]
          exact iff_of_false Bool.false_ne_true hlt
        · rw [(hrefused buf m).2]
          exact iff_of_false Bool.false_ne_true hlt
        · rw [(hrefused buf m).2]

end

theorem blockAt_store (d : Ramdisk) (n k : ℕ) (buf : Block) (m : Mem) :
    blockAt d n (store m (d.base.toNat + k * blockSize) buf.bytes) = if n = k then buf else blockAt d n m := by
  have hblock : blockSize = 512 := rfl
  have hlen := buf.length_eq
  split
  · rename_i h
    rw [h]
    apply Block.ext
    dsimp only [blockAt]
    have hload := load_store_self m (d.base.toNat + k * blockSize) buf.bytes
    rwa [hlen] at hload
  · rename_i h
    apply Block.ext
    dsimp only [blockAt]
    refine load_congr fun x hx hx' => ?_
    rw [hblock] at hx hx' hlen ⊢
    rcases Nat.lt_or_gt_of_ne h with hlt | hgt
    · exact store_apply_of_lt _ (by omega)
    · exact store_apply_of_ge (by omega)

theorem Created.read_write_of_ne {d : Ramdisk} (hd : Created d) {b b' : UInt32}
    (hb : Unwrapped (d.size / UInt32.ofNat blockSize) b) (hb' : Unwrapped (d.size / UInt32.ofNat blockSize) b')
    (hne : b ≠ b') (buf : Block) (m : Mem) :
    ramdiskRead d b' (ramdiskWrite d b buf m).2 = ramdiskRead d b' m := by
  have hlaw := hd.blockLaw_iff.mpr hb
  have hlaw' := hd.blockLaw_iff.mpr hb'
  by_cases hlt : b < d.size / UInt32.ofNat blockSize
  · by_cases hlt' : b' < d.size / UInt32.ofNat blockSize
    · rw [hlaw'.reads hlt', hlaw'.reads hlt', hlaw.writes hlt, blockAt_store,
        if_neg fun h => hne (UInt32.toNat_inj.mp h.symm)]
    · have hnone := fun m => Option.not_isSome_iff_eq_none.mp ((hlaw'.read_iff m).not.mpr hlt')
      rw [hnone, hnone]
  · rw [hlaw.refuses hlt]

/-- A RAM disk is a device that does not fail. -/
def ramdiskReliable {d : Ramdisk} (hd : Created d) : Reliable (ramdiskDevice d) where
  contents m n := blockAt d n m
  read_ok b m hb := ⟨m,Prod.ext ((hd.blockLaw_iff.mpr (.inl hb)).reads hb m) rfl,rfl⟩
  write_ok b buf m hb := by
    have hlaw := hd.blockLaw_iff.mpr (.inl hb)
    refine ⟨store m (d.base.toNat + b.toNat * blockSize) buf.bytes,
      Prod.ext ((hlaw.write_iff buf m).mpr hb) (hlaw.writes hb buf m),funext fun n => ?_⟩
    rw [blockAt_store, Function.update_apply]

/-- The law holds for the block numbers that do not wrap, and no two of these share their bytes. -/
theorem ramdisk_blockLaw_iff {h h' : RamdiskHost} {sizeKb total : UInt32}
    (hinit : ramdiskInit h sizeKb = (some total, h')) :
    (∀ block, BlockLaw h'.disk total block ↔ Unwrapped total block) ∧
      ∀ b b', Unwrapped total b → Unwrapped total b' → b ≠ b' → ∀ buf m,
        ramdiskRead h'.disk b' (ramdiskWrite h'.disk b buf m).2 = ramdiskRead h'.disk b' m := by
  obtain ⟨hd,rfl⟩ := created_of_ramdiskInit hinit
  exact ⟨fun block => hd.blockLaw_iff,fun b b' hb hb' hne => hd.read_write_of_ne hb hb' hne⟩

theorem ramdiskInit_of_alloc (h : RamdiskHost) (sizeKb : UInt32)
    (hne : (h.phys.pmm.allocPages (pagesNeeded sizeKb).toNat).1 ≠ 0) :
    ∃ h', ramdiskInit h sizeKb = (some (pagesNeeded sizeKb * UInt32.ofNat pageSize / UInt32.ofNat blockSize), h') ∧
      h'.disk.size = pagesNeeded sizeKb * UInt32.ofNat pageSize := by
  unfold ramdiskInit
  dsimp only
  rw [if_neg hne]
  exact ⟨_,rfl,rfl⟩

theorem allocPages_init (p : Pmm) : (p.init.allocPages 64).1 ≠ 0 := by
  rcases p.init.allocPages_first (show 0 < 64 by decide) with ⟨start,hfirst,he⟩ | ⟨_,hno⟩
  · rw [he]
    refine Nat.mul_ne_zero (fun h0 => ?_) (by decide)
    have hfree := hfirst.run 0 (by decide)
    rw [h0, Pmm.testFrame_init, decide_eq_false_iff_not] at hfree
    omega
  · refine absurd (fun k hk => ?_) (hno 513 (by decide))
    rw [Pmm.testFrame_init, decide_eq_false_iff_not]
    omega

def freshHost : RamdiskHost := ⟨⟨fun _ => 0,Pmm.blank.init⟩,⟨fun _ => 0,0,0,0,[],[]⟩,⟨0,0⟩⟩

theorem ramdiskInit_fresh : ∃ h', ramdiskInit freshHost 256 = (some 512, h') ∧ h'.disk.size = 0x40000 :=
  ramdiskInit_of_alloc freshHost 256 (allocPages_init Pmm.blank)

theorem ramdisk_blockLaw_iff_fresh : ∃ h', ramdiskInit freshHost 256 = (some 512, h') ∧ BlockLaw h'.disk 512 7 := by
  obtain ⟨h',hinit,_⟩ := ramdiskInit_fresh
  exact ⟨h',hinit,((ramdisk_blockLaw_iff hinit).1 7).mpr (.inl (by decide))⟩

/-- Block `2 ^ 23` of a disk of 512 blocks is its block 0. -/
theorem ramdisk_block_wraps : ∃ h', ramdiskInit freshHost 256 = (some 512, h') ∧ ¬(0x800000 : UInt32) < 512 ∧
    ∀ m, (ramdiskRead h'.disk 0x800000 m).isSome ∧ ramdiskRead h'.disk 0x800000 m = ramdiskRead h'.disk 0 m := by
  obtain ⟨h',hinit,hsize⟩ := ramdiskInit_fresh
  obtain ⟨hd,_⟩ := created_of_ramdiskInit hinit
  refine ⟨h',hinit,by decide,fun m => ?_⟩
  have hfirst : (0 : UInt32).toNat % 2 ^ 23 < h'.disk.size.toNat / 512 := by rw [hsize]; decide
  rw [hd.read_of_lt (by rw [hsize]; decide), hd.read_of_lt hfirst]
  exact ⟨rfl,rfl⟩

end ApPa.Fs

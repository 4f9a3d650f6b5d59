import ApPa.Drivers.AtaBlockdev
import ApPa.Fs.Allocation
import ApPa.Fs.Ramdisk
import ApPa.System.Machine

/-! # From power-on to the prompt

`kernel_main` brings up the heap, the frames, the map of the kernel, a device with a file system and the scheduler. Where
there is no slave drive the device is a RAM disk, in frames of the memory that everything else uses too. The machine runs
from there.
-/
namespace ApPa.System
open ByteMem Drivers Exec Fs Heap Klibc Memory Shell Tasks Words

/-! ## Devices in and beside the memory -/

section
variable {δ : Type}

def inMemory (dev : BlockDevice Mem) : BlockDevice (Mem × δ) where
  read b s := ((dev.read b s.1).1, ((dev.read b s.1).2, s.2))
  write b blk s := ((dev.write b blk s.1).1, ((dev.write b blk s.1).2, s.2))
  totalBlocks := dev.totalBlocks

def besideMemory (dev : BlockDevice δ) : BlockDevice (Mem × δ) where
  read b s := ((dev.read b s.2).1, (s.1, (dev.read b s.2).2))
  write b blk s := ((dev.write b blk s.2).1, (s.1, (dev.write b blk s.2).2))
  totalBlocks := dev.totalBlocks

/-- The bytes of a RAM disk. -/
def diskRegion : Option Ramdisk → ℕ → Prop
  | some d, x => d.base.toNat ≤ x ∧ x < d.base.toNat + d.size.toNat
  | none, _ => False

def reliableInMemory {dev : BlockDevice Mem} (r : Reliable dev) : Reliable (inMemory dev : BlockDevice (Mem × δ)) where
  contents s := r.contents s.1
  read_ok b s hb := by
    obtain ⟨m,he,hm⟩ := r.read_ok b s.1 hb
    exact ⟨(m, s.2),by simp only [inMemory, he],hm⟩
  write_ok b blk s hb := by
    obtain ⟨m,he,hm⟩ := r.write_ok b blk s.1 hb
    exact ⟨(m, s.2),by simp only [inMemory, he],hm⟩

/-- A device outside of the memory owns none of it. -/
def attachedBeside {dev : BlockDevice δ} (r : Reliable dev) : Attached (besideMemory dev) where
  contents s := r.contents s.2
  read_ok b s hb := by
    obtain ⟨d,he,hd⟩ := r.read_ok b s.2 hb
    exact ⟨(s.1, d),by simp only [besideMemory, he],hd⟩
  write_ok b blk s hb := by
    obtain ⟨d,he,hd⟩ := r.write_ok b blk s.2 hb
    exact ⟨(s.1, d),by simp only [besideMemory, he],hd⟩
  region := diskRegion none
  contents_congr _ _ _ _ := rfl
  frames _ := ⟨fun _ _ _ => Iff.rfl,fun _ _ _ _ => Iff.rfl⟩

/-- A RAM disk reads and writes its own bytes, as long as the block is one of its blocks. -/
def attachedRamdisk {d : Ramdisk} (hd : Created d) : Attached (inMemory (ramdiskDevice d) : BlockDevice (Mem × δ)) where
  toReliable := (reliableInMemory (ramdiskReliable hd)).extend (fun _ => Block.zero) (fun _ _ _ => rfl) fun _ _ _ _ => rfl
  region := diskRegion (some d)
  contents_congr m m' x h := by
    have hblock : Fs.blockSize = 512 := rfl
    funext n
    by_cases hn : n < d.size.toNat / 512
    · have hsame : blockAt d n m' = blockAt d n m := by
        apply Block.ext
        dsimp only [blockAt]
        refine load_congr fun y hy hy' => h y ⟨(Nat.le_add_right ..).trans hy,hy'.trans_le ?_⟩
        rw [hblock]
        omega
      exact congrArg (fun b => if n < (d.size / UInt32.ofNat Fs.blockSize).toNat then b else Block.zero) hsame
    · have hout : ¬n < (d.size / UInt32.ofNat Fs.blockSize).toNat := by rwa [toNat_totalBlocks]
      exact (if_neg hout).trans (if_neg hout).symm
  frames m₀ := by
    refine ⟨fun _ _ _ => Iff.rfl,fun b blk s hb => forall_congr' fun x => imp_congr_right fun hx => ?_⟩
    have hblock : Fs.blockSize = 512 := rfl
    have hlen := blk.length_eq
    have hlt := lt_totalBlocks.mp hb
    have hwrite := (hd.blockLaw_iff.mpr (.inl hb)).writes hb blk s.1
    have hkeep : (ramdiskWrite d b blk s.1).2 x = s.1 x := by
      rw [hwrite]
      unfold diskRegion at hx
      by_cases hlow : x < d.base.toNat + b.toNat * Fs.blockSize
      · exact store_apply_of_lt _ hlow
      · refine store_apply_of_ge ?_
        rw [hblock] at hlen hlow ⊢
        omega
    exact Eq.congr_left hkeep

end

/-! ## The phases of `kernel_main` -/

/-- `kmalloc_init`, `pmm_init` and `paging_init`. -/
def initMemory (k : Kernel) : Kernel :=
  { k with
    phys := (pagingInit k.paging ⟨kmallocInit k.phys.mem,k.phys.pmm.init⟩).1
    paging := (pagingInit k.paging ⟨kmallocInit k.phys.mem,k.phys.pmm.init⟩).2 }

section
variable (lines : ℕ → UInt8) (waits : ℕ) (driveInfo : AtaDriveInfo) (slaveInfo : AtaIdentity)

/-- The device that is mounted: a RAM disk, or the slave drive where there is no RAM disk. -/
def blkdev : Option Ramdisk → BlockDevice (Mem × PioDisk.Bus)
  | some d => inMemory (ramdiskDevice d)
  | none => besideMemory (ataDev lines waits driveInfo slaveInfo)

/-- `ata_blockdev_init`, and `ramdisk_init(256)` where that returns nothing. -/
def chooseDevice (screen : Screen) (p : Phys) : Option (Option Ramdisk × Phys) :=
  match ataBlockdevInit lines waits driveInfo slaveInfo with
  | some _ => some (none, p)
  | none =>
    match ramdiskInit ⟨p,screen,⟨0,0⟩⟩ 256 with
    | (some _, h) => some (some h.disk, h.phys)
    | (none, _) => none

/-- The phases that have to do with memory, files and tasks, in their order. `none` without a file system. -/
def kernelMain (screen : Screen) (h : Host PioDisk.Bus) : Option (Option Ramdisk × Host PioDisk.Bus) := do
  let k := initMemory h.kernel
  let (disk, phys) ← chooseDevice lines waits driveInfo slaveInfo screen k.phys
  let (ret, s) := fsInit (blkdev lines waits driveInfo slaveInfo disk) ⟨(phys.mem, h.device),h.superblock,h.blockBuf⟩
  if ret = 0 then some (disk, ⟨schedInit { k with phys := ⟨s.disk.1,phys.pmm⟩ },s.disk.2,s.superblock,s.blockBuf⟩)
  else none

end

/-! ## What the phases leave -/

/-- What holds when the kernel's directory is there: nothing of the memory is a task's. -/
structure Ready (k : Kernel) (L : Frames) : Prop where
  pool : ∀ i, k.tasks (.slot i) = Task.zero
  owns : Owns k [] L
  taken : Taken k.phys.pmm 5
  used : k.phys.pmm.usedFrames.toNat = 774
  dir : heapEnd ≤ k.paging.kernelDirectory
  heap : HeapOk k.phys.mem freeHeap

theorem ready_of_booted {r : Phys × Paging} {L : Frames} {k : Kernel} (hpool : ∀ i, k.tasks (.slot i) = Task.zero)
    (hL : Booted r.2 r.1 L 4) (htaken : Taken r.1.pmm 5)
    (hdir : heapEnd ≤ r.2.kernelDirectory) (hheap : HeapOk r.1.mem freeHeap) :
    Ready { k with phys := r.1, paging := r.2 } L := by
  refine ⟨hpool,⟨hL.accounts,hL.kernelMap,hL.reserved,fun i hi => absurd hi List.not_mem_nil,fun f tag s hf => ?_,
    hL.kernelClosed⟩,htaken,hL.accounts.count.trans hL.count,hdir,hheap⟩
  rcases hL.owners f _ hf with ho | ho
  · cases ho
  · cases ho

/-- The heap is free, and the first five frames behind the bitmap hold the directory and its tables. -/
theorem initMemory_ready {k : Kernel} (hpool : ∀ i, k.tasks (.slot i) = Task.zero) : ∃ L, Ready (initMemory k) L := by
  have hp : (⟨kmallocInit k.phys.mem,k.phys.pmm.init⟩ : Phys).pmm = k.phys.pmm.init := rfl
  obtain ⟨L,hL,-⟩ := pagingInit_booted k.paging hp
  obtain ⟨htaken,hdir,hmem⟩ := pagingInit_taken k.paging (kmallocInit k.phys.mem) k.phys.pmm
  have hheap : HeapOk (pagingInit k.paging ⟨kmallocInit k.phys.mem,k.phys.pmm.init⟩).1.mem freeHeap := by
    apply (kmallocInit_ok k.phys.mem).congr
    intro x hx
    apply hmem x
    unfold InHeap heapStart heapEnd at hx
    simp only [pageSize]
    omega
  have hle : heapEnd ≤ (pagingInit k.paging ⟨kmallocInit k.phys.mem,k.phys.pmm.init⟩).2.kernelDirectory := by
    rw [hdir]
    decide
  exact ⟨L,ready_of_booted hpool hL htaken hle hheap⟩

/-- A run of free frames that the kernel takes for itself lies behind the heap and holds no table. -/
theorem allocPages_private {k : Kernel} {L : Frames} {s n : ℕ} (h : Owns k [] L)
    (hs : RunSearch.FirstRun (k.phys.pmm.testFrame · = false) n totalFrames s) (hn : 0 < n)
    (he : k.phys.pmm.allocPages n = (s * pageSize, k.phys.pmm.setFrames s n)) :
    513 ≤ s ∧ ∃ L', Owns { k with phys := ⟨k.phys.mem,k.phys.pmm.setFrames s n⟩ } [] L' ∧
      ∀ x, s ≤ x / pageSize → x / pageSize < s + n →
        Private { k with phys := ⟨k.phys.mem,k.phys.pmm.setFrames s n⟩ } L' x := by
  obtain ⟨L',hacc,hfresh⟩ := allocPages_accounted h n
  have hown := hacc.owns
  rw [he] at hown
  dsimp only at hown
  have hnone : ∀ f, s ≤ f → f < s + n → L f = none := by
    intro f hle hlt
    have hfree := hs.run (f - s) (by omega)
    rwa [Nat.add_sub_cancel' hle, h.accounts.used, Option.isSome_eq_false_iff, Option.isNone_iff_eq_none] at hfree
  have hlabel : ∀ f, s ≤ f → f < s + n → L' f = some .kernel := by
    intro f hle hlt
    apply hfresh f (hnone f hle hlt)
    have hused := hown.accounts.used f
    dsimp only at hused
    rw [Pmm.testFrame_setFrames, decide_eq_true ⟨hle,hlt⟩, Bool.true_or] at hused
    exact Option.isSome_iff_ne_none.mp hused.symm
  -- No frame of the run is one that was labelled before: not a reserved one, and not the directory.
  have hold : ∀ f, L f = some .kernel → s ≤ f → ¬f < s + n := by
    intro f hf hle hlt
    rw [hnone f hle hlt] at hf
    cases hf
  refine ⟨?_,L',hown,fun x hle hlt => ⟨hlabel _ hle hlt,fun hdir => ?_⟩⟩
  · by_contra hlow
    exact hold s (h.reserved s (Or.inl (by omega))) le_rfl (by omega)
  · obtain ⟨f,hf,hLf⟩ := h.kernel.dir
    change x / pageSize = k.paging.kernelDirectory / pageSize at hdir
    rw [hf, Nat.mul_div_cancel _ (by decide)] at hdir
    exact hold f hLf (hdir ▸ hle) (hdir ▸ hlt)

/-- A RAM disk that has been set up has its frames to itself, outside of the heap. -/
structure Reserves (k : Kernel) (L : Frames) (d : Ramdisk) : Prop where
  owns : Owns k [] L
  region : ∀ x, diskRegion (some d) x → Private k L x ∧ ¬InHeap x

theorem ramdiskInit_owns {k : Kernel} {L : Frames} (h : Owns k [] L) (screen : Screen) (disk : Ramdisk) {sizeKb : UInt32}
    (hpages : 0 < (pagesNeeded sizeKb).toNat)
    (hroom : ∃ s, s + (pagesNeeded sizeKb).toNat ≤ totalFrames ∧
      ∀ j < (pagesNeeded sizeKb).toNat, k.phys.pmm.testFrame (s + j) = false) :
    ∃ total host L', ramdiskInit ⟨k.phys,screen,disk⟩ sizeKb = (some total, host) ∧
      host.disk.size = pagesNeeded sizeKb * UInt32.ofNat pageSize ∧
      host.phys.pmm.usedFrames = k.phys.pmm.usedFrames + pagesNeeded sizeKb ∧
      Reserves { k with phys := host.phys } L' host.disk ∧
      (∀ x, ¬diskRegion (some host.disk) x → host.phys.mem x = k.phys.mem x) ∧
      ∀ x, diskRegion (some host.disk) x → host.phys.mem x = 0 := by
  unfold ramdiskInit
  generalize pagesNeeded sizeKb = pages at hpages hroom ⊢
  dsimp only
  rcases k.phys.pmm.allocPages_first hpages with ⟨s,hs,he⟩ | ⟨_,hno⟩
  swap
  · obtain ⟨s,hs,hfree⟩ := hroom
    exact absurd hfree (hno s hs)
  obtain ⟨hlow,L',hown,hprivate⟩ := allocPages_private h hs hpages he
  rw [he]
  have hframes : totalFrames = 4096 := rfl
  have hpage : pageSize = 4096 := rfl
  have hfits := hs.fits
  have hsize : (pages * UInt32.ofNat pageSize).toNat = pages.toNat * 4096 := by
    rw [UInt32.toNat_mul, UInt32.toNat_ofNat', hpage]
    omega
  have hregion : ∀ x, diskRegion (some ⟨UInt32.ofNat (s * pageSize),pages * UInt32.ofNat pageSize⟩) x ↔
      s * 4096 ≤ x ∧ x < s * 4096 + pages.toNat * 4096 := by
    intro x
    have hbase : (UInt32.ofNat (s * pageSize)).toNat = s * 4096 := by
      rw [UInt32.toNat_ofNat', hpage]
      omega
    rw [diskRegion, hbase, hsize]
  have hin : ∀ x, s * 4096 ≤ x ∧ x < s * 4096 + pages.toNat * 4096 →
      Private { k with phys := ⟨k.phys.mem,k.phys.pmm.setFrames s pages.toNat⟩ } L' x := by
    intro x hx
    apply hprivate x
    · rw [hpage]
      omega
    · rw [hpage]
      omega
  have hkeep : ∀ x, ¬(s * 4096 ≤ x ∧ x < s * 4096 + pages.toNat * 4096) →
      fill k.phys.mem (s * pageSize) (pages * UInt32.ofNat pageSize).toNat 0 x = k.phys.mem x := by
    intro x hx
    apply fill_apply
    rw [hsize, hpage]
    omega
  have hne : s * pageSize ≠ 0 := by
    rw [hpage]
    omega
  dsimp only
  rw [if_neg hne]
  refine ⟨_,_,L',rfl,rfl,?_,⟨Owns.write_private hown fun x hx => hkeep x (mt (hin x) hx),
    fun x hx => ⟨hin x ((hregion x).mp hx),?_⟩⟩,
    fun x hx => hkeep x (mt (hregion x).mpr hx),fun x hx => if_pos ?_⟩
  · dsimp only
    rw [Pmm.usedFrames_setFrames, UInt32.ofNat_toNat]
  · have hx' := (hregion x).mp hx
    unfold InHeap heapStart heapEnd
    omega
  · have hx' := (hregion x).mp hx
    rw [hsize, hpage]
    exact hx'

theorem inOrder_of_mount {δ : Type} {dev : BlockDevice (Mem × δ)} (A : Attached dev) {k : Kernel} {p : Phys}
    {L : Frames} {d : δ} {superblock : Superblock} {blockBuf : Block} {ret : ℤ} {s : FsState (Mem × δ)}
    (hpool : ∀ i, k.tasks (.slot i) = Task.zero) (hown : Owns { k with phys := p } [] L)
    (hdir : heapEnd ≤ k.paging.kernelDirectory) (hregion : ∀ x, A.region x → Private { k with phys := p } L x ∧ ¬InHeap x)
    (hheap : HeapOk p.mem freeHeap) (h3 : 3 ≤ dev.totalBlocks.toNat)
    (hinit : fsInit dev ⟨(p.mem, d),superblock,blockBuf⟩ = (ret, s)) (hvol : Consistent dev.totalBlocks (A.volume s)) :
    InOrder A ⟨⟨schedInit { k with phys := ⟨s.disk.1,p.pmm⟩ },s.disk.2,s.superblock,s.blockBuf⟩,[]⟩ := by
  have hframe : ∀ x, ¬A.region x → s.disk.1 x = p.mem x := by
    have hkeep := (A.frames p.mem).fsInit h3 (s := ⟨(p.mem, d),superblock,blockBuf⟩) fun _ _ => rfl
    rwa [hinit] at hkeep
  have hown' : Owns { k with phys := ⟨s.disk.1,p.pmm⟩ } [] L :=
    Owns.write_private hown fun x hx => hframe x fun hr => hx (hregion x hr).1
  refine ⟨⟨L,schedInit_ok hpool,?_,hdir,hregion,hvol⟩,hheap.congr fun x hx => hframe x fun hr => (hregion x hr).2 hx⟩
  exact ⟨hown'.accounts,hown'.kernel,hown'.reserved,fun i hi => absurd hi List.not_mem_nil,hown'.tags,hown'.closed⟩

section
variable {δ : Type} {dev : BlockDevice (Mem × δ)} {A : Attached dev} {s : State δ} {name data : List UInt8}

theorem InOrder.answered (h : InOrder A s) {call : Call} {reply : Reply} {fs : FsState (Mem × δ)}
    (hcall : Fs.exec dev call s.host.fsState = (reply, fs)) (fuel : ℕ) (img : Image) :
    Steps dev A.region fuel img s (.file call) (.reply reply) ⟨s.host.withFs fs,s.live⟩ ∧ InOrder A ⟨s.host.withFs fs,s.live⟩ ∧
      MapSpec (s.names A) call reply (State.names A ⟨s.host.withFs fs,s.live⟩) := by
  have hfs : s.host.fs (Fs.exec dev call) = (reply, s.host.withFs fs) := by
    rw [Host.fs, hcall]
  have hfile := h.file call
  rw [hfs] at hfile
  refine ⟨⟨trivial,?_⟩,hfile⟩
  rw [act, hfs]

theorem InOrder.stores (h : InOrder A s) (hempty : s.names A = NameMap.empty)
    (hreach : extentLimit dev.totalBlocks = dev.totalBlocks.toNat - 3) (h1 : 1 ≤ (cstr name).length)
    (h23 : (cstr name).length ≤ 23) (hpos : 0 < data.length) (hlt : data.length < 2 ^ 24)
    (hroom : (data.length + 511) / 512 ≤ dev.totalBlocks.toNat - 3) (fuel : ℕ) (img : Image) :
    ∃ s', Machine.Allowed (Steps dev A.region fuel img) s [.file (.create name fsTypeFile), .file (.write name data hlt)]
        [.reply (.status 0), .reply (.status 0)] s' ∧ InOrder A s' ∧ (s'.names A).find (cstr name) = some (.file data) ∧
      ∀ prog, Room s.host.kernel prog → Room s'.host.kernel prog := by
  obtain ⟨L,ho⟩ := h.orderly
  obtain ⟨fs₁,fs₂,hcreate,hwrite,-⟩ := A.store_on_empty ho.volume hempty hreach h1 h23 hpos hlt hroom
  obtain ⟨hstep₁,h₁,-⟩ := h.answered hcreate fuel img
  obtain ⟨hstep₂,h₂,hspec⟩ := h₁.answered hwrite fuel img
  refine ⟨_,.cons hstep₁ (.cons hstep₂ (.nil _)),h₂,?_,fun prog hprog => hprog⟩
  rcases hspec with ⟨_,_,hinsert⟩ | ⟨hfail,_⟩
  · rw [hinsert]
    exact NameMap.find_insert_self _ _ _
  · cases hfail

end

def tinyProgram : List UInt8 := (List.range 84).map tinyElf

theorem tinyProgram_wellFormed : WellFormed (fileOf tinyProgram) tinyProgram.length := by
  have hone : (readEhdr (fileOf tinyProgram)).phnum = 1 := by decide +kernel
  refine ⟨by decide +kernel,by decide +kernel,by decide +kernel,by decide +kernel,by decide +kernel,by decide +kernel,?_⟩
  intro i j hij hj
  omega

/-- A machine that has just been switched on, with blank drives. -/
def coldHost : Host PioDisk.Bus := ⟨idleKernel,blankBus,freshSuperblock 0,Block.zero⟩

/-! ## Mounting -/

section
variable (lines : ℕ → UInt8) (waits : ℕ) (driveInfo : AtaDriveInfo) (slaveInfo : AtaIdentity) (screen : Screen)
  (h : Host PioDisk.Bus)

/-- Most of the memory and the whole pool are free. -/
def Vacant (k : Kernel) : Prop := k.phys.pmm.usedFrames.toNat ≤ 838 ∧ allocTcb k ≠ none

theorem Vacant.room {k : Kernel} (h : Vacant k) : Room k tinyProgram := by
  have hneed : Exec.need (wantedPages (fileOf tinyProgram) tinyProgram.length) ≤ 4 := by decide +kernel
  have hframes : totalFrames = 4096 := rfl
  have hused := h.1
  exact ⟨by omega,h.2⟩

/-- The machine comes up with a file system that holds `names`. -/
def Boots (names : NameMap) : Prop :=
  ∃ disk host, kernelMain lines waits driveInfo slaveInfo screen h = some (disk, host) ∧ Vacant host.kernel ∧
    (blkdev lines waits driveInfo slaveInfo disk).totalBlocks = (if slaveInfo.present = 0 then 512 else slaveInfo.lba28Sectors) ∧
    ∃ A : Attached (blkdev lines waits driveInfo slaveInfo disk), A.region = diskRegion disk ∧ InOrder A ⟨host,[]⟩ ∧
      State.names A ⟨host,[]⟩ = names

variable {lines waits slaveInfo h}

theorem boots_of_mount {k : Kernel} {disk : Option Ramdisk} {phys : Phys} {L L' : Frames} {names : NameMap}
    (hk : initMemory h.kernel = k) (hready : Ready k L)
    (A : Attached (blkdev lines waits driveInfo slaveInfo disk)) (hA : A.region = diskRegion disk)
    (hdev : chooseDevice lines waits driveInfo slaveInfo screen k.phys = some (disk, phys))
    (hown : Owns { k with phys := phys } [] L')
    (hregion : ∀ x, A.region x → Private { k with phys := phys } L' x ∧ ¬InHeap x)
    (hheap : HeapOk phys.mem freeHeap) (hused : phys.pmm.usedFrames.toNat ≤ 838)
    (htotal : (blkdev lines waits driveInfo slaveInfo disk).totalBlocks =
      if slaveInfo.present = 0 then 512 else slaveInfo.lba28Sectors)
    (hmount : ∃ s,
      fsInit (blkdev lines waits driveInfo slaveInfo disk) ⟨(phys.mem, h.device),h.superblock,h.blockBuf⟩ = (0, s) ∧
      Consistent (blkdev lines waits driveInfo slaveInfo disk).totalBlocks (A.volume s) ∧ (A.volume s).nodes = names) :
    Boots lines waits driveInfo slaveInfo screen h names := by
  obtain ⟨s,hinit,hvol,hnames⟩ := hmount
  have horder := inOrder_of_mount A hready.pool hown hready.dir hregion hheap hvol.formatted.three_le hinit hvol
  obtain ⟨_,ho⟩ := horder.orderly
  have hslot : allocTcb (schedInit { k with phys := ⟨s.disk.1,phys.pmm⟩ }) ≠ none := by
    rw [allocTcb_empty ho.sched]
    exact Option.some_ne_none _
  refine ⟨disk,_,?_,⟨hused,hslot⟩,htotal,A,hA,horder,hnames⟩
  unfold kernelMain
  rw [hk]
  dsimp only [bind]
  rw [hdev, Option.bind_some]
  dsimp only
  rw [hinit]
  exact if_pos rfl

/-- Without a slave drive the machine starts on a RAM disk, with no files. -/
theorem boots_ramdisk (hpool : ∀ i, h.kernel.tasks (.slot i) = Task.zero) (hpresent : slaveInfo.present = 0) :
    Boots lines waits driveInfo slaveInfo screen h NameMap.empty := by
  obtain ⟨L,hready⟩ := initMemory_ready hpool
  obtain ⟨k,hk⟩ : ∃ k, initMemory h.kernel = k := ⟨_,rfl⟩
  rw [hk] at hready
  have hpages : (pagesNeeded 256).toNat = 64 := by decide
  have hroom : ∃ s, s + (pagesNeeded 256).toNat ≤ totalFrames ∧
      ∀ j < (pagesNeeded 256).toNat, k.phys.pmm.testFrame (s + j) = false := by
    rw [hpages]
    refine ⟨518,by decide,fun j hj => ?_⟩
    rw [hready.taken, decide_eq_false_iff_not]
    omega
  obtain ⟨total,host,L',hinit,hsize,hframes,hres,hkeep,hzero⟩ :=
    ramdiskInit_owns hready.owns screen ⟨0,0⟩ (by rw [hpages]; decide) hroom
  obtain ⟨hd,-⟩ := created_of_ramdiskInit hinit
  have hdev : chooseDevice lines waits driveInfo slaveInfo screen k.phys = some (some host.disk, host.phys) := by
    unfold chooseDevice ataBlockdevInit
    rw [if_pos hpresent]
    dsimp only
    rw [hinit]
  have hheap : HeapOk host.phys.mem freeHeap := hready.heap.congr fun x hx => hkeep x fun hr => (hres.region x hr).2 hx
  let A : Attached (blkdev lines waits driveInfo slaveInfo (some host.disk)) := attachedRamdisk hd
  have hblocks : (blkdev lines waits driveInfo slaveInfo (some host.disk)).totalBlocks = 512 := by
    change host.disk.size / UInt32.ofNat Fs.blockSize = 512
    rw [hsize]
    decide
  have htotal := congrArg UInt32.toNat hblocks
  -- The disk has just been cleared, so there is no magic number on it.
  have hblank : A.toReliable.Unformatted ⟨(host.phys.mem, h.device),h.superblock,h.blockBuf⟩ := by
    have hload : load host.phys.mem (host.disk.base.toNat + 0 * Fs.blockSize) Fs.blockSize =
        load (fun _ => 0) (host.disk.base.toNat + 0 * Fs.blockSize) Fs.blockSize := by
      refine load_congr fun y hy hy' => hzero y ⟨(Nat.le_add_right ..).trans hy,hy'.trans_le ?_⟩
      change (host.disk.size / UInt32.ofNat Fs.blockSize).toNat = 512 at htotal
      rw [toNat_totalBlocks] at htotal
      have hb : Fs.blockSize = 512 := rfl
      omega
    have hblock : blockAt host.disk 0 host.phys.mem = Block.zero := by
      apply Block.ext
      dsimp only [blockAt, Block.zero]
      rw [hload, load, List.map_const', List.length_range]
    have hfirst : A.contents (host.phys.mem, h.device) 0 = blockAt host.disk 0 host.phys.mem := if_pos (htotal ▸ by decide)
    unfold Reliable.Unformatted
    rw [hfirst, hblock]
    decide
  obtain ⟨s,hmount,hvol,hempty⟩ := A.toReliable.fsInit_unformatted _ (by rw [htotal]; decide) hblank
  have hused : host.phys.pmm.usedFrames.toNat ≤ 838 := by
    have hbefore := hready.used
    rw [hframes, UInt32.toNat_add, hpages]
    omega
  exact boots_of_mount driveInfo screen hk hready A rfl hdev hres.owns hres.region hheap hused
    (hblocks.trans (if_pos hpresent).symm) ⟨s,hmount,hvol,Reliable.nodes_eq_empty hempty⟩

/-- What the slave drive holds when the machine is started. -/
inductive Drives (slaveInfo : AtaIdentity) (d : PioDisk.Disks) : NameMap → Prop
  | absent : slaveInfo.present = 0 → Drives slaveInfo d NameMap.empty
  | unformatted : slaveInfo.present ≠ 0 → slaveInfo.lba28Sectors.toNat ≤ 2 ^ 28 → 3 ≤ slaveInfo.lba28Sectors.toNat →
      (Superblock.decode (slaveBlock d 0)).magic ≠ fsMagic → Drives slaveInfo d NameMap.empty
  | formatted : slaveInfo.present ≠ 0 → slaveInfo.lba28Sectors.toNat ≤ 2 ^ 28 →
      Consistent slaveInfo.lba28Sectors (slaveVolume d) → Drives slaveInfo d (slaveVolume d).nodes

theorem boots_slave {names : NameMap} (hpool : ∀ i, h.kernel.tasks (.slot i) = Task.zero) (hpresent : slaveInfo.present ≠ 0)
    (hmax : slaveInfo.lba28Sectors.toNat ≤ 2 ^ 28) (hlines : Responsive lines waits)
    (hmount : ∀ m : Mem, ∃ s,
      fsInit (besideMemory (ataDev lines waits driveInfo slaveInfo)) ⟨(m, h.device),h.superblock,h.blockBuf⟩ = (0, s) ∧
      Consistent slaveInfo.lba28Sectors ((attachedBeside (hlines.reliable driveInfo hpresent hmax)).volume s) ∧
      ((attachedBeside (hlines.reliable driveInfo hpresent hmax)).volume s).nodes = names) :
    Boots lines waits driveInfo slaveInfo screen h names := by
  obtain ⟨L,hready⟩ := initMemory_ready hpool
  obtain ⟨k,hk⟩ : ∃ k, initMemory h.kernel = k := ⟨_,rfl⟩
  rw [hk] at hready
  let A : Attached (blkdev lines waits driveInfo slaveInfo none) := attachedBeside (hlines.reliable driveInfo hpresent hmax)
  have hdev : chooseDevice lines waits driveInfo slaveInfo screen k.phys =
      some (none, k.phys) := by
    unfold chooseDevice ataBlockdevInit
    rw [if_neg hpresent]
  exact boots_of_mount driveInfo screen hk hready A rfl hdev hready.owns (fun x hx => hx.elim) hready.heap
    (hready.used.trans_le (by decide)) (if_neg hpresent).symm (hmount _)

theorem boots {names : NameMap} (hpool : ∀ i, h.kernel.tasks (.slot i) = Task.zero)
    (hlines : slaveInfo.present ≠ 0 → Responsive lines waits) (hdrives : Drives slaveInfo h.device.disk names) :
    Boots lines waits driveInfo slaveInfo screen h names := by
  cases hdrives with
  | absent hpresent => exact boots_ramdisk driveInfo screen hpool hpresent
  | unformatted hpresent hmax h3 hu =>
    refine boots_slave driveInfo screen hpool hpresent hmax (hlines hpresent) fun m => ?_
    let A := attachedBeside ((hlines hpresent).reliable driveInfo hpresent hmax)
    obtain ⟨s,hmount,hvol,hempty⟩ := A.toReliable.fsInit_unformatted ⟨(m, h.device),h.superblock,h.blockBuf⟩ h3 hu
    exact ⟨s,hmount,hvol,Reliable.nodes_eq_empty hempty⟩
  | formatted hpresent hmax hc =>
    refine boots_slave driveInfo screen hpool hpresent hmax (hlines hpresent) fun m => ?_
    let A := attachedBeside ((hlines hpresent).reliable driveInfo hpresent hmax)
    obtain ⟨s,hmount,hvol⟩ := A.toReliable.fsInit_mount ⟨(m, h.device),h.superblock,h.blockBuf⟩ hc.sound.mountable
    refine ⟨s,hmount,?_,congrArg Volume.nodes hvol⟩
    rw [hvol]
    exact hc

/-- From a cold start, a program can be stored and started with an argument. -/
theorem boots_starts (hb : Boots lines waits driveInfo slaveInfo screen h NameMap.empty)
    (hsize : slaveInfo.present ≠ 0 → slaveInfo.lba28Sectors = 64) {fuel : ℕ} (hfuel : 0x100000 < fuel) (img : Image)
    (argBuf : ℕ → UInt8) :
    ∃ disk host i s₁ s₂, kernelMain lines waits driveInfo slaveInfo screen h = some (disk, host) ∧
      Machine.Allowed (Steps (blkdev lines waits driveInfo slaveInfo disk) (diskRegion disk) fuel img) ⟨host,[]⟩
        [.file (.create [0x61] fsTypeFile), .file (.write [0x61] tinyProgram (by decide))]
        [.reply (.status 0), .reply (.status 0)] s₁ ∧ Room s₁.host.kernel tinyProgram ∧
      Steps (blkdev lines waits driveInfo slaveInfo disk) (diskRegion disk) fuel img s₁ (.exec argBuf [0x61, 0x20, 0x62])
        (.task (some i)) s₂ := by
  obtain ⟨disk,host,hmain,hvacant,htotal,A,hA,horder,hnames⟩ := hb
  have hblocks : (blkdev lines waits driveInfo slaveInfo disk).totalBlocks = 512 ∨
      (blkdev lines waits driveInfo slaveInfo disk).totalBlocks = 64 := by
    rw [htotal]
    by_cases hp : slaveInfo.present = 0
    · exact .inl (if_pos hp)
    · exact .inr ((if_neg hp).trans (hsize hp))
  have hreach : extentLimit (blkdev lines waits driveInfo slaveInfo disk).totalBlocks =
      (blkdev lines waits driveInfo slaveInfo disk).totalBlocks.toNat - 3 := by
    rcases hblocks with hb | hb <;> rw [hb] <;> decide
  have hfits : (tinyProgram.length + 511) / 512 ≤ (blkdev lines waits driveInfo slaveInfo disk).totalBlocks.toNat - 3 := by
    rcases hblocks with hb | hb <;> rw [hb] <;> decide
  have hname : cstr [0x61] = [0x61] := by decide
  have hwords : words isSpace [0x61, 0x20, 0x62] = [[0x61], [0x62]] := by decide +kernel
  obtain ⟨s₁,hrun,hs₁,hfind,hroom⟩ := horder.stores hnames hreach (show 1 ≤ (cstr [0x61]).length by decide) (by decide)
    (by decide) (by decide) hfits fuel img
  rw [hname] at hfind
  have hlaunch := hs₁.launches hfuel img argBuf (by decide) (by decide) hwords hfind (by decide) tinyProgram_wellFormed
    (hroom _ hvacant.room)
  obtain ⟨i,s₂,argv,n,hact,-⟩ := hlaunch
  rw [hA] at hrun
  exact ⟨disk,host,i,s₁,s₂,hmain,hrun,hroom _ hvacant.room,⟨by decide,by decide⟩,hact⟩

/-- The whole machine, from `kernel_main` on and in any order of steps of the scheduler, of tasks, calls of the file system
and programs started from files: the answers are those of one history of the map of names that was mounted, the heap is
free between two steps, no frame of the heap or of the RAM disk is a task's, and every step that is allowed returns. -/
theorem kernelMain_run {names : NameMap} (hpool : ∀ i, h.kernel.tasks (.slot i) = Task.zero)
    (hlines : slaveInfo.present ≠ 0 → Responsive lines waits) (hdrives : Drives slaveInfo h.device.disk names) {fuel : ℕ}
    (hfuel : 0x100000 < fuel) (img : Image) :
    ∃ disk host, kernelMain lines waits driveInfo slaveInfo screen h = some (disk, host) ∧
      ∀ acts answers s, Machine.Allowed (Steps (blkdev lines waits driveInfo slaveInfo disk) (diskRegion disk) fuel img)
          ⟨host,[]⟩ acts answers s →
        (∃ names', Machine.Allowed ActSpec names acts answers names') ∧ SchedOk s.host.kernel s.live ∧
        HeapOk s.host.mem freeHeap ∧
        (∃ L, Owns s.host.kernel s.live L ∧ ∀ x, InHeap x ∨ diskRegion disk x → L (x / pageSize) = some .kernel) ∧
        ∀ a : Act, a.Allowed (diskRegion disk) s →
          ∃ answer s', act (blkdev lines waits driveInfo slaveInfo disk) fuel img a s = some (answer, s') := by
  obtain ⟨disk,host,hmain,-,-,A,hA,horder,hnames⟩ := boots driveInfo screen hpool hlines hdrives
  refine ⟨disk,host,hmain,fun acts answers s hrun => ?_⟩
  rw [← hA] at hrun ⊢
  obtain ⟨hs,hhistory⟩ := run_refines hfuel hrun horder
  rw [hnames] at hhistory
  obtain ⟨L,ho⟩ := hs.orderly
  refine ⟨⟨_,hhistory⟩,ho.sched,hs.heap,⟨L,ho.owns,fun x hx => ?_⟩,fun a ha => act_returns hs hfuel img ha⟩
  cases hx with
  | inl hx => exact (ho.inHeap_private hx).1
  | inr hx => exact (ho.region x hx).1.1

/-- Without a slave drive, from the RAM disk on: a program is stored and started. -/
theorem kernelMain_run_ramdisk : ∃ disk host i s,
    kernelMain readyLines 1 ⟨1⟩ ⟨⟨0⟩,0⟩ freshHost.screen coldHost = some (disk, host) ∧
    Machine.Allowed (Steps (blkdev readyLines 1 ⟨1⟩ ⟨⟨0⟩,0⟩ disk) (diskRegion disk) 0x100001 flatImage) ⟨host,[]⟩
      [.file (.create [0x61] fsTypeFile), .file (.write [0x61] tinyProgram (by decide)),
       .exec (fun _ => 0x78) [0x61, 0x20, 0x62]]
      [.reply (.status 0), .reply (.status 0), .task (some i)] s ∧
    SchedOk s.host.kernel s.live ∧ HeapOk s.host.mem freeHeap := by
  have hdrives : Drives ⟨⟨0⟩,0⟩ coldHost.device.disk NameMap.empty := .absent rfl
  have hboots : Boots readyLines 1 ⟨1⟩ ⟨⟨0⟩,0⟩ freshHost.screen coldHost NameMap.empty :=
    boots ⟨1⟩ freshHost.screen (fun _ => rfl) (fun _ => readyLines_responsive) hdrives
  obtain ⟨disk,host,i,s₁,s₂,hstart,hstored,-,hexec⟩ := boots_starts ⟨1⟩ freshHost.screen hboots (fun hp => absurd rfl hp)
    (Nat.lt_succ_self _) flatImage fun _ => 0x78
  obtain ⟨disk',host',hmain,hrun⟩ := kernelMain_run ⟨1⟩ freshHost.screen (fun _ => rfl)
    (fun _ => readyLines_responsive) hdrives (Nat.lt_succ_self 0x100000) flatImage
  cases hmain.symm.trans hstart
  have hacts := hstored.append (.cons hexec (.nil _))
  obtain ⟨-,hsched,hheap,-⟩ := hrun _ _ _ hacts
  exact ⟨disk,host,i,s₂,hmain,hacts,hsched,hheap⟩

/-- Programs on the whole machine: after any steps, a well-formed program that is stored under the first word of a line of
`exec` becomes a new task where there is room for it, with its segments in place and the words of the line on its stack. -/
theorem kernelMain_launches {names : NameMap} (hpool : ∀ i, h.kernel.tasks (.slot i) = Task.zero)
    (hlines : slaveInfo.present ≠ 0 → Responsive lines waits) (hdrives : Drives slaveInfo h.device.disk names) {fuel : ℕ}
    (hfuel : 0x100000 < fuel) (img : Image) :
    ∃ disk host, kernelMain lines waits driveInfo slaveInfo screen h = some (disk, host) ∧
      ∀ acts answers s, Machine.Allowed (Steps (blkdev lines waits driveInfo slaveInfo disk) (diskRegion disk) fuel img)
          ⟨host,[]⟩ acts answers s →
        ∃ names', Machine.Allowed ActSpec names acts answers names' ∧
          ∀ argBuf args w ws data, 0 ∉ args → args.length ≤ 255 → words isSpace args = w :: ws →
            names'.find w = some (.file data) → data.length ≤ 0x40000 → WellFormed (fileOf data) data.length →
            Room s.host.kernel data →
            Launches (blkdev lines waits driveInfo slaveInfo disk) fuel img argBuf args data s := by
  obtain ⟨disk,host,hmain,-,-,A,hA,horder,hnames⟩ := boots driveInfo screen hpool hlines hdrives
  refine ⟨disk,host,hmain,fun acts answers s hrun => ?_⟩
  rw [← hA] at hrun
  obtain ⟨hs,hhistory⟩ := run_refines hfuel hrun horder
  rw [hnames] at hhistory
  exact ⟨_,hhistory,fun argBuf args w ws data h0 hlen hwords hfind hmax hwf hroom =>
    hs.launches hfuel img argBuf h0 hlen hwords hfind hmax hwf hroom⟩

/-- A program is written to a slave drive that has been formatted at the mount, and started with an argument. -/
theorem kernelMain_launches_tiny : ∃ disk host s,
    kernelMain readyLines 1 ⟨1⟩ ⟨⟨1⟩,64⟩ freshHost.screen coldHost = some (disk, host) ∧
    Machine.Allowed (Steps (blkdev readyLines 1 ⟨1⟩ ⟨⟨1⟩,64⟩ disk) (diskRegion disk) 0x100001 flatImage) ⟨host,[]⟩
      [.file (.create [0x61] fsTypeFile), .file (.write [0x61] tinyProgram (by decide))]
      [.reply (.status 0), .reply (.status 0)] s ∧
    Launches (blkdev readyLines 1 ⟨1⟩ ⟨⟨1⟩,64⟩ disk) 0x100001 flatImage (fun _ => 0x78) [0x61, 0x20, 0x62] tinyProgram s := by
  have hdrives : Drives ⟨⟨1⟩,64⟩ coldHost.device.disk NameMap.empty :=
    .unformatted (by decide) (by decide) (by decide) (by decide)
  have hboots : Boots readyLines 1 ⟨1⟩ ⟨⟨1⟩,64⟩ freshHost.screen coldHost NameMap.empty :=
    boots ⟨1⟩ freshHost.screen (fun _ => rfl) (fun _ => readyLines_responsive) hdrives
  obtain ⟨disk,host,_,s,_,hstart,hacts,hroom,-⟩ := boots_starts ⟨1⟩ freshHost.screen hboots (fun _ => rfl)
    (Nat.lt_succ_self _) flatImage fun _ => 0x78
  obtain ⟨disk',host',hmain,hrun⟩ := kernelMain_launches ⟨1⟩ freshHost.screen (fun _ => rfl) (fun _ => readyLines_responsive)
    hdrives (Nat.lt_succ_self 0x100000) flatImage
  cases hmain.symm.trans hstart
  obtain ⟨names',hhistory,hlaunch⟩ := hrun _ _ s hacts
  have hfind : names'.find [0x61] = some (.file tinyProgram) := by
    cases hhistory with
    | cons _ hrest =>
      cases hrest with
      | cons hwrite hnil =>
        cases hnil
        rcases hwrite with ⟨_,_,hinsert⟩ | ⟨hfail,_⟩
        · rw [hinsert]
          exact NameMap.find_insert_self _ _ _
        · cases hfail
  have hwords : words isSpace [0x61, 0x20, 0x62] = [[0x61], [0x62]] := by decide +kernel
  exact ⟨disk,host,s,hmain,hacts,hlaunch _ _ _ _ _ (by decide) (by decide) hwords hfind (by decide) tinyProgram_wellFormed
    hroom⟩

end

end ApPa.System

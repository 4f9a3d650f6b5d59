import ApPa.Drivers.Ata
import ApPa.Fs.DeviceFrame

/-! # The file system on the slave drive

`ata_blockdev.c` puts the slave drive behind the interface of a block device, one sector a call. The buffer of
512 bytes is moved as 256 words, the low byte of each first.
-/
namespace ApPa.Drivers
open Fs Loop PioDisk LittleEndian PortIo

/-- `ata_drive_info_t`, as far as the block device reads it. -/
structure AtaIdentity extends AtaDriveInfo where
  lba28Sectors : UInt32

def blockWords (b : Block) (j : ℕ) : UInt16 := UInt16.ofNat (leNat (b.slice (2 * j) 2))

def wordsBlock (words : List UInt16) : Block := Block.ofBytes (words.flatMap fun w => le16 w.toNat)

section
variable (lines : ℕ → UInt8) (fuel : ℕ) (info : AtaInfo)

/-- A failed call leaves the buffer alone. One that waits for ever is counted as a failed call here. -/
def ataBlockRead (block : UInt32) (b : Bus) : Option Block × Bus :=
  match ataSlaveReadSectors lines fuel info block 1 b with
  | some (ret, words, b) => (if ret = 0 then some (wordsBlock words) else none, b)
  | none => (none, b)

def ataBlockWrite (block : UInt32) (buf : Block) (b : Bus) : Bool × Bus :=
  match ataSlaveWriteSectors lines fuel info block 1 (blockWords buf) b with
  | some (ret, b) => (ret = 0, b)
  | none => (false, b)

variable (driveInfo : AtaDriveInfo) (slaveInfo : AtaIdentity)

def ataDev : BlockDevice Bus where
  read := ataBlockRead lines fuel ⟨driveInfo,slaveInfo.toAtaDriveInfo⟩
  write := ataBlockWrite lines fuel ⟨driveInfo,slaveInfo.toAtaDriveInfo⟩
  totalBlocks := slaveInfo.lba28Sectors

/-- `NULL` when there is no slave drive. -/
def ataBlockdevInit : Option (BlockDevice Bus) :=
  if slaveInfo.present = 0 then none else some (ataDev lines fuel driveInfo slaveInfo)

end

/-! ## Bytes and words -/

theorem le16_leNat (x y : UInt8) : le16 (UInt16.ofNat (leNat [x, y])).toNat = [x, y] := by
  have hx := x.toNat_lt
  have hy := y.toNat_lt
  have hvalue : (UInt16.ofNat (leNat [x, y])).toNat = x.toNat + 256 * y.toNat := by
    rw [UInt16.toNat_ofNat']
    simp only [leNat]
    omega
  rw [hvalue, le16]
  congr 1
  · rw [← UInt8.toNat_inj, leByte_toNat, pow_zero, Nat.div_one]
    omega
  · congr 1
    rw [← UInt8.toNat_inj, leByte_toNat, pow_one]
    omega

theorem flatMap_words (l : List UInt8) (n : ℕ) (h : l.length = 2 * n) :
    (List.range n).flatMap (fun j => le16 (UInt16.ofNat (leNat ((l.drop (2 * j)).take 2))).toNat) = l := by
  induction n generalizing l with
  | zero => rw [List.eq_nil_of_length_eq_zero h]; rfl
  | succ n ih =>
    obtain ⟨x,y,l,rfl⟩ : ∃ x y l', l = x :: y :: l' := by
      match l, h with
      | x :: y :: l, _ => exact ⟨x,y,l,rfl⟩
    simp only [List.length_cons] at h
    rw [List.range_succ_eq_map, List.flatMap_cons, List.flatMap_map]
    have hfirst : le16 (UInt16.ofNat (leNat (((x :: y :: l).drop (2 * 0)).take 2))).toNat = [x, y] := le16_leNat x y
    rw [hfirst]
    have hrest : ∀ j, (x :: y :: l).drop (2 * j.succ) = l.drop (2 * j) := fun j => rfl
    simp only [hrest]
    rw [ih l (by omega)]
    rfl

theorem wordsBlock_blockWords (b : Block) : wordsBlock (sectorOf (blockWords b) 0).words = b := by
  have hbytes := flatMap_words b.bytes 256 b.length_eq
  apply Block.ext
  rw [wordsBlock, Block.ofBytes]
  dsimp only [sectorOf]
  rw [List.flatMap_map]
  simp only [Nat.zero_add, blockWords, Block.slice]
  rw [hbytes]
  exact List.take_left' b.length_eq

/-! ## One sector -/

section
variable {lines : ℕ → UInt8} {fuel : ℕ} {info : AtaInfo} {lba : UInt32} {b b' : Bus} {ret : ℤ}

/-- A read of one sector changes neither drive, whatever the drive answers. -/
theorem slaveRead_cases {words : List UInt16} (h : ataSlaveReadSectors lines fuel info lba 1 b = some (ret, words, b')) :
    b'.disk = b.disk ∧ (ret = -1 ∨ ret = 0 ∧ (lba.toNat < 2 ^ 28 → words = (b.disk .slave lba.toNat).words)) := by
  have hcall : readCall lines .slave fuel info lba 1 b = some (ret, words, b') := h
  obtain ⟨hdisk,hret | ⟨hret,hwords,-⟩⟩ := readCall_cases hcall
  · exact ⟨hdisk,.inl hret⟩
  · refine ⟨hdisk,.inr ⟨hret,fun hlba => ?_⟩⟩
    rw [hwords, Nat.mod_eq_of_lt hlba]
    exact text_succ (b.disk .slave) lba.toNat 0

/-- A write of one sector stores the whole sector on the slave drive and answers 0, or changes nothing. -/
theorem slaveWrite_cases {buf : ℕ → UInt16} (h : ataSlaveWriteSectors lines fuel info lba 1 buf b = some (ret, b')) :
    ret = -1 ∧ b'.disk = b.disk ∨
      ret = 0 ∧ ∃ a, b'.disk = store b.disk .slave a (sectorOf buf 0) ∧ (lba.toNat < 2 ^ 28 → a = lba.toNat) := by
  have hcall : writeCall lines .slave fuel info lba 1 buf b = some (ret, b') := h
  obtain ⟨j,hdisk,⟨rfl,rfl⟩ | ⟨rfl,hj⟩⟩ := writeCall_cases hcall
  · refine .inr ⟨rfl,_,hdisk.trans ?_,Nat.mod_eq_of_lt⟩
    exact (store_stored b.disk _ 0 fun k => sectorOf buf (256 * k)).symm.trans (by rw [stored_zero]; rfl)
  · obtain rfl : j = 0 := Nat.lt_one_iff.mp hj
    exact .inl ⟨rfl,hdisk.trans (stored_zero b.disk _ _)⟩

end

/-! ## The device -/

section
variable {lines : ℕ → UInt8} {fuel : ℕ} (driveInfo : AtaDriveInfo) {slaveInfo : AtaIdentity}

def slaveBlock (d : Disks) (n : ℕ) : Block := wordsBlock (d .slave n).words

theorem slaveBlock_store (d : Disks) (n : ℕ) (blk : Block) :
    slaveBlock (store d .slave n (sectorOf (blockWords blk) 0)) = Function.update (slaveBlock d) n blk := by
  funext x
  unfold slaveBlock store
  rw [Function.update_self]
  by_cases hx : x = n
  · subst hx
    rw [Function.update_self, Function.update_self, wordsBlock_blockWords]
  · rw [Function.update_of_ne hx, Function.update_of_ne hx]

/-- The slave drive is a device that does not fail, as long as it answers. -/
def Responsive.reliable (h : Responsive lines fuel) (hpresent : slaveInfo.present ≠ 0)
    (hmax : slaveInfo.lba28Sectors.toNat ≤ 2 ^ 28) : Reliable (ataDev lines fuel driveInfo slaveInfo) where
  contents b := slaveBlock b.disk
  read_ok block b hblock := by
    have hlba : block.toNat < 2 ^ 28 := Nat.lt_of_lt_of_le (UInt32.lt_iff_toNat_lt.mp hblock) hmax
    have hslave : (AtaInfo.of ⟨driveInfo,slaveInfo.toAtaDriveInfo⟩ .slave).present ≠ 0 := hpresent
    obtain ⟨words,b',hread⟩ : ∃ words b', ataSlaveReadSectors lines fuel ⟨driveInfo,slaveInfo.toAtaDriveInfo⟩ block 1 b =
      some (0, words, b') := h.readCall hslave block 1 b
    obtain ⟨hdisk,hret | ⟨-,hwords⟩⟩ := slaveRead_cases hread
    · exact absurd hret (by decide)
    refine ⟨b',?_,congrArg slaveBlock hdisk⟩
    dsimp only [ataDev, ataBlockRead]
    rw [hread]
    dsimp only
    rw [if_pos rfl, hwords hlba]
    rfl
  write_ok block blk b hblock := by
    have hlba : block.toNat < 2 ^ 28 := Nat.lt_of_lt_of_le (UInt32.lt_iff_toNat_lt.mp hblock) hmax
    have hslave : (AtaInfo.of ⟨driveInfo,slaveInfo.toAtaDriveInfo⟩ .slave).present ≠ 0 := hpresent
    obtain ⟨b',hwrite⟩ : ∃ b', ataSlaveWriteSectors lines fuel ⟨driveInfo,slaveInfo.toAtaDriveInfo⟩ block 1 (blockWords blk) b =
      some (0, b') := h.writeCall hslave block 1 (blockWords blk) b
    obtain ⟨hret,-⟩ | ⟨-,a,hdisk,ha⟩ := slaveWrite_cases hwrite
    · exact absurd hret (by decide)
    refine ⟨b',?_,?_⟩
    · dsimp only [ataDev, ataBlockWrite]
      rw [hwrite]
      rfl
    · rw [hdisk, ha hlba, slaveBlock_store]

/-- No block, and no answer of the drives, reaches the master drive. -/
theorem ataDev_keeps (lines : ℕ → UInt8) (fuel : ℕ) (driveInfo : AtaDriveInfo) (slaveInfo : AtaIdentity)
    (master : ℕ → Sector) : (ataDev lines fuel driveInfo slaveInfo).Keeps fun b => b.disk .master = master where
  read block b hb := by
    dsimp only [ataDev, ataBlockRead]
    split
    · rename_i hread
      rw [(slaveRead_cases hread).1, hb]
    · exact hb
  write block blk b hb := by
    dsimp only [ataDev, ataBlockWrite]
    split
    · rename_i hwrite
      obtain ⟨-,hdisk⟩ | ⟨-,a,hdisk,-⟩ := slaveWrite_cases hwrite
      · rw [hdisk, hb]
      · rw [hdisk, store, Function.update_of_ne (by decide), hb]
    · exact hb

end

/-! ## From one start of the machine to the next -/

/-- What a start finds besides the drives: the registers and the transfer of `bus`, the memory of the file system and
what the status register will show. Then come the calls of the session. -/
structure Session where
  lines : ℕ → UInt8
  bus : Bus
  superblock : Superblock
  blockBuf : Block
  calls : List Call

section
variable (fuel : ℕ) (driveInfo : AtaDriveInfo) (slaveInfo : AtaIdentity)

/-- `kernel_main` mounts the slave drive, and the calls follow. `none` without a mount. -/
def session (start : Session) (d : Disks) : Option (List Reply × Disks) := do
  let dev ← ataBlockdevInit start.lines fuel driveInfo slaveInfo
  let (ret, s) := fsInit dev ⟨{ start.bus with disk := d },start.superblock,start.blockBuf⟩
  if ret = 0 then
    let (replies, s) := Machine.run (exec dev) start.calls s
    some (replies, s.disk.disk)
  else none

/-- Only the drives carry over from a session to the next. -/
def sessions : List Session → Disks → Option (List Reply × Disks)
  | [], d => some ([], d)
  | start :: starts, d => do
    let (replies, d) ← session fuel driveInfo slaveInfo start d
    let (replies', d) ← sessions starts d
    some (replies ++ replies', d)

end

def slaveVolume (d : Disks) : Volume := volumeOn (slaveBlock d)

section
variable {fuel : ℕ} (driveInfo : AtaDriveInfo) {slaveInfo : AtaIdentity} {d : Disks} {start : Session}
  (hpresent : slaveInfo.present ≠ 0) (hmax : slaveInfo.lba28Sectors.toNat ≤ 2 ^ 28)
include hpresent hmax

theorem session_of_mount (hlines : Responsive start.lines fuel) {v : Volume}
    (hc : Consistent slaveInfo.lba28Sectors v) {s₀ : FsState Bus}
    (hinit : fsInit (ataDev start.lines fuel driveInfo slaveInfo)
      ⟨{ start.bus with disk := d },start.superblock,start.blockBuf⟩ = (0, s₀))
    (hv : (hlines.reliable driveInfo hpresent hmax).volume s₀ = v) :
    ∃ replies d', session fuel driveInfo slaveInfo start d = some (replies, d') ∧
      Consistent slaveInfo.lba28Sectors (slaveVolume d') ∧
      Machine.Allowed MapSpec v.nodes start.calls replies (slaveVolume d').nodes ∧ d' .master = d .master := by
  let r := hlines.reliable driveInfo hpresent hmax
  subst hv
  have hrun := r.run_consistent start.calls hc
  have hallowed := Machine.run_refines (fun s => Consistent slaveInfo.lba28Sectors (r.volume s)) (fun s => (r.volume s).nodes)
    (fun call s h => (r.exec_refines call s h).1) (fun call s h => (r.exec_refines call s h).2) start.calls hc
  have hkeeps := ataDev_keeps start.lines fuel driveInfo slaveInfo (d .master)
  have hmaster := hkeeps.fsInit (s := ⟨{ start.bus with disk := d },start.superblock,start.blockBuf⟩) rfl
  rw [hinit] at hmaster
  let last := Machine.run (exec (ataDev start.lines fuel driveInfo slaveInfo)) start.calls s₀
  have hvolume : slaveVolume last.2.disk.disk = r.volume last.2 := hrun.volumeOn_eq
  refine ⟨last.1,last.2.disk.disk,?_,?_,?_,hkeeps.run hmaster start.calls⟩
  · rw [session, ataBlockdevInit, if_neg hpresent]
    dsimp only [bind, Option.bind_some]
    rw [hinit]
    rfl
  · rw [hvolume]
    exact hrun
  · rw [hvolume]
    exact hallowed

/-- A session on a formatted drive goes on from the names that it holds. -/
theorem session_formatted (hlines : Responsive start.lines fuel) (hc : Consistent slaveInfo.lba28Sectors (slaveVolume d)) :
    ∃ replies d', session fuel driveInfo slaveInfo start d = some (replies, d') ∧
      Consistent slaveInfo.lba28Sectors (slaveVolume d') ∧
      Machine.Allowed MapSpec (slaveVolume d).nodes start.calls replies (slaveVolume d').nodes ∧ d' .master = d .master := by
  obtain ⟨s₀,hinit,hv⟩ := (hlines.reliable driveInfo hpresent hmax).fsInit_mount
    ⟨{ start.bus with disk := d },start.superblock,start.blockBuf⟩ hc.sound.mountable
  exact session_of_mount driveInfo hpresent hmax hlines hc hinit hv

theorem sessions_formatted (starts : List Session) (hlines : ∀ start ∈ starts, Responsive start.lines fuel)
    (hc : Consistent slaveInfo.lba28Sectors (slaveVolume d)) :
    ∃ replies d', sessions fuel driveInfo slaveInfo starts d = some (replies, d') ∧
      Machine.Allowed MapSpec (slaveVolume d).nodes (starts.flatMap Session.calls) replies (slaveVolume d').nodes ∧
      d' .master = d .master := by
  induction starts generalizing d with
  | nil => exact ⟨[],d,rfl,.nil _,rfl⟩
  | cons start starts ih =>
    obtain ⟨replies,d₁,hsession,hc₁,hallowed,hmaster⟩ :=
      session_formatted driveInfo hpresent hmax (hlines start List.mem_cons_self) hc
    obtain ⟨replies',d₂,hrest,hallowed',hmaster'⟩ := ih (fun start h => hlines start (List.mem_cons_of_mem _ h)) hc₁
    refine ⟨replies ++ replies',d₂,?_,hallowed.append hallowed',hmaster'.trans hmaster⟩
    rw [sessions, hsession]
    dsimp only [bind, Option.bind_some]
    rw [hrest]
    rfl

/-- The file system on the slave drive is one map of names that outlives the machine: whatever the registers and the memory
hold when the machine is started again, the replies of all sessions together are those of one history of the map, from
the first mount of an unformatted drive on. The master drive never changes. -/
theorem ata_sessions_refine_nameMap (h4 : 4 ≤ slaveInfo.lba28Sectors.toNat)
    (hu : (Superblock.decode (slaveBlock d 0)).magic ≠ fsMagic) (starts : List Session)
    (hlines : ∀ s ∈ start :: starts, Responsive s.lines fuel) :
    ∃ replies d', sessions fuel driveInfo slaveInfo (start :: starts) d = some (replies, d') ∧
      Machine.Allowed MapSpec NameMap.empty ((start :: starts).flatMap Session.calls) replies (slaveVolume d').nodes ∧
      d' .master = d .master := by
  have hfirst := hlines start List.mem_cons_self
  obtain ⟨s₀,hinit,hc₀,hempty⟩ := (hfirst.reliable driveInfo hpresent hmax).fsInit_unformatted
    ⟨{ start.bus with disk := d },start.superblock,start.blockBuf⟩ (Nat.le_of_succ_le h4) hu
  obtain ⟨replies,d₁,hsession,hc₁,hallowed,hmaster⟩ := session_of_mount driveInfo hpresent hmax hfirst hc₀ hinit rfl
  obtain ⟨replies',d₂,hrest,hallowed',hmaster'⟩ := sessions_formatted driveInfo hpresent hmax starts
    (fun start h => hlines start (List.mem_cons_of_mem _ h)) hc₁
  rw [Reliable.nodes_eq_empty hempty] at hallowed
  refine ⟨replies ++ replies',d₂,?_,hallowed.append hallowed',hmaster'.trans hmaster⟩
  rw [sessions, hsession]
  dsimp only [bind, Option.bind_some]
  rw [hrest]
  rfl

end

/-- A file is written in one session and read in the next. -/
def noteSessions : List Session :=
  [⟨readyLines,blankBus,freshSuperblock 0,Block.zero,[.create [0x61] fsTypeFile, .write [0x61] [1,2,3] (by decide)]⟩,
   ⟨readyLines,⟨0xFF,1,2,3,4,blankBus.disk,some ⟨.write,.master,7,1,[]⟩,9⟩,freshSuperblock 5,Block.zero,[.read [0x61] 2]⟩]

theorem ata_sessions_note :
    ∃ replies d', sessions 1 ⟨1⟩ ⟨⟨1⟩,64⟩ noteSessions blankBus.disk = some (replies, d') ∧
      Machine.Allowed MapSpec NameMap.empty
        [.create [0x61] fsTypeFile, .write [0x61] [1,2,3] (by decide), .read [0x61] 2] replies (slaveVolume d').nodes ∧
      d' .master = blankBus.disk .master := by
  refine ata_sessions_refine_nameMap ⟨1⟩ (by decide) (by decide) (by decide) (by decide) _ (fun s hs => ?_)
  have hall : ∀ s ∈ noteSessions, s.lines = readyLines := by simp [noteSessions]
  rw [hall s hs]
  exact readyLines_responsive

end ApPa.Drivers

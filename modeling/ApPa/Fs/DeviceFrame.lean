import ApPa.Fs.Refinement

/-! # What the file system does not touch

The file system reaches its device through the two routines of `block_device_t` only, so what they keep is
kept by every call and every history of calls, also on a device that fails.
-/
namespace ApPa.Fs
variable {σ : Type} {dev : BlockDevice σ}

/-- Neither routine leaves the states of `P`, for any block and any answer. -/
structure BlockDevice.Keeps (dev : BlockDevice σ) (P : σ → Prop) : Prop where
  read : ∀ (b : UInt32) (d : σ), P d → P (dev.read b d).2
  write : ∀ (b : UInt32) (blk : Block) (d : σ), P d → P (dev.write b blk d).2

namespace BlockDevice.Keeps
variable {P : σ → Prop} (h : dev.Keeps P) {s : FsState σ}
include h

theorem readBlock (hs : P s.disk) (b : UInt32) : P (readBlock dev b s).2.disk := by
  have hread := h.read b s.disk hs
  unfold Fs.readBlock
  rcases he : dev.read b s.disk with ⟨_ | blk,d⟩
  · rwa [he] at hread
  · rwa [he] at hread

theorem writeBlock (hs : P s.disk) (b : UInt32) (blk : Block) : P (writeBlock dev b blk s).2.disk := h.write b blk s.disk hs

theorem fsReadEntry (hs : P s.disk) (i : ℕ) : P (fsReadEntry dev i s).2.disk := by
  unfold Fs.fsReadEntry
  split
  · exact hs
  have hread := h.readBlock hs (entryBlock s i)
  rcases he : Fs.readBlock dev (entryBlock s i) s with ⟨_ | _,s1⟩
  · rwa [he] at hread
  · rwa [he] at hread

theorem fsWriteEntry (hs : P s.disk) (i : ℕ) (e : FsEntry) : P (fsWriteEntry dev i e s).2.disk := by
  unfold Fs.fsWriteEntry
  split
  · exact hs
  have hread := h.readBlock hs (entryBlock s i)
  rcases he : Fs.readBlock dev (entryBlock s i) s with ⟨_ | _,s1⟩
  · rwa [he] at hread
  · rw [he] at hread
    exact h.write _ _ _ hread

theorem scanEntries {α β : Type} {body : ℕ → FsEntry → α → FsState σ → (β ⊕ α) × FsState σ}
    (hbody : ∀ i e acc s, P s.disk → P (body i e acc s).2.disk) (n i : ℕ) (acc : α) (hs : P s.disk) :
    P (scanEntries dev body n i acc s).2.disk := by
  induction n generalizing i acc s with
  | zero => exact hs
  | succ n ih =>
    rw [Fs.scanEntries]
    have hread := h.fsReadEntry hs i
    rcases he : Fs.fsReadEntry dev i s with ⟨_ | e,s1⟩
    · rw [he] at hread
      exact ih (i + 1) acc hread
    · rw [he] at hread
      have hturn := hbody i e acc s1 hread
      dsimp only
      rcases hb : body i e acc s1 with ⟨b | acc',s2⟩
      · rwa [hb] at hturn
      · rw [hb] at hturn
        exact ih (i + 1) acc' hturn

theorem scanQuiet {α β : Type} {body : ℕ → FsEntry → α → FsState σ → (β ⊕ α) × FsState σ}
    (hbody : ∀ i e acc s, (body i e acc s).2 = s) (n i : ℕ) (acc : α) (hs : P s.disk) :
    P (Fs.scanEntries dev body n i acc s).2.disk :=
  h.scanEntries (fun i e acc s hs => by rwa [hbody i e acc s]) n i acc hs

theorem fsFindEntry (hs : P s.disk) (name : List UInt8) : P (fsFindEntry dev name s).2.disk := by
  have hquiet : ∀ i e acc (s : FsState σ), (findBody name i e acc s).2 = s := fun i e acc s => by
    unfold findBody
    split <;> rfl
  have hscan := h.scanQuiet hquiet fsMaxEntries 0 () hs
  unfold Fs.fsFindEntry
  rcases he : Fs.scanEntries dev (findBody name) fsMaxEntries 0 () s with ⟨_ | _,s1⟩
  · rwa [he] at hscan
  · rwa [he] at hscan

theorem fsFindFreeSlot (hs : P s.disk) : P (fsFindFreeSlot dev s).2.disk := by
  have hquiet : ∀ i e acc (s : FsState σ), (freeSlotBody i e acc s).2 = s := fun i e acc s => by
    unfold freeSlotBody
    split <;> rfl
  have hscan := h.scanQuiet hquiet fsMaxEntries 0 () hs
  unfold Fs.fsFindFreeSlot
  rcases he : Fs.scanEntries dev freeSlotBody fsMaxEntries 0 () s with ⟨_ | _,s1⟩
  · rwa [he] at hscan
  · rwa [he] at hscan

theorem fsAllocBlocks (hs : P s.disk) (count : UInt32) : P (fsAllocBlocks dev count s).2.disk := by
  unfold Fs.fsAllocBlocks
  split
  · exact hs
  split
  · exact hs
  dsimp only
  have hscan := h.scanQuiet (fun _ _ _ _ => rfl : ∀ i e acc (s' : FsState σ),
    (markBody (s.superblock.totalBlocks - s.superblock.dataStartBlock) i e acc s').2 = s') fsMaxEntries 0 (fun _ => 0) hs
  split
  · rename_i e _ _
    exact e.elim
  · rename_i he
    rw [he] at hscan
    split <;> exact hscan

theorem fsCountUsed (hs : P s.disk) : P (fsCountUsed dev s).2.disk := by
  have hscan := h.scanQuiet (fun _ _ _ _ => rfl : ∀ i e acc (s : FsState σ), (countBody i e acc s).2 = s) fsMaxEntries 0 0 hs
  unfold Fs.fsCountUsed
  rcases he : Fs.scanEntries dev countBody fsMaxEntries 0 0 s with ⟨_ | _,s1⟩
  · rwa [he] at hscan
  · rwa [he] at hscan

theorem fsFormat (hs : P s.disk) : P (fsFormat dev s).2.disk := by
  unfold Fs.fsFormat fsFlushSuperblock
  have h0 := h.writeBlock (s := { s with superblock := freshSuperblock dev.totalBlocks }) hs 0
    (freshSuperblock dev.totalBlocks).encode
  dsimp only at h0 ⊢
  split
  · rename_i he
    rwa [he] at h0
  rename_i s1 he
  rw [he] at h0
  have h1 := h.writeBlock (s := { s1 with blockBuf := Block.zero }) h0 s1.superblock.dirStartBlock Block.zero
  split
  · rename_i he
    rwa [he] at h1
  rename_i s2 he
  rw [he] at h1
  have h2 := h.writeBlock h1 (s2.superblock.dirStartBlock + 1) Block.zero
  split
  · rename_i he
    rwa [he] at h2
  · rename_i he
    rwa [he] at h2

theorem fsInit (hs : P s.disk) : P (fsInit dev s).2.disk := by
  have hread := h.read 0 s.disk hs
  unfold Fs.fsInit
  rcases he : dev.read 0 s.disk with ⟨_ | b,d⟩
  · rw [he] at hread
    exact h.fsFormat hread
  · rw [he] at hread
    dsimp only
    split
    · exact h.fsFormat hread
    · exact hread

theorem fsCreate (hs : P s.disk) (name : List UInt8) (type : UInt8) : P (fsCreate dev name type s).2.disk := by
  unfold Fs.fsCreate
  split
  · exact hs
  split
  · exact hs
  have hfind := h.fsFindEntry hs name
  split
  · rename_i he
    rwa [he] at hfind
  rename_i s1 he
  rw [he] at hfind
  have hslot := h.fsFindFreeSlot hfind
  dsimp only
  split
  · exact hslot
  have hwrite := h.fsWriteEntry hslot (Fs.fsFindFreeSlot dev s1).1 (newEntry name type)
  split
  · rename_i he
    rwa [he] at hwrite
  · rename_i he
    rwa [he] at hwrite

theorem fsWriteBlocks (start : UInt32) (n i : ℕ) (src : List UInt8) (remaining : UInt32) (hs : P s.disk) :
    P (fsWriteBlocks dev start n i src remaining s).2.disk := by
  induction n generalizing i src remaining s with
  | zero => exact hs
  | succ n ih =>
    rw [Fs.fsWriteBlocks]
    split
    · rename_i he
      rw [← congrArg (fun r => r.2.disk) he]
      refine h.writeBlock ?_ _ _
      rwa [apply_ite FsState.disk, ite_self]
    · rename_i he
      refine ih (i + 1) _ _ ?_
      rw [← congrArg (fun r => r.2.disk) he]
      refine h.writeBlock ?_ _ _
      rwa [apply_ite FsState.disk, ite_self]

theorem fsWriteFile (hs : P s.disk) (name data : List UInt8) (size : UInt32) : P (fsWriteFile dev name data size s).2.disk := by
  unfold Fs.fsWriteFile
  have hfind := h.fsFindEntry hs name
  split
  · rename_i he
    rwa [he] at hfind
  rename_i entry index s1 he
  rw [he] at hfind
  split
  · exact hfind
  dsimp only
  have halloc : P (if blocksFor size > 0 then Fs.fsAllocBlocks dev (blocksFor size) s1 else (0, s1)).2.disk := by
    split
    · exact h.fsAllocBlocks hfind _
    · exact hfind
  generalize (if blocksFor size > 0 then Fs.fsAllocBlocks dev (blocksFor size) s1 else (0, s1)) = r at halloc ⊢
  obtain ⟨start,s2⟩ := r
  dsimp only at halloc ⊢
  split
  · exact halloc
  have hblocks := h.fsWriteBlocks start (blocksFor size).toNat 0 data size halloc
  split
  · rename_i he
    rwa [he] at hblocks
  rename_i s3 he
  rw [he] at hblocks
  have hentry := h.fsWriteEntry hblocks index { entry with startBlock := start.toUInt16, size }
  split
  · rename_i he
    rwa [he] at hentry
  · rename_i s4 he
    rw [he] at hentry
    exact h.write _ _ _ (h.fsCountUsed hentry)

theorem fsReadBlocks (start : UInt32) (n i : ℕ) (remaining : UInt32) (hs : P s.disk) :
    P (fsReadBlocks dev start n i remaining s).2.disk := by
  induction n generalizing i remaining s with
  | zero => exact hs
  | succ n ih =>
    rw [Fs.fsReadBlocks]
    dsimp only
    have hread := h.readBlock hs (s.superblock.dataStartBlock + start + UInt32.ofNat i)
    split
    · rename_i he
      rwa [he] at hread
    · rename_i s1 he
      rw [he] at hread
      exact ih (i + 1) (remaining - if remaining > 512 then 512 else remaining) hread

theorem fsReadFile (hs : P s.disk) (name : List UInt8) (maxSize : UInt32) : P (fsReadFile dev name maxSize s).2.disk := by
  unfold Fs.fsReadFile
  have hfind := h.fsFindEntry hs name
  split
  · rename_i he
    rwa [he] at hfind
  · rename_i he
    rw [he] at hfind
    split
    · exact hfind
    · exact h.fsReadBlocks _ _ _ _ hfind

theorem fsDeleteChildren (hs : P s.disk) (name : List UInt8) (freed : UInt32) :
    P (fsDeleteChildren dev name freed s).2.disk := by
  have hbody : ∀ i e acc (s : FsState σ), P s.disk → P (deleteBody dev name i e acc s).2.disk := by
    intro i e acc s hs
    unfold deleteBody
    split
    · exact hs
    split
    · exact h.fsWriteEntry hs i FsEntry.zero
    · exact hs
  have hscan := h.scanEntries hbody fsMaxEntries 0 freed hs
  unfold Fs.fsDeleteChildren
  rcases he : Fs.scanEntries dev (deleteBody dev name) fsMaxEntries 0 freed s with ⟨_ | _,s1⟩
  · rwa [he] at hscan
  · rwa [he] at hscan

theorem fsDelete (hs : P s.disk) (name : List UInt8) : P (fsDelete dev name s).2.disk := by
  unfold Fs.fsDelete
  have hfind := h.fsFindEntry hs name
  split
  · rename_i he
    rwa [he] at hfind
  rename_i entry index s1 he
  rw [he] at hfind
  dsimp only
  generalize (if entry.type = fsTypeFile ∧ entry.size > 0 then blocksFor entry.size else 0) = freed
  have hclear : P (if entry.type = fsTypeDir then Fs.fsDeleteChildren dev name freed s1 else (freed, s1)).2.disk := by
    split
    · exact h.fsDeleteChildren hfind name freed
    · exact hfind
  have hentry := h.fsWriteEntry hclear index FsEntry.zero
  split
  · rename_i he
    rwa [he] at hentry
  · rename_i he
    rw [he] at hentry
    exact h.write _ _ _ hentry

theorem fsList (hs : P s.disk) (max : ℕ) : P (fsList dev max s).2.disk := by
  have hquiet : ∀ i e acc (s : FsState σ), (listBody max i e acc s).2 = s := fun i e acc s => by
    unfold listBody
    split
    · split <;> rfl
    · rfl
  have hscan := h.scanQuiet hquiet (if max = 0 then 0 else fsMaxEntries) 0 [] hs
  unfold Fs.fsList
  rcases he : Fs.scanEntries dev (listBody max) (if max = 0 then 0 else fsMaxEntries) 0 [] s with ⟨_ | _,s1⟩
  · rwa [he] at hscan
  · rwa [he] at hscan

theorem fsStat (hs : P s.disk) (name : List UInt8) : P (fsStat dev name s).2.disk := by
  unfold Fs.fsStat
  have hfind := h.fsFindEntry hs name
  split
  · rename_i he
    rwa [he] at hfind
  · rename_i he
    rwa [he] at hfind

theorem exec (hs : P s.disk) (call : Call) : P (exec dev call s).2.disk := by
  cases call with
  | create name type => exact h.fsCreate hs name type
  | write name data fits => exact h.fsWriteFile hs name data _
  | read name maxSize => exact h.fsReadFile hs name maxSize
  | delete name => exact h.fsDelete hs name
  | stat name => exact h.fsStat hs name
  | list max => exact h.fsList hs max

theorem run (hs : P s.disk) (calls : List Call) : P (Machine.run (Fs.exec dev) calls s).2.disk :=
  Machine.run_invariant (fun s : FsState σ => P s.disk) (fun call _ hs => h.exec hs call) calls hs

end BlockDevice.Keeps

/-! ## Devices that keep something in range only

A block number past the end may reach anything. On a consistent volume no call uses one.
-/

/-- Neither routine enters or leaves the states of `P` on a block of the device. -/
structure BlockDevice.Frames (dev : BlockDevice σ) (P : σ → Prop) : Prop where
  read : ∀ (b : UInt32) (d : σ), b < dev.totalBlocks → (P (dev.read b d).2 ↔ P d)
  write : ∀ (b : UInt32) (blk : Block) (d : σ), b < dev.totalBlocks → (P (dev.write b blk d).2 ↔ P d)

namespace Reliable
variable (r : Reliable dev)

/-- Blocks past the end are as they were after every call. -/
theorem exec_beyond (call : Call) (s : FsState σ) (hc : Consistent dev.totalBlocks (r.volume s)) {b : ℕ}
    (hb : dev.totalBlocks.toNat ≤ b) : (r.volume (exec dev call s).2).blocks b = (r.volume s).blocks b := by
  have h3 : 3 ≤ dev.totalBlocks.toNat := hc.formatted.three_le
  cases call with
  | create name type =>
    obtain ⟨s',⟨i,hi,_,_,he,hv⟩ | ⟨he,hv,_⟩⟩ := r.fsCreate_spec s hc name type
    · simp only [exec, he, hv]
      exact Volume.setEntry_blocks_of_ge _ hi _ (by omega)
    · simp only [exec, he, hv]
  | write name data fits =>
    have hlen : (UInt32.ofNat data.length).toNat = data.length := by
      rw [UInt32.toNat_ofNat']
      omega
    obtain ⟨s',⟨he,hv,_⟩ | ⟨i,hi,start,fb,_,_,hfirst,he,hv,_⟩⟩ :=
      r.fsWriteFile_spec s hc name data (UInt32.ofNat data.length) hlen (by omega)
    · simp only [exec, he, hv]
    · have hroom := (FreeRun.of_first hfirst).room
      have hlimit := extentLimit_le dev.totalBlocks
      simp only [exec, he, hv]
      rw [Volume.flush_blocks _ _ (by omega), Volume.storeFile, Volume.setEntry_blocks_of_ge _ hi _ (by omega)]
      exact if_neg (by omega)
  | delete name =>
    obtain ⟨s',⟨he,hv,_⟩ | ⟨i,_,w,fb,_,_,hcl,he,hv,_⟩⟩ := r.fsDelete_spec s hc name
    · simp only [exec, he, hv]
    · simp only [exec, he, hv]
      rw [Volume.flush_blocks _ _ (by omega)]
      exact hcl.blocks b (Or.inr (by omega))
  | read name maxSize => rw [(r.read_refines s hc.sound name maxSize).1]
  | stat name => rw [(r.stat_refines s hc.sound name).1]
  | list max => rw [(r.list_refines s hc.sound max).1]

/-- The same device, with something that its routines leave alone put past its end. -/
def extend (c : σ → Block) (hread : ∀ (b : UInt32) d, b < dev.totalBlocks → c (dev.read b d).2 = c d)
    (hwrite : ∀ (b : UInt32) blk d, b < dev.totalBlocks → c (dev.write b blk d).2 = c d) : Reliable dev where
  contents d b := if b < dev.totalBlocks.toNat then r.contents d b else c d
  read_ok b d hb := by
    obtain ⟨d',he,hd⟩ := r.read_ok b d hb
    have hc := hread b d hb
    rw [he] at hc
    refine ⟨d',by rw [if_pos (UInt32.lt_iff_toNat_lt.mp hb), he],?_⟩
    funext n
    rw [hd]
    exact congrArg (ite _ _) hc
  write_ok b blk d hb := by
    obtain ⟨d',he,hd⟩ := r.write_ok b blk d hb
    have hc := hwrite b blk d hb
    rw [he] at hc
    refine ⟨d',he,?_⟩
    funext n
    simp only [hd, hc, Function.update_apply]
    by_cases hn : n = b.toNat
    · simp [hn, UInt32.lt_iff_toNat_lt.mp hb]
    · simp [hn]

section
variable {P : σ → Prop} (hP : dev.Frames P)

open Classical in
/-- The truth of `P` past the end of the device. -/
noncomputable def marked : Reliable dev :=
  r.extend (fun d => if P d then Block.ofBytes [1] else Block.zero) (fun b d hb => by simp only [hP.read b d hb])
    fun b blk d hb => by simp only [hP.write b blk d hb]

theorem marked_blocks {s : FsState σ} {b : ℕ} (hb : b < dev.totalBlocks.toNat) :
    ((r.marked hP).volume s).blocks b = (r.volume s).blocks b := if_pos hb

open Classical in
theorem marked_end (s : FsState σ) : ((r.marked hP).volume s).blocks dev.totalBlocks.toNat = Block.ofBytes [1] ↔ P s.disk := by
  change (if dev.totalBlocks.toNat < dev.totalBlocks.toNat then r.contents s.disk dev.totalBlocks.toNat else
    if P s.disk then Block.ofBytes [1] else Block.zero) = _ ↔ _
  rw [if_neg (lt_irrefl _)]
  by_cases h : P s.disk
  · simp [h]
  · simp only [h, if_false, iff_false]
    exact fun he => absurd (congrArg (fun b : Block => b.bytes.head?) he) (by decide)

include hP

theorem marked_consistent {s : FsState σ} (hc : Consistent dev.totalBlocks (r.volume s)) :
    Consistent dev.totalBlocks ((r.marked hP).volume s) := by
  have h3 : 3 ≤ dev.totalBlocks.toNat := hc.formatted.three_le
  have hentry : ∀ i < 32, ((r.marked hP).volume s).entry i = (r.volume s).entry i := by
    intro i hi
    rw [Volume.entry, r.marked_blocks hP (by omega), Volume.entry]
  refine ⟨hc.formatted,?_,hc.dir.congr hentry,?_⟩
  · rw [r.marked_blocks hP (by omega), hc.block0]
    rfl
  · rw [Finset.sum_congr rfl fun i hi => by rw [hentry i (Finset.mem_range.mp hi)]]
    exact hc.free

/-- A call on a consistent volume neither enters nor leaves the states of `P`. -/
theorem exec_frames (call : Call) {s : FsState σ} (hc : Consistent dev.totalBlocks (r.volume s)) :
    P (exec dev call s).2.disk ↔ P s.disk := by
  have hbeyond := (r.marked hP).exec_beyond call s (r.marked_consistent hP hc) le_rfl
  rw [← r.marked_end hP, hbeyond, r.marked_end hP]

end

end Reliable

theorem BlockDevice.Frames.fsFormat {P : σ → Prop} (hP : dev.Frames P) (h3 : 3 ≤ dev.totalBlocks.toNat) {s : FsState σ}
    (hs : P s.disk) : P (fsFormat dev s).2.disk := by
  have hwrite : ∀ {b : UInt32} {blk : Block} {s s' : FsState σ} {ok : Bool}, writeBlock dev b blk s = (ok, s') →
      s.superblock = freshSuperblock dev.totalBlocks → b.toNat < 3 → P s.disk →
        s'.superblock = freshSuperblock dev.totalBlocks ∧ P s'.disk := by
    intro b blk s s' ok he hsb hb hs
    obtain rfl : (writeBlock dev b blk s).2 = s' := congrArg Prod.snd he
    exact ⟨hsb,(hP.write b blk s.disk (UInt32.lt_iff_toNat_lt.mpr (by omega))).mpr hs⟩
  have hdir : ∀ {b : Superblock}, b = freshSuperblock dev.totalBlocks → b.dirStartBlock = 1 := fun h => h ▸ rfl
  unfold Fs.fsFormat fsFlushSuperblock
  dsimp only
  split
  · next h0 => exact (hwrite h0 rfl (by decide) hs).2
  next s1 h0 =>
  obtain ⟨hsb1,hs1⟩ := hwrite h0 rfl (by decide) hs
  split
  · next h1 => exact (hwrite h1 hsb1 (by rw [hdir hsb1]; decide) hs1).2
  next s2 h1 =>
  obtain ⟨hsb2,hs2⟩ := hwrite h1 hsb1 (by rw [hdir hsb1]; decide) hs1
  split
  · next h2 => exact (hwrite h2 hsb2 (by rw [hdir hsb2]; decide) hs2).2
  · next h2 => exact (hwrite h2 hsb2 (by rw [hdir hsb2]; decide) hs2).2

theorem BlockDevice.Frames.fsInit {P : σ → Prop} (hP : dev.Frames P) (h3 : 3 ≤ dev.totalBlocks.toNat) {s : FsState σ}
    (hs : P s.disk) : P (fsInit dev s).2.disk := by
  have hread := (hP.read 0 s.disk (UInt32.lt_iff_toNat_lt.mpr (by change 0 < _; omega))).mpr hs
  unfold Fs.fsInit
  rcases he : dev.read 0 s.disk with ⟨_ | b,d⟩
  · rw [he] at hread
    exact hP.fsFormat h3 hread
  · rw [he] at hread
    dsimp only
    split
    · exact hP.fsFormat h3 hread
    · exact hread

end ApPa.Fs

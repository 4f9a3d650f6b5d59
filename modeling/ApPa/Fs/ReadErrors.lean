import ApPa.Fs.Faults

/-! # Writes while directory reads fail

The allocator skips the directory entries it cannot read, so it takes their blocks for
free. A write spares the other files exactly when the first run that seems free this way
meets none of them.
-/
namespace ApPa.Fs
open Klibc BitTable RunSearch

def Disk.written (d : Disk) : List ℕ := d.history.map Prod.fst

/-- Block `b` is free as far as a scan can tell whose first read is attempt number `first`. -/
def Volume.seemsFree (v : Volume) (fail : ℕ → Bool) (first b : ℕ) : Prop :=
  ∀ j < 32, fail (first + j) = false → ¬(v.entry j).covers b

/-- The write finds its file in slot `i` and its blocks from `start` on. The lookup takes
`i + 1` reads; the scan of the allocator follows. -/
structure Chosen (total : UInt32) (v : Volume) (fail : ℕ → Bool) (name : List UInt8) (n : UInt32) (i start : ℕ) :
    Prop where
  index : i < 32
  file : (v.entry i).type = fsTypeFile
  title : (v.entry i).title = cstr name
  found : fail i = false
  enough : n ≤ v.superblock.freeBlocks
  run : FirstRun (v.seemsFree fail (i + 1)) n.toNat (extentLimit total) start

/-- Names are distinct, so there is one slot, and one first run. -/
theorem Chosen.unique {total : UInt32} {v : Volume} (hv : Sound total v) {fail : ℕ → Bool} {name : List UInt8} {n : UInt32}
    {i start i' start' : ℕ} (h : Chosen total v fail name n i start) (h' : Chosen total v fail name n i' start') :
    i = i' ∧ start = start' := by
  obtain rfl : i = i' := hv.dir.distinct i h.index i' h'.index (live_of_file h.file) (live_of_file h'.file)
    (h.title.trans h'.title.symm)
  exact ⟨rfl,h.run.unique h'.run⟩

section
variable {total : UInt32} (read write : ℕ → Bool) (s : FsState Disk)

theorem fsAllocBlocks_disk (hf : Formatted total s.superblock) (hsmall : SmallEntries s.volume) {count : UInt32}
    (hc : count ≠ 0) :
    ∃ start s', fsAllocBlocks (disk total ⟨read,write⟩) count s = (start, s') ∧ Quiet s s' ∧
      Allocates total s.superblock.freeBlocks (s.volume.seemsFree read s.disk.reads) count start := by
  set db := s.superblock.totalBlocks - s.superblock.dataStartBlock with hdb
  refine fsAllocBlocks_marks s hf hc s.volume (fun j => read (s.disk.reads + j) = false) (fun _ => Iff.rfl)
    (Quiet.refl s) ?_
  have hscan := scanEntries_disk read write s hf (markBody db) (fun _ e used => .inr (markEntry db e used))
    (fun _ _ _ _ => rfl) (fun i used => Marks s.volume db (fun j => read (s.disk.reads + j) = false) i used)
    (fun _ _ => False) ?_ ?_ (fun _ => 0) (Marks.zero _ _ _)
  · obtain ⟨s',hsb,⟨_,_,b,_⟩ | ⟨used,he,hused,hd⟩⟩ := hscan
    · exact b.elim
    · exact ⟨used,s',he,⟨hsb,_,hd⟩,hused⟩
  · intro i used _ hused hr
    exact hused.skip (by simp [hr])
  · intro i used hi hused hr
    exact Or.inr ⟨_,rfl,hused.mark (hsmall i hi) hr⟩

theorem fsWriteBlocks_written (start : UInt32) (n i : ℕ) (src : List UInt8) (remaining : UInt32) (s : FsState Disk)
    (hf : Formatted total s.superblock) (hroom : 3 + start.toNat + i + n ≤ total.toNat) :
    ∃ s', fsWriteBlocks (disk total ⟨read,fun _ => false⟩) start n i src remaining s = (true, s') ∧
      s'.superblock = s.superblock ∧
      (∀ b, b ∈ s'.disk.written ↔ b ∈ s.disk.written ∨ 3 + start.toNat + i ≤ b ∧ b < 3 + start.toNat + i + n) ∧
      ∀ b, b < 3 + start.toNat + i ∨ 3 + start.toNat + i + n ≤ b → s'.disk.blocks b = s.disk.blocks b := by
  have hlt := total.toNat_lt
  induction n generalizing i src remaining s with
  | zero => exact ⟨s,rfl,rfl,fun b => ⟨Or.inl,fun h => h.resolve_right (by omega)⟩,fun _ _ => rfl⟩
  | succ n ih =>
    have habs := dataBlock_toNat (i := i) hf start (by omega)
    obtain ⟨s1,hsb1,⟨blk,src',remaining',hd1,he⟩ | ⟨hno,_⟩⟩ :=
      fsWriteBlocks_turn total ⟨read,fun _ => false⟩ start n i src remaining s
    swap
    · exact absurd ⟨by rw [UInt32.lt_iff_toNat_lt, habs]; omega,rfl⟩ hno
    rw [habs] at hd1
    obtain ⟨s2,he2,hsb2,hwritten,hsame⟩ := ih (i + 1) src' remaining' s1
      (by rw [hsb1]; exact hf) (by omega)
    have hmem : ∀ b, b ∈ s1.disk.written ↔ b = 3 + start.toNat + i ∨ b ∈ s.disk.written := by
      intro b
      rw [hd1]
      exact List.mem_cons
    refine ⟨s2,he.trans he2,hsb2.trans hsb1,fun b => ?_,fun b hb => ?_⟩
    · rw [hwritten, hmem, or_comm (a := b = _), or_assoc]
      exact or_congr_right (by omega)
    · rw [hsame b (by omega), hd1]
      exact Function.update_of_ne (by omega) _ _

end

/-- What a write leaves that has put its `n` blocks at `start`, whether or not it could
update its entry in slot `i`. -/
structure Stored (total : UInt32) (v : Volume) (s' : FsState Disk) (i start n : ℕ) : Prop where
  written : ∀ b, 3 ≤ b → (b ∈ s'.disk.written ↔ 3 + start ≤ b ∧ b < 3 + start + n)
  blocks : ∀ b, 3 ≤ b → b < 3 + start ∨ 3 + start + n ≤ b → s'.disk.blocks b = v.blocks b
  entry : ∀ j < 32, j ≠ i → s'.volume.entry j = v.entry j
  title : (s'.volume.entry i).title = (v.entry i).title
  formatted : Formatted total s'.superblock

section
variable {total : UInt32} {v : Volume} {s s' : FsState Disk} {i start n : ℕ}

theorem Stored.quiet (h : Stored total v s i start n) (hq : Quiet s s') : Stored total v s' i start n := by
  obtain ⟨m,hm⟩ := hq.disk
  refine ⟨?_,?_,?_,?_,?_⟩
  · rw [hm]
    exact h.written
  · rw [hm]
    exact h.blocks
  · rw [hq.volume]
    exact h.entry
  · rw [hq.volume]
    exact h.title
  · rw [hq.superblock]
    exact h.formatted

theorem Stored.same (h : Stored total v s i start n) (hb : s'.disk.blocks = s.disk.blocks)
    (hh : s'.disk.history = s.disk.history) (hsb : s'.superblock = s.superblock) : Stored total v s' i start n := by
  have hvol : s'.volume = s.volume := by rw [FsState.volume, hb, hsb]; rfl
  refine ⟨?_,?_,?_,?_,?_⟩
  · rw [Disk.written, hh]
    exact h.written
  · rw [hb]
    exact h.blocks
  · rw [hvol]
    exact h.entry
  · rw [hvol]
    exact h.title
  · rw [hsb]
    exact h.formatted

theorem Stored.of_data {blockBuf : Block} (hv : Sound total v) (hq : Quiet (mounted v blockBuf) s) (hi : i < 32)
    (hsb : s'.superblock = s.superblock)
    (hwr : ∀ b, b ∈ s'.disk.written ↔ b ∈ s.disk.written ∨ 3 + start + 0 ≤ b ∧ b < 3 + start + 0 + n)
    (hbl : ∀ b, b < 3 + start + 0 ∨ 3 + start + 0 + n ≤ b → s'.disk.blocks b = s.disk.blocks b) :
    Stored total v s' i start n := by
  obtain ⟨m,hm⟩ := hq.disk
  have hb : s.disk.blocks = v.blocks := congrArg Disk.blocks hm
  have hent : ∀ j < 32, s'.volume.entry j = v.entry j := by
    intro j hj
    exact congrArg (Block.entry · j) ((hbl _ (by omega)).trans (congrFun hb _))
  refine ⟨fun b _ => ?_,fun b _ hout => ?_,fun j hj _ => hent j hj,by rw [hent i hi],?_⟩
  · rw [hwr, hm]
    exact or_iff_right List.not_mem_nil
  · rw [hbl b hout, hb]
  · rw [hsb, hq.superblock]
    exact hv.formatted

theorem Stored.put_low (h : Stored total v s i start n) {d : Disk} {b : ℕ} {blk : Block} (hb : b < 3)
    (hd : s'.disk = d.put b blk) (hblocks : d.blocks = s.disk.blocks) (hh : d.history = s.disk.history)
    (hent : ∀ j < 32, j ≠ i → s'.volume.entry j = v.entry j) (ht : (s'.volume.entry i).title = (v.entry i).title)
    (hf : Formatted total s'.superblock) : Stored total v s' i start n := by
  refine ⟨fun x hx => ?_,fun x hx hout => ?_,hent,ht,hf⟩
  · rw [← h.written x hx, hd, Disk.written, Disk.written, ← hh]
    change x ∈ b :: _ ↔ _
    rw [List.mem_cons]
    exact or_iff_right (by omega)
  · rw [← h.blocks x hx hout, hd, ← hblocks]
    exact Function.update_of_ne (by omega) _ _

theorem Stored.putEntry (h : Stored total v s i start n) (hi : i < 32) {e : FsEntry} (ht : e.title = (v.entry i).title)
    (hsb : s'.superblock = s.superblock)
    (hd : s'.disk = (s.disk.after 1).put (1 + i / 16) ((s.disk.blocks (1 + i / 16)).setEntry i e)) :
    Stored total v s' i start n := by
  have hvol : s'.volume = s.volume.setEntry i e := by
    rw [FsState.volume, hd, hsb]
    rfl
  refine h.put_low (by omega) hd rfl rfl (fun j hj hne => ?_) ?_ (by rw [hsb]; exact h.formatted)
  · rw [hvol, Volume.entry_setEntry, if_neg hne.symm]
    exact h.entry j hj hne
  · rw [hvol, Volume.entry_setEntry, if_pos rfl]
    exact ht

theorem Stored.putFree {fail : ℕ → Bool} (h : Stored total v s i start n) (freeBlocks : UInt32) :
    Stored total v (fsFlushSuperblock (disk total ⟨fail,fun _ => false⟩)
      { s with superblock := { s.superblock with freeBlocks } }).2 i start n := by
  obtain ⟨hmagic,htotal,hdir,hdata,hthree⟩ := h.formatted
  have hpos : (0 : UInt32) < total := by
    rw [UInt32.lt_iff_toNat_lt]
    exact Nat.lt_of_lt_of_le (by decide) hthree
  rw [fsFlushSuperblock, writeBlock_put hpos rfl]
  refine h.put_low (by decide) rfl rfl rfl (fun j hj hne => ?_) ?_ ⟨hmagic,htotal,hdir,hdata,hthree⟩
  · exact (s.volume.flush_entry freeBlocks j).trans (h.entry j hj hne)
  · exact (congrArg FsEntry.title (s.volume.flush_entry freeBlocks i)).trans h.title

end

theorem writeAlloc_chosen {total : UInt32} {v : Volume} (hv : Sound total v) (fail : ℕ → Bool) {name : List UInt8}
    (s : FsState Disk) {i : ℕ} (hsb : s.superblock = v.superblock) (hvol : s.volume = v) (hreads : s.disk.reads = i + 1)
    (hi : i < 32) (hread : fail i = false) (hfile : (v.entry i).type = fsTypeFile) (ht : (v.entry i).title = cstr name)
    (n : UInt32) (hslot : ∀ {j start}, Chosen total v fail name n j start → j = i) :
    ∃ start s', (if n > 0 then fsAllocBlocks (disk total ⟨fail,fun _ => false⟩) n s else (0, s)) = (start, s') ∧
      Quiet s s' ∧
      (((n > 0 ∧ start = noSpace) ∧ ∀ j start, ¬Chosen total v fail name n j start) ∨
        (¬(n > 0 ∧ start = noSpace) ∧ Chosen total v fail name n i start.toNat)) := by
  by_cases hpos : n > 0
  · rw [if_pos hpos]
    have halloc := fsAllocBlocks_disk fail (fun _ => false) s (by rw [hsb]; exact hv.formatted)
      (by rw [hvol]; exact hv.smallEntries) (UInt32.ne_of_lt hpos).symm
    rw [hsb, hvol, hreads] at halloc
    obtain ⟨start,s',he,hq,⟨henough,hrun⟩ | ⟨hst,hno⟩⟩ := halloc
    · refine ⟨start,s',he,hq,Or.inr ⟨fun h => ?_,hi,hfile,ht,hread,henough,hrun⟩⟩
      have hfits := hrun.fits
      have hlim := extentLimit_le total
      rw [h.2, show noSpace.toNat = 2 ^ 32 - 1 from rfl] at hfits
      omega
    · refine ⟨start,s',he,hq,Or.inl ⟨⟨hpos,hst⟩,fun j b hch => ?_⟩⟩
      obtain rfl := hslot hch
      rcases hno with hfew | hno
      · exact absurd hch.enough (UInt32.not_le.mpr hfew)
      · exact hno b hch.run.fits hch.run.run
  · rw [if_neg hpos]
    obtain rfl : n = 0 := UInt32.le_zero_iff.mp (UInt32.not_lt.mp hpos)
    refine ⟨0,s,rfl,Quiet.refl s,Or.inr ⟨fun h => hpos h.1,hi,hfile,ht,hread,UInt32.zero_le,?_⟩⟩
    exact ⟨Nat.zero_le _,fun k hk => absurd hk (Nat.not_lt_zero k),fun b hb => absurd hb (Nat.not_lt_zero b)⟩

/-- What `fs_write_file` does when reads may fail: nothing, or the data loop runs over the
blocks chosen. -/
theorem fsWriteFile_chosen {total : UInt32} {v : Volume} (hv : Sound total v) (blockBuf : Block) (fail : ℕ → Bool)
    (name data : List UInt8) (size : UInt32) :
    ∃ code s', fsWriteFile (disk total ⟨fail,fun _ => false⟩) name data size (mounted v blockBuf) = (code, s') ∧
      ((Quiet (mounted v blockBuf) s' ∧ ∀ i start, ¬Chosen total v fail name (blocksFor size) i start) ∨
        ∃ i start, Chosen total v fail name (blocksFor size) i start ∧
          Stored total v s' i start (blocksFor size).toNat) := by
  unfold fsWriteFile
  obtain ⟨s1,hsb1,⟨i,hi,he,hd,hread,hl,ht⟩ | ⟨he,hd,hno⟩⟩ :=
    fsFindEntry_disk fail (fun _ => false) (mounted v blockBuf) hv.formatted name
  swap
  · refine ⟨-1,s1,by rw [he],Or.inl ⟨⟨hsb1,_,hd⟩,fun i start hch => ?_⟩⟩
    exact hno i hch.index ((congrArg fail (Nat.zero_add i)).trans hch.found) (live_of_file hch.file) hch.title
  rw [mounted_volume] at he hl ht
  rw [show (mounted v blockBuf).disk.reads + i = i from Nat.zero_add i] at hread
  rw [he]
  dsimp only
  have hq1 : Quiet (mounted v blockBuf) s1 := ⟨hsb1,_,hd⟩
  have hvol1 : s1.volume = v := hq1.volume
  have hreads : s1.disk.reads = i + 1 := by
    rw [hd]
    exact Nat.zero_add _
  -- names are distinct, so the lookup can only stop at the slot of the file
  have hslot : ∀ {j start}, Chosen total v fail name (blocksFor size) j start → j = i := by
    intro j start hch
    exact hv.dir.distinct j hch.index i hi (live_of_file hch.file) hl (hch.title.trans ht.symm)
  by_cases htype : (v.entry i).type ≠ fsTypeFile
  · rw [if_pos htype]
    refine ⟨-1,s1,rfl,Or.inl ⟨hq1,fun j start hch => htype ?_⟩⟩
    rw [← hslot hch]
    exact hch.file
  rw [if_neg htype]
  have hfile : (v.entry i).type = fsTypeFile := not_not.mp htype
  have hf1 : Formatted total s1.superblock := by rw [hsb1]; exact hv.formatted
  obtain ⟨start,s2,he2,hq2,⟨hbad,hno⟩ | ⟨hgood,hch⟩⟩ := writeAlloc_chosen hv fail s1 hsb1 hvol1 hreads hi hread hfile ht
    (blocksFor size) hslot
  · rw [he2]
    dsimp only
    rw [if_pos hbad]
    exact ⟨-1,s2,rfl,Or.inl ⟨hq1.trans hq2,hno⟩⟩
  rw [he2]
  dsimp only
  rw [if_neg hgood]
  have hq := hq1.trans hq2
  have hf2 : Formatted total s2.superblock := by rw [hq.superblock]; exact hv.formatted
  have hlim := extentLimit_le total
  have hfits := hch.run.fits
  have htot := hv.formatted.three_le
  obtain ⟨s3,he3,hsb3,hwr3,hbl3⟩ := fsWriteBlocks_written fail start (blocksFor size).toNat 0 data size s2 hf2
    (by omega)
  rw [he3]
  dsimp only
  have hst3 := Stored.of_data hv hq hch.index hsb3 hwr3 hbl3
  have hf3 := hst3.formatted
  obtain ⟨ok,s4,he4,hsb4,_,hput,hkeep⟩ := fsWriteEntry_disk fail (fun _ => false) s3 hf3 hi
    { v.entry i with startBlock := start.toUInt16, size }
  rw [he4]
  cases ok with
  | false =>
    obtain ⟨hb4,hh4⟩ := hkeep rfl
    exact ⟨-1,s4,rfl,Or.inr ⟨i,start.toNat,hch,hst3.same hb4 hh4 hsb4⟩⟩
  | true =>
    have hst4 := hst3.putEntry hi (e := { v.entry i with startBlock := start.toUInt16, size }) rfl hsb4 (hput rfl)
    obtain ⟨used,s5,he5,hq5⟩ := fsCountUsed_quiet fail (fun _ => false) s4 hst4.formatted
    dsimp only
    rw [he5]
    dsimp only
    have hst5 := hst4.quiet hq5
    exact ⟨0,_,rfl,Or.inr ⟨i,start.toNat,hch,hst5.putFree _⟩⟩

section
variable {σ : Type} {dev : BlockDevice σ} (r : Readable dev) {s : FsState σ} {v : Volume} {name : List UInt8}

/-- A read depends on the entry with its name and on the blocks of that entry. -/
theorem Readable.fsReadFile_entry (hv : r.volume s = v) (hf : Formatted dev.totalBlocks s.superblock) {j : ℕ} {e : FsEntry}
    (hj : j < 32) (he : v.entry j = e) (hl : e.live) (ht : e.title = cstr name)
    (hunique : ∀ i < 32, (v.entry i).live → (v.entry i).title = cstr name → i = j)
    (hsmall : e.size.toNat < 2 ^ 24)
    (hext : ∀ k < e.blockCount, 3 + e.startBlock.toNat + k < dev.totalBlocks.toNat) (maxSize : UInt32) :
    (fsReadFile dev name maxSize s).1 =
      if e.type = fsTypeFile then .full ((v.contents e).take maxSize.toNat) else .failed := by
  subst hv he
  obtain ⟨s1,hv1,⟨i,hi,he,hli,hti⟩ | ⟨he,hno⟩⟩ := r.fsFindEntry_spec s hf name
  swap
  · exact absurd ht (hno j hj hl)
  obtain rfl := hunique i hi hli hti
  by_cases hfile : ((r.volume s).entry i).type = fsTypeFile
  · obtain ⟨s2,_,hread⟩ := r.fsReadFile_found s hf he hv1 hfile hsmall hext maxSize
    rw [hread, if_pos hfile]
  · rw [fsReadFile, he, if_neg hfile]
    exact congrArg Prod.fst (if_pos hfile)

theorem Readable.fsReadFile_absent (hv : r.volume s = v) (hf : Formatted dev.totalBlocks s.superblock)
    (hno : ∀ i < 32, (v.entry i).live → (v.entry i).title ≠ cstr name) (maxSize : UInt32) :
    (fsReadFile dev name maxSize s).1 = .failed := by
  subst hv
  obtain ⟨s1,_,⟨i,hi,_,hl,ht⟩ | ⟨he,_⟩⟩ := r.fsFindEntry_spec s hf name
  · exact absurd ht (hno i hi hl)
  · rw [fsReadFile, he]

end

/-- No block of another file has been written, and once reads succeed again every other
name reads as before. -/
structure SparesOthers (total : UInt32) (v : Volume) (blockBuf : Block) (name : List UInt8) (s' : FsState Disk) :
    Prop where
  blocks : ∀ b ∈ s'.disk.written, ∀ j < 32, (v.entry j).live → (v.entry j).title ≠ cstr name →
    ∀ x, (v.entry j).covers x → b ≠ 3 + x
  files : ∀ other, cstr other ≠ cstr name → ∀ maxSize, (fsReadFile (disk total .none) other maxSize s').1 =
    (fsReadFile (disk total .none) other maxSize (mounted v blockBuf)).1

section
variable {total : UInt32} {v : Volume} {blockBuf : Block} {name other : List UInt8} {s' : FsState Disk} {i start n : ℕ}

theorem fsReadFile_congr (hv : Sound total v) (hf : Formatted total s'.superblock)
    (hent : ∀ j < 32, (v.entry j).title = cstr other ∨ (s'.volume.entry j).title = cstr other →
      s'.volume.entry j = v.entry j)
    (hblocks : ∀ j < 32, (v.entry j).title = cstr other → ∀ x, (v.entry j).covers x →
      s'.disk.blocks (3 + x) = v.blocks (3 + x)) (maxSize : UInt32) :
    (fsReadFile (disk total .none) other maxSize s').1 =
      (fsReadFile (disk total .none) other maxSize (mounted v blockBuf)).1 := by
  by_cases hex : ∃ j < 32, (v.entry j).live ∧ (v.entry j).title = cstr other
  · obtain ⟨j,hj,hl,ht⟩ := hex
    have hunique : ∀ k < 32, (v.entry k).live → (v.entry k).title = cstr other → k = j :=
      fun k hk hlk htk => hv.dir.distinct k hk j hj hlk hl (htk.trans ht.symm)
    have hkeep : s'.volume.contents (v.entry j) = v.contents (v.entry j) := by
      refine congrArg (List.take _) (Volume.data_congr fun b hb hlt => ?_)
      obtain ⟨x,rfl⟩ := Nat.exists_eq_add_of_le (show 3 ≤ b by omega)
      exact hblocks j hj ht x ⟨by omega,by omega⟩
    have hthen := (diskReliable total).fsReadFile_entry (s := mounted v blockBuf) (v := v) rfl hv.formatted hj rfl hl ht
      hunique (hv.dir.small j hj) (fun k hk => hv.extent_lt hj hk) maxSize
    have hnow := (diskReliable total).fsReadFile_entry (s := s') (v := s'.volume) rfl hf hj (hent j hj (Or.inl ht)) hl ht
      (fun k hk hlk htk => ?_) (hv.dir.small j hj) (fun k hk => hv.extent_lt hj hk) maxSize
    · rw [hnow, hthen, hkeep]
    · have hk' := hent k hk (Or.inr htk)
      exact hunique k hk (hk' ▸ hlk) (hk' ▸ htk)
  · push Not at hex
    rw [(diskReliable total).fsReadFile_absent (s := s') (v := s'.volume) rfl hf fun k hk hlk htk => ?_,
      (diskReliable total).fsReadFile_absent (s := mounted v blockBuf) (v := v) rfl hv.formatted hex]
    have hk' := hent k hk (Or.inr htk)
    exact hex k hk (hk' ▸ hlk) (hk' ▸ htk)

theorem Quiet.spares (hv : Sound total v) (h : Quiet (mounted v blockBuf) s') : SparesOthers total v blockBuf name s' := by
  obtain ⟨m,hm⟩ := h.disk
  refine ⟨?_,fun other _ maxSize => fsReadFile_congr hv ?_ (fun j _ _ => ?_) (fun j _ _ x _ => ?_) maxSize⟩
  · rw [hm]
    exact fun b hb => absurd hb List.not_mem_nil
  · rw [h.superblock]
    exact hv.formatted
  · rw [h.volume]
    rfl
  · rw [hm]
    rfl

theorem Stored.spares (hv : Sound total v) (h : Stored total v s' i start n) (hti : (v.entry i).title = cstr name)
    (hfree : ∀ j < 32, j ≠ i → ∀ k < n, ¬(v.entry j).covers (start + k)) : SparesOthers total v blockBuf name s' := by
  have hout : ∀ j < 32, (v.entry j).title ≠ cstr name → ∀ x, (v.entry j).covers x → x < start ∨ start + n ≤ x := by
    intro j hj htj x hcov
    by_contra hin
    refine hfree j hj (fun hji => htj (by rw [hji, hti])) (x - start) (by omega) ?_
    rw [Nat.add_sub_cancel' (by omega)]
    exact hcov
  refine ⟨fun b hb j hj _ htj x hcov hbx => ?_,fun other hother maxSize => ?_⟩
  · have hrange := (h.written b (by omega)).mp hb
    have hx := hout j hj htj x hcov
    omega
  · refine fsReadFile_congr hv h.formatted (fun j hj ht => h.entry j hj ?_) (fun j hj ht x hcov => ?_) maxSize
    · -- slot `i` keeps its name, so it is not the slot of the other file
      rintro rfl
      rw [h.title, or_self, hti] at ht
      exact hother ht.symm
    · have hx := hout j hj (by rw [ht]; exact hother) x hcov
      exact h.blocks _ (by omega) (by omega)

end

/-- A write spares the other files exactly when none of them has a block in the first run
that the readable entries leave free. -/
theorem fsWriteFile_spares_iff {total : UInt32} {v : Volume} (hv : Sound total v) (blockBuf : Block) (fail : ℕ → Bool)
    (name data : List UInt8) (size : UInt32) :
    SparesOthers total v blockBuf name
        (fsWriteFile (disk total ⟨fail,fun _ => false⟩) name data size (mounted v blockBuf)).2 ↔
      ∀ i start, Chosen total v fail name (blocksFor size) i start → ∀ j < 32, j ≠ i →
        ∀ k < (blocksFor size).toNat, ¬(v.entry j).covers (start + k) := by
  obtain ⟨code,s',he,⟨hq,hno⟩ | ⟨i,start,hch,hst⟩⟩ := fsWriteFile_chosen hv blockBuf fail name data size
  · rw [he]
    exact ⟨fun _ i start hch => absurd hch (hno i start),fun _ => hq.spares hv⟩
  rw [he]
  refine ⟨fun hsp i' start' hch' j hj hne k hk hcov => ?_,fun hcond => hst.spares hv hch.title (hcond i start hch)⟩
  obtain ⟨rfl,rfl⟩ := hch'.unique hv hch
  have hlive : (v.entry j).live := live_of_file (file_of_covers hcov)
  have htitle : (v.entry j).title ≠ cstr name := by
    intro htj
    exact hne (hv.dir.distinct j hj i' hch.index hlive (live_of_file hch.file) (htj.trans hch.title.symm))
  have hin : 3 + (start' + k) ∈ s'.disk.written := (hst.written _ (by omega)).mpr ⟨by omega,by omega⟩
  exact hsp.blocks _ hin j hj hlive htitle _ hcov rfl

/-- What the calls make of a blank disk. -/
def blankRun (total : UInt32) (calls : List Call) : FsState Disk :=
  (Machine.run (exec (disk total .none)) calls
    (fsInit (disk total .none) ⟨Disk.new fun _ => Block.zero,freshSuperblock 0,Block.zero⟩).2).2

theorem blankRun_sound {total : UInt32} (h3 : 3 ≤ total.toNat) (calls : List Call) :
    Sound total (blankRun total calls).volume := by
  obtain ⟨s,hs,hc,_⟩ := (diskReliable total).fsInit_unformatted
    ⟨Disk.new fun _ => Block.zero,freshSuperblock 0,Block.zero⟩ h3 (blank_unformatted total)
  rw [blankRun, hs]
  exact ((diskReliable total).run_consistent calls hc).sound

/-- A disk of eight blocks with a file `a` of one block and an empty file `b`. -/
def twoFiles : FsState Disk :=
  blankRun 8 [.create [0x61] fsTypeFile, .write [0x61] [7] (by decide), .create [0x62] fsTypeFile]

theorem twoFiles_sound : Sound 8 twoFiles.volume := blankRun_sound (by decide) _

/-- One byte for `b`, with the read of the entry of `b` in the allocator's scan failing. -/
theorem fsWriteFile_spares_own_entry :
    SparesOthers 8 twoFiles.volume Block.zero [0x62]
        (fsWriteFile (disk 8 ⟨fun k => k == 3,fun _ => false⟩) [0x62] [9] 1 (mounted twoFiles.volume Block.zero)).2 ↔
      ∀ i start, Chosen 8 twoFiles.volume (fun k => k == 3) [0x62] (blocksFor 1) i start → ∀ j < 32, j ≠ i →
        ∀ k < (blocksFor 1).toNat, ¬(twoFiles.volume.entry j).covers (start + k) :=
  fsWriteFile_spares_iff twoFiles_sound Block.zero (fun k => k == 3) [0x62] [9] 1

/-- When the read of the entry of `a` fails there instead, the byte for `b` goes into the
block of `a`. -/
theorem fsWriteFile_overwrites_unread :
    Sound 8 twoFiles.volume ∧
      ¬SparesOthers 8 twoFiles.volume Block.zero [0x62]
        (fsWriteFile (disk 8 ⟨fun k => k == 2,fun _ => false⟩) [0x62] [9] 1 (mounted twoFiles.volume Block.zero)).2 := by
  refine ⟨twoFiles_sound,fun h => ?_⟩
  have hread := h.files [0x61] (by decide) 512
  revert hread
  decide +kernel

end ApPa.Fs

import ApPa.Fs.Consistency
import Mathlib.Algebra.BigOperators.Group.Finset.Piecewise

/-! # Public SimpleFS operations on consistent volumes

Every operation leaves a consistent volume, and its effect is one of the few shapes
stated here: a new entry in a free slot, a file moved to fresh blocks, or entries
cleared together with a flush of the free count.
-/
namespace ApPa.Fs
open Klibc

variable {σ : Type} {dev : BlockDevice σ} (r : Reliable dev)

theorem newEntry_title {name : List UInt8} (type : UInt8) (h : (cstr name).length ≤ 23) :
    (newEntry name type).title = cstr name := cstr_strncpyBytes name 23 [0] h rfl

theorem newEntry_blockCount (name : List UInt8) (type : UInt8) : (newEntry name type).blockCount = 0 := by
  have hz : (newEntry name type).size = 0 := rfl
  unfold FsEntry.blockCount
  rw [hz, blocksFor_zero]
  split <;> rfl

theorem live_of_file {e : FsEntry} (h : e.type = fsTypeFile) : e.live := by
  unfold FsEntry.live
  rw [h]
  decide

theorem file_of_covers {e : FsEntry} {b : ℕ} (h : e.covers b) : e.type = fsTypeFile := by
  by_contra hne
  have hlt := h.2
  rw [FsEntry.blockCount, if_neg hne] at hlt
  exact absurd h.1 (Nat.not_le.mpr hlt)

/-- When `fs_create` accepts its arguments, apart from the directory being full. -/
structure Creatable (v : Volume) (name : List UInt8) (type : UInt8) : Prop where
  length_pos : 1 ≤ (cstr name).length
  length_le : (cstr name).length ≤ 23
  type_ok : type = fsTypeFile ∨ type = fsTypeDir
  fresh : ∀ i < 32, (v.entry i).live → (v.entry i).title ≠ cstr name

theorem Creatable.fits {limit : ℕ} {v : Volume} {name : List UInt8} {type : UInt8}
    (h : Creatable v name type) (i : ℕ) :
    DirOk.Fits limit v.entry i (newEntry name type) where
  typed := Or.inr h.type_ok
  small := show (0 : UInt32).toNat < 2 ^ 24 by decide
  named _ := by
    rw [newEntry_title type h.length_le]
    exact ⟨h.length_pos,h.length_le⟩
  distinct j hj _ _ hl := by
    rw [newEntry_title type h.length_le]
    exact h.fresh j hj hl
  dirEmpty _ := rfl
  inRegion b hc := absurd hc (FsEntry.not_covers_of_blockCount (newEntry_blockCount name type) b)
  disjoint _ _ _ b hc := absurd hc (FsEntry.not_covers_of_blockCount (newEntry_blockCount name type) b)

theorem blockCount_of_free {e : FsEntry} (h : e.type = fsTypeFree) : e.blockCount = 0 := by
  unfold FsEntry.blockCount
  rw [h]
  rfl

theorem DirOk.create {limit : ℕ} {v : Volume} (hd : DirOk limit v.entry) {name : List UInt8} {type : UInt8}
    (hcr : Creatable v name type) (i : ℕ) : DirOk limit (v.setEntry i (newEntry name type)).entry :=
  (hd.set (hcr.fits i)).congr (fun j _ => v.entry_setEntry i j _)

theorem Consistent.create {total : UInt32} {v : Volume} (hc : Consistent total v) {name : List UInt8}
    {type : UInt8} (hcr : Creatable v name type) {i : ℕ} (hi : i < 32)
    (hfree : (v.entry i).type = fsTypeFree) : Consistent total (v.setEntry i (newEntry name type)) where
  formatted := hc.formatted
  block0 := by rw [Volume.setEntry_blocks_zero]; exact hc.block0
  dir := hc.dir.create hcr i
  free := by
    have h := sum_blockCount_set v.entry hi (newEntry name type)
    rw [newEntry_blockCount, blockCount_of_free hfree] at h
    simp only [Volume.entry_setEntry]
    have hf := hc.free
    rw [Volume.setEntry_superblock]
    omega

namespace Reliable

/-- `fs_create` either stores the new entry in a free slot or changes nothing; it
refuses exactly bad names, bad types, live names and a full directory. -/
theorem fsCreate_spec (s : FsState σ) (hc : Consistent dev.totalBlocks (r.volume s))
    (name : List UInt8) (type : UInt8) :
    ∃ s', (∃ i < 32, Creatable (r.volume s) name type ∧ ((r.volume s).entry i).type = fsTypeFree ∧
          fsCreate dev name type s = (0, s') ∧
          r.volume s' = (r.volume s).setEntry i (newEntry name type)) ∨
      (fsCreate dev name type s = (-1, s') ∧ r.volume s' = r.volume s ∧
        ¬(Creatable (r.volume s) name type ∧ ∃ i < 32, ((r.volume s).entry i).type = fsTypeFree)) := by
  have hf : Formatted dev.totalBlocks s.superblock := hc.formatted
  unfold fsCreate
  by_cases hlen : strlen name = 0 ∨ strlen name > fsNameMax
  · rw [if_pos hlen]
    refine ⟨s,Or.inr ⟨rfl,rfl,?_⟩⟩
    rintro ⟨hcr,_⟩
    have h1 := hcr.length_pos
    have h2 := hcr.length_le
    rw [strlen_eq, fsNameMax] at hlen
    omega
  rw [if_neg hlen]
  by_cases htype : type ≠ fsTypeFile ∧ type ≠ fsTypeDir
  · rw [if_pos htype]
    refine ⟨s,Or.inr ⟨rfl,rfl,?_⟩⟩
    rintro ⟨hcr,_⟩
    rcases hcr.type_ok with h | h
    · exact htype.1 h
    · exact htype.2 h
  rw [if_neg htype]
  obtain ⟨s1,hv1,⟨i,hi,he,hl,ht⟩ | ⟨he,hno⟩⟩ := r.fsFindEntry_spec s hf name
  · rw [he]
    refine ⟨s1,Or.inr ⟨rfl,hv1,?_⟩⟩
    rintro ⟨hcr,_⟩
    exact hcr.fresh i hi hl ht
  rw [he]
  have hsb1 : s1.superblock = s.superblock := congrArg Volume.superblock hv1
  have hcr : Creatable (r.volume s) name type := by
    rw [strlen_eq, fsNameMax] at hlen
    refine ⟨by omega,by omega,?_,hno⟩
    by_contra hcon
    exact htype (not_or.mp hcon)
  obtain ⟨s2,hv2,⟨i,hi,he2,hfree⟩ | ⟨he2,hall⟩⟩ := r.fsFindFreeSlot_spec s1 (by rw [hsb1]; exact hf)
  · simp only [he2]
    rw [hv1] at hfree
    rw [if_neg (by simp only [fsMaxEntries, fsDirBlocks, fsEntriesPerBlock]; omega)]
    have hsb2 : s2.superblock = s.superblock := (congrArg Volume.superblock hv2).trans hsb1
    obtain ⟨s3,hw,hv3⟩ := r.fsWriteEntry_spec s2 (by rw [hsb2]; exact hf) hi (newEntry name type)
    refine ⟨s3,Or.inl ⟨i,hi,hcr,hfree,?_,?_⟩⟩
    · rw [hw]
    · rw [hv3, hv2, hv1]
  · simp only [he2]
    rw [hv1] at hall
    refine ⟨s2,Or.inr ⟨rfl,hv2.trans hv1,?_⟩⟩
    rintro ⟨_,i,hi,hfree⟩
    exact hall i hi hfree

end Reliable

/-- The volume in which slot `i` holds a file stored from relative block `start` on,
before the free count is flushed. -/
def Volume.storeFile (v : Volume) (i : ℕ) (start : UInt32) (data : List UInt8) (size : UInt32) : Volume :=
  (v.setRange (3 + start.toNat) (blocksFor size).toNat
      (fun k => Block.ofBytes ((data.drop (512 * k)).take 512))).setEntry i
    { v.entry i with startBlock := start.toUInt16, size }

/-- Room for `n` blocks from `start` on that no entry refers to. -/
structure FreeRun (total : UInt32) (v : Volume) (start n : ℕ) : Prop where
  room : start + n ≤ extentLimit total
  unused : ∀ k < n, ∀ i < 32, ¬(v.entry i).covers (start + k)

theorem Volume.setRange_entry (v : Volume) {base n : ℕ} (f : ℕ → Block) (hb : 3 ≤ base) {j : ℕ}
    (hj : j < 32) : (v.setRange base n f).entry j = v.entry j := by
  simp only [Volume.entry, Volume.setRange]
  rw [if_neg (by omega)]

theorem Volume.storeFile_entry (v : Volume) (i : ℕ) (start : UInt32) (data : List UInt8) (size : UInt32)
    {j : ℕ} (hj : j < 32) : (v.storeFile i start data size).entry j =
      if i = j then { v.entry i with startBlock := start.toUInt16, size } else v.entry j := by
  rw [Volume.storeFile, Volume.entry_setEntry, Volume.setRange_entry _ _ (by omega) hj]

theorem toUInt16_toNat {start : UInt32} (h : start.toNat < 2 ^ 16) :
    start.toUInt16.toNat = start.toNat := by
  rw [UInt32.toNat_toUInt16, Nat.mod_eq_of_lt h]

theorem FreeRun.start_toUInt16 {total : UInt32} {v : Volume} {start : UInt32} {n : ℕ}
    (h : FreeRun total v start.toNat n) : start.toUInt16.toNat = start.toNat := by
  have hroom := h.room
  have hl := extentLimit_le total
  exact toUInt16_toNat (by omega)

theorem DirOk.storeFile {limit : ℕ} {total : UInt32} {v : Volume} (hd : DirOk limit v.entry)
    (hlim : extentLimit total ≤ limit) {i : ℕ}
    (hi : i < 32) (hfile : (v.entry i).type = fsTypeFile) {start size : UInt32} (data : List UInt8)
    (hsize : size.toNat < 2 ^ 24) (hrun : FreeRun total v start.toNat (blocksFor size).toNat) :
    DirOk limit (v.storeFile i start data size).entry := by
  have hst := hrun.start_toUInt16
  have hlive := live_of_file hfile
  have hcov : ∀ b, ({ v.entry i with startBlock := start.toUInt16, size } : FsEntry).covers b →
      start.toNat ≤ b ∧ b < start.toNat + (blocksFor size).toNat := by
    intro b hb
    simpa only [FsEntry.covers, FsEntry.blockCount, hfile, if_true, hst] using hb
  refine (hd.set (i := i) (e := { v.entry i with startBlock := start.toUInt16, size }) ?_).congr
    (fun j hj => v.storeFile_entry i start data size hj)
  refine ⟨hd.typed i hi,hsize,hd.named i hi,?_,?_,?_,?_⟩
  · intro j hj hji hl hlj ht
    exact hji (hd.distinct j hj i hi hlj hlive ht)
  · intro hdir
    have hdir' : (v.entry i).type = fsTypeDir := hdir
    rw [hfile] at hdir'
    cases hdir'
  · intro b hb
    have h := hcov b hb
    have hroom := hrun.room
    omega
  · intro j hj _ b hb hcj
    have h := hcov b hb
    have hu := hrun.unused (b - start.toNat) (by omega) j hj
    rw [Nat.add_sub_cancel' h.1] at hu
    exact hu hcj

theorem FreeRun.of_first {total : UInt32} {v : Volume} {start n : ℕ}
    (h : RunSearch.FirstRun v.unused n (extentLimit total) start) : FreeRun total v start n := ⟨h.fits,h.run⟩

/-- Why `fs_alloc_blocks` finds no place for `n` blocks. -/
def NoRoom (total : UInt32) (v : Volume) (n : UInt32) : Prop :=
  v.superblock.freeBlocks < n ∨ ∀ b, b + n.toNat ≤ extentLimit total → ¬∀ k < n.toNat, v.unused (b + k)

theorem Readable.writeAlloc_spec (r : Readable dev) (s : FsState σ) (hf : Formatted dev.totalBlocks s.superblock)
    (hsmall : SmallEntries (r.volume s)) (n : UInt32) :
    ∃ start s', (if n > 0 then fsAllocBlocks dev n s else (0, s)) = (start, s') ∧
      r.volume s' = r.volume s ∧
      (((n > 0 ∧ start = noSpace) ∧ NoRoom dev.totalBlocks (r.volume s) n) ∨
        (¬(n > 0 ∧ start = noSpace) ∧
          RunSearch.FirstRun (r.volume s).unused n.toNat (extentLimit dev.totalBlocks) start.toNat)) := by
  by_cases hn : n > 0
  · rw [if_pos hn]
    have hne : n ≠ 0 := by
      rintro rfl
      exact absurd hn (by decide)
    obtain ⟨start,s',he,hv,hres⟩ := r.fsAllocBlocks_spec s hf hsmall hne
    refine ⟨start,s',he,hv,?_⟩
    rcases hres with ⟨_,hfirst⟩ | ⟨h,hno⟩
    · refine Or.inr ⟨?_,hfirst⟩
      rintro ⟨_,rfl⟩
      have h : (4294967295 : ℕ) + n.toNat ≤ extentLimit dev.totalBlocks := hfirst.fits
      have := extentLimit_le dev.totalBlocks
      omega
    · exact Or.inl ⟨⟨hn,h⟩,hno⟩
  · rw [if_neg hn]
    have hz : n.toNat = 0 := by
      rw [gt_iff_lt, UInt32.lt_iff_toNat_lt] at hn
      simpa using hn
    refine ⟨0,s,rfl,rfl,Or.inr ⟨fun h => hn h.1,?_,?_,?_⟩⟩
    · rw [hz]
      exact Nat.zero_le _
    · intro k hk
      omega
    · intro b hb
      exact absurd hb (Nat.not_lt_zero b)

/-- The free count that a write stores and the blocks it counted make up the data region. -/
theorem Formatted.recount {total : UInt32} {sb : Superblock} (hf : Formatted total sb) {used : UInt32}
    (hle : used.toNat ≤ total.toNat - 3) :
    (if sb.totalBlocks - sb.dataStartBlock > used then sb.totalBlocks - sb.dataStartBlock - used else 0).toNat +
      used.toNat = total.toNat - 3 := by
  have hsub := hf.sub_toNat
  by_cases hgt : sb.totalBlocks - sb.dataStartBlock > used
  · rw [if_pos hgt, UInt32.toNat_sub_of_le _ _ (UInt32.le_of_lt hgt), hsub]
    exact Nat.sub_add_cancel hle
  · rw [if_neg hgt]
    rw [gt_iff_lt, UInt32.lt_iff_toNat_lt, hsub] at hgt
    change 0 + used.toNat = _
    omega

namespace Reliable

/-- A failed `fs_write_file` changes nothing; a successful one stores the data in the first
run of blocks no entry refers to, redirects the entry and recomputes the free count. -/
theorem fsWriteFile_spec (s : FsState σ) (hc : Consistent dev.totalBlocks (r.volume s))
    (name data : List UInt8) (size : UInt32) (hlen : size.toNat = data.length) (hsize : size.toNat < 2 ^ 24) :
    ∃ s', (fsWriteFile dev name data size s = (-1, s') ∧ r.volume s' = r.volume s ∧
        ((∀ i < 32, ((r.volume s).entry i).type = fsTypeFile → ((r.volume s).entry i).title ≠ cstr name) ∨
          NoRoom dev.totalBlocks (r.volume s) (blocksFor size))) ∨
      (∃ i < 32, ∃ start fb, ((r.volume s).entry i).type = fsTypeFile ∧
        ((r.volume s).entry i).title = cstr name ∧
        RunSearch.FirstRun (r.volume s).unused (blocksFor size).toNat (extentLimit dev.totalBlocks) start.toNat ∧
        fsWriteFile dev name data size s = (0, s') ∧
        r.volume s' = ((r.volume s).storeFile i start data size).flush fb ∧
        Consistent dev.totalBlocks (r.volume s')) := by
  set v := r.volume s with hv
  have hf : Formatted dev.totalBlocks s.superblock := hc.formatted
  unfold fsWriteFile
  obtain ⟨s1,hv1,⟨i,hi,he,hl,ht⟩ | ⟨he,hno⟩⟩ := r.fsFindEntry_spec s hf name
  swap
  · rw [he]
    exact ⟨s1,Or.inl ⟨rfl,hv1,Or.inl fun i hi hfile => hno i hi (live_of_file hfile)⟩⟩
  rw [he]
  dsimp only
  by_cases htype : (v.entry i).type ≠ fsTypeFile
  · rw [if_pos htype]
    refine ⟨s1,Or.inl ⟨rfl,hv1,Or.inl fun j hj hfile hname => htype ?_⟩⟩
    rw [← hc.dir.distinct j hj i hi (live_of_file hfile) hl (hname.trans ht.symm)]
    exact hfile
  rw [if_neg htype]
  have hfile : (v.entry i).type = fsTypeFile := not_not.mp htype
  have hsb1 : s1.superblock = s.superblock := congrArg Volume.superblock hv1
  obtain ⟨start,s2,he2,hv2,⟨hsp,hno⟩ | ⟨hok,hfirst⟩⟩ := r.writeAlloc_spec s1 (by rw [hsb1]; exact hf)
    (by rw [hv1]; exact hc.smallEntries) (blocksFor size)
  · rw [he2]
    dsimp only
    rw [if_pos hsp]
    rw [hv1] at hno
    exact ⟨s2,Or.inl ⟨rfl,hv2.trans hv1,Or.inr hno⟩⟩
  rw [he2]
  dsimp only
  rw [if_neg hok]
  rw [hv1] at hv2 hfirst
  have hrun := FreeRun.of_first hfirst
  have hsb2 : s2.superblock = s.superblock := congrArg Volume.superblock hv2
  have hlim := extentLimit_le dev.totalBlocks
  have h3 := hf.three_le
  have hroom := hrun.room
  obtain ⟨s3,he3,hv3⟩ := r.fsWriteBlocks_spec start (blocksFor size).toNat data size s2 (by rw [hsb2]; exact hf) hlen
    (by rw [blocksFor_toNat _ hsize, hlen]) (by omega)
  rw [he3]
  dsimp only
  rw [hv2] at hv3
  have hsb3 : s3.superblock = s.superblock := congrArg Volume.superblock hv3
  obtain ⟨s4,he4,hv4⟩ := r.fsWriteEntry_spec s3 (by rw [hsb3]; exact hf) hi
    { v.entry i with startBlock := start.toUInt16, size }
  rw [he4]
  dsimp only
  have hv4' : r.volume s4 = v.storeFile i start data size := by rw [hv4, hv3]; rfl
  have hsb4 : s4.superblock = s.superblock := congrArg Volume.superblock hv4'
  have hdir := hc.dir.storeFile le_rfl hi hfile data hsize hrun
  obtain ⟨total,s5,he5,hv5,htot⟩ := r.fsCountUsed_spec s4 (by rw [hsb4]; exact hf)
    (by rw [hv4']; exact fun j hj => ⟨hdir.typed j hj,hdir.small j hj⟩)
  rw [he5]
  dsimp only
  have hsb5 : s5.superblock = s.superblock := (congrArg Volume.superblock hv5).trans hsb4
  rw [hv4'] at htot
  have hsum := hdir.sum_blockCount_le
  have hf5 : Formatted dev.totalBlocks s5.superblock := by rw [hsb5]; exact hf
  have hfb := hf5.recount (htot.trans_le (hsum.trans hlim.2))
  obtain ⟨ok,s6,he6,hv6⟩ := r.flush_spec s5 hf5 _
  rw [he6]
  rw [hv5, hv4'] at hv6
  refine ⟨s6,Or.inr ⟨i,hi,start,_,hfile,ht,hfirst,rfl,hv6,?_⟩⟩
  rw [hv6]
  exact Consistent.of_flush hf hdir (by rw [← htot]; exact hfb)

end Reliable

/-- The slots that deleting the entry in slot `i` clears. -/
def deletedAt (v : Volume) (name : List UInt8) (i j : ℕ) : Prop :=
  j = i ∨ (v.entry i).type = fsTypeDir ∧ childAt v name j
instance (v : Volume) (name : List UInt8) (i : ℕ) : DecidablePred (deletedAt v name i) :=
  fun _ => inferInstanceAs (Decidable (_ ∨ _ ∧ _))

theorem blockCount_of_dir {e : FsEntry} (h : e.type = fsTypeDir) : e.blockCount = 0 := by
  unfold FsEntry.blockCount
  rw [h]
  rfl

theorem sum_deletedAt_of_dir {v : Volume} (name : List UInt8) {i : ℕ} (hd : (v.entry i).type = fsTypeDir) :
    (∑ j ∈ Finset.range 32, if deletedAt v name i j then (v.entry j).blockCount else 0) =
      freedBlocks v name 32 := by
  apply Finset.sum_congr rfl
  intro j _
  by_cases hc : childAt v name j
  · rw [if_pos (show deletedAt v name i j from Or.inr ⟨hd,hc⟩), if_pos hc]
  · rw [if_neg hc]
    split
    · rename_i hdel
      rcases hdel with rfl | hdel
      · exact blockCount_of_dir hd
      · exact absurd hdel.2 hc
    · rfl

theorem sum_deletedAt_of_not_dir {v : Volume} (name : List UInt8) {i : ℕ} (hi : i < 32)
    (hd : (v.entry i).type ≠ fsTypeDir) :
    (∑ j ∈ Finset.range 32, if deletedAt v name i j then (v.entry j).blockCount else 0) =
      (v.entry i).blockCount := by
  have hiff : ∀ j, deletedAt v name i j ↔ j = i := fun j => or_iff_left (fun h => hd h.1)
  simp only [hiff]
  rw [Finset.sum_ite_eq' (Finset.range 32) i (fun j => (v.entry j).blockCount),
    if_pos (Finset.mem_range.mpr hi)]

theorem Consistent.clear {total : UInt32} {v w : Volume} (hc : Consistent total v) {p : ℕ → Prop}
    [DecidablePred p] (hcl : Cleared v w p) {freed : UInt32}
    (hfreed : freed.toNat = ∑ j ∈ Finset.range 32, if p j then (v.entry j).blockCount else 0) :
    Consistent total (w.flush (v.superblock.freeBlocks + freed)) := by
  have hsum := sum_blockCount_clear v.entry p 32
  have hfree := hc.free
  have hlt := total.toNat_lt
  refine Consistent.of_flush (by rw [hcl.superblock]; exact hc.formatted)
    ((hc.dir.clear p).congr hcl.entry) ?_
  have hcleared : ∑ j ∈ Finset.range 32, (w.entry j).blockCount =
      ∑ j ∈ Finset.range 32, (if p j then FsEntry.zero else v.entry j).blockCount :=
    Finset.sum_congr rfl (fun j hj => by rw [hcl.entry j (Finset.mem_range.mp hj)])
  rw [hcleared, UInt32.toNat_add, hfreed, Nat.mod_eq_of_lt (by omega)]
  omega

namespace Reliable

theorem deleteClear_spec (s : FsState σ) (hc : Consistent dev.totalBlocks (r.volume s)) (name : List UInt8)
    {i : ℕ} (hi : i < 32) (freed₀ : UInt32) (h0 : freed₀.toNat = ((r.volume s).entry i).blockCount) :
    ∃ freed s', (if ((r.volume s).entry i).type = fsTypeDir then fsDeleteChildren dev name freed₀ s
        else (freed₀, s)) = (freed, s') ∧
      Cleared (r.volume s) ((r.volume s').setEntry i FsEntry.zero) (deletedAt (r.volume s) name i) ∧
      s'.superblock = s.superblock ∧
      freed.toNat = ∑ j ∈ Finset.range 32,
        if deletedAt (r.volume s) name i j then ((r.volume s).entry j).blockCount else 0 := by
  by_cases hd : ((r.volume s).entry i).type = fsTypeDir
  · rw [if_pos hd, sum_deletedAt_of_dir name hd]
    have hz : freed₀ = 0 := by
      rw [← UInt32.toNat_inj, h0, blockCount_of_dir hd]
      rfl
    obtain ⟨freed,s',he,hcl,hfr⟩ := r.fsDeleteChildren_spec s hc.formatted hc.smallEntries name freed₀ hz
    refine ⟨freed,s',he,hcl.setEntry hi (fun j => ?_),hcl.superblock,hfr⟩
    rw [deletedAt, or_comm]
    exact or_congr_left (and_iff_right hd)
  · rw [if_neg hd, sum_deletedAt_of_not_dir name hi hd]
    refine ⟨freed₀,s,rfl,?_,rfl,h0⟩
    refine Cleared.setEntry (p := fun _ => False) ⟨rfl,fun _ _ => rfl,fun j _ => by rw [if_neg id]⟩ hi
      (fun j => ?_)
    rw [deletedAt, or_comm]
    exact or_congr_left ⟨fun h => hd h.1,False.elim⟩

/-- `fs_delete` fails only when the name is not live; otherwise it clears the entry, and
for a directory its children, and gives their blocks back. -/
theorem fsDelete_spec (s : FsState σ) (hc : Consistent dev.totalBlocks (r.volume s)) (name : List UInt8) :
    ∃ s', (fsDelete dev name s = (-1, s') ∧ r.volume s' = r.volume s ∧
        ∀ i < 32, ((r.volume s).entry i).live → ((r.volume s).entry i).title ≠ cstr name) ∨
      (∃ i < 32, ∃ w fb, ((r.volume s).entry i).live ∧ ((r.volume s).entry i).title = cstr name ∧
        Cleared (r.volume s) w (deletedAt (r.volume s) name i) ∧
        fsDelete dev name s = (0, s') ∧ r.volume s' = w.flush fb ∧
        Consistent dev.totalBlocks (r.volume s')) := by
  set v := r.volume s with hv
  have hf : Formatted dev.totalBlocks s.superblock := hc.formatted
  unfold fsDelete
  obtain ⟨s1,hv1,⟨i,hi,he,hl,ht⟩ | ⟨he,hno⟩⟩ := r.fsFindEntry_spec s hf name
  swap
  · rw [he]
    exact ⟨s1,Or.inl ⟨rfl,hv1,hno⟩⟩
  rw [he]
  dsimp only
  rw [← hv] at hv1 hl ht ⊢
  have h0 : (if (v.entry i).type = fsTypeFile ∧ (v.entry i).size > 0 then blocksFor (v.entry i).size
      else 0).toNat = (v.entry i).blockCount := by
    have hb := blockCount_le hc.smallEntries hi
    have h := add_blocks_toNat (e := v.entry i) 0 (by change 0 + _ < _; omega)
    simpa using h
  have hc1 : Consistent dev.totalBlocks (r.volume s1) := by rw [hv1]; exact hc
  have hspec := r.deleteClear_spec s1 hc1 name hi
    (if (v.entry i).type = fsTypeFile ∧ (v.entry i).size > 0 then blocksFor (v.entry i).size else 0)
    (by rw [hv1]; exact h0)
  rw [hv1] at hspec
  obtain ⟨freed,s2,he2,hcl,hsb2,hfr⟩ := hspec
  rw [he2]
  dsimp only
  have hsb2' : s2.superblock = s.superblock := hsb2.trans (congrArg Volume.superblock hv1)
  obtain ⟨s3,he3,hv3⟩ := r.fsWriteEntry_spec s2 (by rw [hsb2']; exact hf) hi FsEntry.zero
  rw [he3]
  dsimp only
  have hsb3 : s3.superblock = s.superblock := (congrArg Volume.superblock hv3).trans hsb2'
  obtain ⟨ok,s4,he4,hv4⟩ := r.flush_spec s3 (by rw [hsb3]; exact hf) (s3.superblock.freeBlocks + freed)
  rw [he4]
  rw [hv3, hsb3] at hv4
  refine ⟨s4,Or.inr ⟨i,hi,_,_,hl,ht,hcl,rfl,hv4,?_⟩⟩
  rw [hv4]
  exact hc.clear hcl hfr

end Reliable

theorem Sound.extent_lt {total : UInt32} {v : Volume} (hs : Sound total v) {i k : ℕ} (hi : i < 32)
    (hk : k < (v.entry i).blockCount) : 3 + (v.entry i).startBlock.toNat + k < total.toNat := by
  have h := hs.dir.inRegion i hi ((v.entry i).startBlock.toNat + k) ⟨by omega,by omega⟩
  omega

/-- The bytes of a file: its extent cut off at its size. -/
def Volume.contents (v : Volume) (e : FsEntry) : List UInt8 :=
  (v.data (3 + e.startBlock.toNat) e.blockCount).take e.size.toNat

theorem toInt32_toInt {a : UInt32} (h : a.toNat < 2 ^ 31) : a.toInt32.toInt = a.toNat :=
  BitVec.toInt_eq_toNat_of_lt (show 2 * a.toNat < 2 ^ 32 by omega)

theorem min_toNat (a b : UInt32) : (if a > b then b else a).toNat = min b.toNat a.toNat := by
  split
  · rename_i h
    rw [gt_iff_lt, UInt32.lt_iff_toNat_lt] at h
    omega
  · rename_i h
    rw [gt_iff_lt, UInt32.lt_iff_toNat_lt] at h
    omega

namespace Readable
variable (r : Readable dev)

theorem fsReadFile_found (s : FsState σ) (hf : Formatted dev.totalBlocks s.superblock) {name : List UInt8}
    {e : FsEntry} {i : ℕ} {s1 : FsState σ} (hfind : fsFindEntry dev name s = (some (e,i), s1))
    (hv : r.volume s1 = r.volume s) (hfile : e.type = fsTypeFile) (hsmall : e.size.toNat < 2 ^ 24)
    (hext : ∀ k < e.blockCount, 3 + e.startBlock.toNat + k < dev.totalBlocks.toNat) (maxSize : UInt32) :
    ∃ s', r.volume s' = r.volume s ∧
      fsReadFile dev name maxSize s = (.full (((r.volume s).contents e).take maxSize.toNat), s') := by
  unfold fsReadFile
  rw [hfind]
  dsimp only
  rw [if_neg (not_not.mpr hfile)]
  have hmin := min_toNat e.size maxSize
  set toRead : UInt32 := if e.size > maxSize then maxSize else e.size
  have hn : (blocksFor toRead).toNat = (toRead.toNat + 511) / 512 := blocksFor_toNat _ (by omega)
  have hcount : e.blockCount = (e.size.toNat + 511) / 512 := by
    rw [FsEntry.blockCount, if_pos hfile, blocksFor_toNat _ hsmall]
  have hle : (blocksFor toRead).toNat ≤ e.blockCount := by
    rw [hn, hcount]
    omega
  have hst : e.startBlock.toUInt32.toNat = e.startBlock.toNat := UInt16.toNat_toUInt32 _
  obtain ⟨s2,he2,hv2⟩ := r.fsReadBlocks_spec e.startBlock.toUInt32 (blocksFor toRead).toNat 0 _ s1
    (by rw [show s1.superblock = s.superblock from congrArg Volume.superblock hv]; exact hf) hn
    (fun k hk => by rw [hst]; exact hext k (lt_of_lt_of_le hk hle))
  refine ⟨s2,hv2.trans hv,?_⟩
  have hdata : ((r.volume s).data (3 + e.startBlock.toNat) (blocksFor toRead).toNat).take toRead.toNat =
      ((r.volume s).contents e).take maxSize.toNat := by
    rw [Volume.contents, List.take_take, ← hmin, Volume.data_take _ _ hle (by rw [hn]; omega)]
  -- the size is small, so the number returned is the number of bytes
  have hlen : (((r.volume s).contents e).take maxSize.toNat).length = toRead.toNat := by
    rw [← hdata, List.length_take, Volume.data_length, hn]
    omega
  have hret : toRead.toInt32.toInt = toRead.toNat := toInt32_toInt (by omega)
  rw [he2, hv, hst, Nat.add_zero, hdata]
  dsimp only
  rw [if_pos rfl, hret, ← hlen]
  rfl

theorem fsReadFile_spec (s : FsState σ) (hs : Sound dev.totalBlocks (r.volume s)) (name : List UInt8)
    (maxSize : UInt32) :
    ∃ s', r.volume s' = r.volume s ∧
      ((∃ i < 32, ((r.volume s).entry i).type = fsTypeFile ∧ ((r.volume s).entry i).title = cstr name ∧
          fsReadFile dev name maxSize s =
            (.full (((r.volume s).contents ((r.volume s).entry i)).take maxSize.toNat), s')) ∨
        (fsReadFile dev name maxSize s = (.failed, s') ∧
          ((∃ i < 32, ((r.volume s).entry i).live ∧ ((r.volume s).entry i).title = cstr name ∧
              ((r.volume s).entry i).type ≠ fsTypeFile) ∨
            ∀ i < 32, ((r.volume s).entry i).live → ((r.volume s).entry i).title ≠ cstr name))) := by
  have hf : Formatted dev.totalBlocks s.superblock := hs.formatted
  obtain ⟨s1,hv1,⟨i,hi,he,hl,ht⟩ | ⟨he,hno⟩⟩ := r.fsFindEntry_spec s hf name
  swap
  · exact ⟨s1,hv1,Or.inr ⟨by rw [fsReadFile, he],Or.inr hno⟩⟩
  by_cases hfile : ((r.volume s).entry i).type = fsTypeFile
  · obtain ⟨s2,hv2,hread⟩ := r.fsReadFile_found s hf he hv1 hfile (hs.dir.small i hi)
      (fun k hk => hs.extent_lt hi hk) maxSize
    exact ⟨s2,hv2,Or.inl ⟨i,hi,hfile,ht,hread⟩⟩
  · refine ⟨s1,hv1,Or.inr ⟨?_,Or.inl ⟨i,hi,hl,ht,hfile⟩⟩⟩
    rw [fsReadFile, he]
    exact if_pos hfile

theorem fsStat_spec (s : FsState σ) (hs : Sound dev.totalBlocks (r.volume s)) (name : List UInt8) :
    ∃ s', r.volume s' = r.volume s ∧
      ((∃ i < 32, ((r.volume s).entry i).live ∧ ((r.volume s).entry i).title = cstr name ∧
          fsStat dev name s = (some ((r.volume s).entry i), s')) ∨
        (fsStat dev name s = (none, s') ∧
          ∀ i < 32, ((r.volume s).entry i).live → ((r.volume s).entry i).title ≠ cstr name)) := by
  unfold fsStat
  obtain ⟨s1,hv1,⟨i,hi,he,hl,ht⟩ | ⟨he,hno⟩⟩ := r.fsFindEntry_spec s hs.formatted name
  · rw [he]
    exact ⟨s1,hv1,Or.inl ⟨i,hi,hl,ht,rfl⟩⟩
  · rw [he]
    exact ⟨s1,hv1,Or.inr ⟨rfl,hno⟩⟩

end Readable

theorem formatted_fresh (h3 : 3 ≤ total.toNat) : Formatted total (freshSuperblock total) := ⟨rfl,rfl,rfl,rfl,h3⟩

theorem freshSuperblock_free (h3 : 3 ≤ total.toNat) : (freshSuperblock total).freeBlocks.toNat = total.toNat - 3 := by
  change (total - 3).toNat = _
  rw [UInt32.toNat_sub_of_le _ _ (by rw [UInt32.le_iff_toNat_le]; exact h3)]
  rfl

namespace Reliable

/-- Formatting a device of at least three blocks gives a consistent volume without entries. -/
theorem fsFormat_spec (s : FsState σ) (h3 : 3 ≤ dev.totalBlocks.toNat) :
    ∃ s', fsFormat dev s = (0, s') ∧ Consistent dev.totalBlocks (r.volume s') ∧
      ∀ i < 32, (r.volume s').entry i = FsEntry.zero := by
  unfold fsFormat
  set superblock := freshSuperblock dev.totalBlocks
  obtain ⟨s1,he1,_,hv1⟩ := r.writeBlock_spec { s with superblock } (b := 0) superblock.encode
    (by rw [UInt32.lt_iff_toNat_lt]; change 0 < _; omega)
  have hsb1 : s1.superblock = superblock := congrArg Volume.superblock hv1
  rw [show fsFlushSuperblock dev { s with superblock } = (true, s1) from he1]
  dsimp only
  obtain ⟨s2,he2,hs2,hv2⟩ := r.writeBlock_spec { s1 with blockBuf := Block.zero } (b := 1) Block.zero
    (by rw [UInt32.lt_iff_toNat_lt]; change 1 < _; omega)
  have hsb2 : s2.superblock = superblock := (congrArg Volume.superblock hv2).trans hsb1
  rw [show s1.superblock.dirStartBlock = 1 by rw [hsb1]; rfl, he2]
  dsimp only
  obtain ⟨s3,he3,hs3,hv3⟩ := r.writeBlock_spec s2 (b := 1 + 1) Block.zero
    (by rw [UInt32.lt_iff_toNat_lt]; change 2 < _; omega)
  rw [show s2.superblock.dirStartBlock = 1 by rw [hsb2]; rfl, he3]
  have hsb3 : s3.superblock = superblock := (congrArg Volume.superblock hv3).trans hsb2
  have hblocks : ∀ b, (r.volume s3).blocks b = if b = 2 then Block.zero else if b = 1 then Block.zero
      else if b = 0 then superblock.encode else (r.volume s).blocks b := by
    intro b
    rw [hv3, hv2]
    simp only [Volume.setBlock, Function.update_apply]
    change (if b = 2 then _ else if b = 1 then _ else (r.volume s1).blocks b) = _
    rw [hv1]
    simp only [Volume.setBlock, Function.update_apply]
    rfl
  have hentry : ∀ i < 32, (r.volume s3).entry i = FsEntry.zero := by
    intro i hi
    rw [Volume.entry, hblocks]
    by_cases h : 1 + i / 16 = 2
    · rw [if_pos h, Block.entry_zero]
    · rw [if_neg h, if_pos (by omega), Block.entry_zero]
  refine ⟨s3,rfl,⟨?_,?_,DirOk.empty.congr hentry,?_⟩,hentry⟩
  · rw [show (r.volume s3).superblock = superblock from hsb3]
    exact formatted_fresh h3
  · rw [hblocks, show (r.volume s3).superblock = superblock from hsb3]
    rfl
  · rw [Finset.sum_eq_zero (fun i hi => by rw [hentry i (Finset.mem_range.mp hi), FsEntry.zero_blockCount]),
      show (r.volume s3).superblock = superblock from hsb3]
    exact freshSuperblock_free h3

omit r in
theorem fsFormat_superblock (s : FsState σ) : (fsFormat dev s).2.superblock = freshSuperblock dev.totalBlocks := by
  have hkeep : ∀ {b : UInt32} {blk : Block} {s s' : FsState σ} {ok : Bool}, writeBlock dev b blk s = (ok, s') →
      s'.superblock = s.superblock := fun h => (congrArg (fun p => p.2.superblock) h).symm
  unfold fsFormat
  split
  · next h1 => exact hkeep h1
  next s1 h1 =>
  split
  · next h2 => exact (hkeep h2).trans (hkeep h1)
  next s2 h2 =>
  split
  · next h3 => exact (hkeep h3).trans ((hkeep h2).trans (hkeep h1))
  · next h3 => exact (hkeep h3).trans ((hkeep h2).trans (hkeep h1))

/-- What block 0 holds when the device has no file system on it. -/
def Unformatted (s : FsState σ) : Prop := (Superblock.decode (r.contents s.disk 0)).magic ≠ fsMagic

theorem fsInit_eq_format (s : FsState σ) (h3 : 3 ≤ dev.totalBlocks.toNat) (hu : r.Unformatted s) :
    ∃ s', fsInit dev s = fsFormat dev s' := by
  obtain ⟨d,hrd,_⟩ := r.read_ok 0 s.disk (by rw [UInt32.lt_iff_toNat_lt]; change 0 < _; omega)
  unfold fsInit
  rw [hrd]
  exact ⟨_,if_pos hu⟩

theorem fsInit_unformatted (s : FsState σ) (h3 : 3 ≤ dev.totalBlocks.toNat) (hu : r.Unformatted s) :
    ∃ s', fsInit dev s = (0, s') ∧ Consistent dev.totalBlocks (r.volume s') ∧
      ∀ i < 32, (r.volume s').entry i = FsEntry.zero := by
  obtain ⟨s1,hs1⟩ := r.fsInit_eq_format s h3 hu
  rw [hs1]
  exact r.fsFormat_spec s1 h3

theorem fsInit_superblock (s : FsState σ) (h3 : 3 ≤ dev.totalBlocks.toNat) (hu : r.Unformatted s) :
    (fsInit dev s).2.superblock = freshSuperblock dev.totalBlocks := by
  obtain ⟨s1,hs1⟩ := r.fsInit_eq_format s h3 hu
  rw [hs1]
  exact fsFormat_superblock s1

end Reliable

def volumeOn (blocks : ℕ → Block) : Volume := ⟨blocks,Superblock.decode (blocks 0)⟩

/-- A mount reads the superblock back, whatever the memory held. -/
theorem Readable.fsInit_mount (r : Readable dev) (s : FsState σ)
    (hf : Formatted dev.totalBlocks (Superblock.decode (r.contents s.disk 0))) :
    ∃ s', fsInit dev s = (0, s') ∧ r.volume s' = volumeOn (r.contents s.disk) := by
  have h3 := hf.three_le
  obtain ⟨d,hrd,hd⟩ := r.read_ok 0 s.disk (by rw [UInt32.lt_iff_toNat_lt]; change 0 < _; omega)
  unfold fsInit
  rw [hrd]
  dsimp only
  rw [show (0 : UInt32).toNat = 0 from rfl, if_neg (not_not.mpr hf.magic)]
  refine ⟨_,rfl,?_⟩
  ext1
  · exact hd
  · rfl

theorem Consistent.volumeOn_eq {total : UInt32} {v : Volume} (hc : Consistent total v) : volumeOn v.blocks = v := by
  rw [volumeOn, hc.block0, Superblock.decode_encode]

end ApPa.Fs

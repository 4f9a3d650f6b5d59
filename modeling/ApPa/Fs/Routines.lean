import ApPa.Fs.Volume
import Mathlib.Algebra.Order.BigOperators.Group.Finset

/-! # What the internal SimpleFS routines compute on a volume

One specification per routine of `simplefs.c`. The directory loops are instances of
the loop rule; block allocation is sound because the occupancy map marks every data
block of every file entry.
-/
namespace ApPa.Fs
open Klibc BitTable

variable {σ : Type} {dev : BlockDevice σ}

namespace FsEntry

def live (e : FsEntry) : Prop := e.type ≠ fsTypeFree
instance (e : FsEntry) : Decidable e.live := inferInstanceAs (Decidable (_ ≠ _))

def title (e : FsEntry) : List UInt8 := cstr e.name

/-- Data blocks a file entry refers to, relative to the data region. -/
def blockCount (e : FsEntry) : ℕ := if e.type = fsTypeFile then (blocksFor e.size).toNat else 0
def covers (e : FsEntry) (b : ℕ) : Prop :=
  e.startBlock.toNat ≤ b ∧ b < e.startBlock.toNat + e.blockCount

end FsEntry

/-- The rounded sum wraps around for the last 511 sizes. -/
theorem blocksFor_toNat_eq (size : UInt32) :
    (blocksFor size).toNat = (size.toNat + 511) % 2 ^ 32 / 512 := by
  have hlt := size.toNat_lt
  have h512 : (512 : UInt32).toNat = 512 := rfl
  have h1 : (1 : UInt32).toNat = 1 := rfl
  have hsum : (2 ^ 32 - 1 + (size.toNat + 512) % 2 ^ 32) % 2 ^ 32 = (size.toNat + 511) % 2 ^ 32 := by omega
  rw [blocksFor, UInt32.toNat_div, UInt32.toNat_sub, UInt32.toNat_add, h512, h1, hsum]

theorem blocksFor_toNat (size : UInt32) (h : size.toNat < 2 ^ 24) :
    (blocksFor size).toNat = (size.toNat + 511) / 512 := by
  rw [blocksFor_toNat_eq, Nat.mod_eq_of_lt (by omega)]

theorem blocksFor_zero : blocksFor 0 = 0 := by decide

theorem testBit_markBlocks (start dataBlocks : UInt32) (n b : ℕ) (used : Table 8) (x : ℕ)
    (hov : start.toNat + b + n < 2 ^ 32) :
    testBit (markBlocks start dataBlocks n b used) x =
      (testBit used x || decide (start.toNat + b ≤ x ∧ x < start.toNat + b + n ∧
        x < dataBlocks.toNat ∧ x < 1024)) := by
  induction n generalizing b used with
  | zero =>
    have h : ¬(start.toNat + b ≤ x ∧ x < start.toNat + b + 0 ∧ x < dataBlocks.toNat ∧ x < 1024) := by
      omega
    rw [decide_eq_false h, Bool.or_false, markBlocks]
  | succ n ih =>
    have hblk : (start + UInt32.ofNat b).toNat = start.toNat + b := by
      simp only [UInt32.toNat_add, UInt32.toNat_ofNat']
      omega
    rw [markBlocks]
    simp only [UInt32.lt_iff_toNat_lt, hblk]
    by_cases hlt : start.toNat + b < dataBlocks.toNat
    · rw [if_pos hlt, ih (b + 1) _ (by omega)]
      by_cases hm : (start.toNat + b) / 8 < 128
      · rw [if_pos hm, testBit_setBit (by decide), Bool.or_assoc, Bool.or_comm, Bool.or_assoc]
        congr 1
        rw [← Bool.decide_or]
        apply decide_eq_decide.mpr
        omega
      · rw [if_neg hm]
        congr 1
        apply decide_eq_decide.mpr
        omega
    · rw [if_neg hlt]
      have h : ¬(start.toNat + b ≤ x ∧ x < start.toNat + b + (n + 1) ∧ x < dataBlocks.toNat ∧
          x < 1024) := by omega
      simp [h]

def FsEntry.typed (e : FsEntry) : Prop :=
  e.type = fsTypeFree ∨ e.type = fsTypeFile ∨ e.type = fsTypeDir

theorem testBit_markEntry {e : FsEntry} (ht : e.typed) (hs : e.size.toNat < 2 ^ 24)
    (dataBlocks : UInt32) (used : Table 8) (x : ℕ) :
    testBit (markEntry dataBlocks e used) x = true ↔
      testBit used x = true ∨ (e.covers x ∧ x < dataBlocks.toNat ∧ x < 1024) := by
  rw [markEntry, FsEntry.covers, FsEntry.blockCount]
  rcases ht with h | h | h
  · simp [h, fsTypeFree, fsTypeFile]
  · have hst : e.startBlock.toUInt32.toNat = e.startBlock.toNat := e.startBlock.toNat_toUInt32
    have hlt := e.startBlock.toNat_lt
    rw [if_neg (by rw [h]; decide), if_neg (by rw [h]; decide), if_pos h,
      testBit_markBlocks _ _ _ _ _ _ (by rw [hst, blocksFor_toNat _ hs]; omega), hst,
      Bool.or_eq_true, decide_eq_true_eq]
    simp [and_assoc]
  · simp [h, fsTypeFree, fsTypeFile, fsTypeDir]

/-- Entries for which the 32-bit block arithmetic is exact. -/
def SmallEntries (v : Volume) : Prop := ∀ i < 32, (v.entry i).typed ∧ (v.entry i).size.toNat < 2 ^ 24

theorem blockCount_le {v : Volume} (hsmall : SmallEntries v) {i : ℕ} (hi : i < 32) :
    (v.entry i).blockCount ≤ 2 ^ 15 := by
  unfold FsEntry.blockCount
  split
  · rw [blocksFor_toNat _ (hsmall i hi).2]
    have := (hsmall i hi).2
    omega
  · omega

theorem sum_blockCount_le {v : Volume} (hsmall : SmallEntries v) {n : ℕ} (hn : n ≤ 32) :
    ∑ j ∈ Finset.range n, (v.entry j).blockCount ≤ n * 2 ^ 15 := by
  have h := Finset.sum_le_card_nsmul (Finset.range n) (fun j => (v.entry j).blockCount) (2 ^ 15)
    (fun j hj => blockCount_le hsmall (by have := Finset.mem_range.mp hj; omega))
  simpa using h

theorem add_blocks_toNat {e : FsEntry} (total : UInt32)
    (h : total.toNat + e.blockCount < 2 ^ 32) :
    (if e.type = fsTypeFile ∧ e.size > 0 then total + blocksFor e.size else total).toNat =
      total.toNat + e.blockCount := by
  unfold FsEntry.blockCount at h ⊢
  by_cases ht : e.type = fsTypeFile
  · rw [if_pos ht] at h ⊢
    by_cases hz : e.size > 0
    · rw [if_pos ⟨ht,hz⟩, UInt32.toNat_add, Nat.mod_eq_of_lt h]
    · have hz0 : e.size = 0 := by
        rw [gt_iff_lt, UInt32.lt_iff_toNat_lt] at hz
        rw [← UInt32.toNat_inj]
        simpa using hz
      rw [if_neg (fun hc => hz hc.2), hz0, blocksFor_zero]
      rfl
  · rw [if_neg (fun hc => ht hc.1), if_neg ht]
    rfl

/-- The directory after the entries selected by `p` have been cleared. -/
structure Cleared (v w : Volume) (p : ℕ → Prop) [DecidablePred p] : Prop where
  superblock : w.superblock = v.superblock
  blocks : ∀ b, b = 0 ∨ 3 ≤ b → w.blocks b = v.blocks b
  entry : ∀ j < 32, w.entry j = if p j then FsEntry.zero else v.entry j

theorem Cleared.setEntry {v w : Volume} {p q : ℕ → Prop} [DecidablePred p] [DecidablePred q]
    (h : Cleared v w p) {i : ℕ} (hi : i < 32) (hq : ∀ j, q j ↔ p j ∨ j = i) :
    Cleared v (w.setEntry i FsEntry.zero) q := by
  refine ⟨h.superblock,fun b hb => ?_,fun j hj => ?_⟩
  · rw [← h.blocks b hb]
    rcases hb with rfl | hb
    · exact w.setEntry_blocks_zero i _
    · exact w.setEntry_blocks_of_ge hi _ hb
  · rw [Volume.entry_setEntry]
    by_cases hij : i = j
    · rw [if_pos hij, if_pos ((hq j).mpr (Or.inr hij.symm))]
    · rw [if_neg hij, h.entry j hj]
      have hpq : q j ↔ p j := by rw [hq]; exact or_iff_left (Ne.symm hij)
      simp only [hpq]

/-- The children that deleting directory `name` removes. -/
def childAt (v : Volume) (name : List UInt8) (j : ℕ) : Prop :=
  (v.entry j).live ∧ isChild name (v.entry j) = true
instance (v : Volume) (name : List UInt8) : DecidablePred (childAt v name) :=
  fun _ => inferInstanceAs (Decidable (_ ∧ _))

def freedBlocks (v : Volume) (name : List UInt8) (n : ℕ) : ℕ :=
  ∑ j ∈ Finset.range n, if childAt v name j then (v.entry j).blockCount else 0

theorem freedBlocks_le {v : Volume} (hsmall : SmallEntries v) (name : List UInt8) {n : ℕ}
    (hn : n ≤ 32) : freedBlocks v name n ≤ n * 2 ^ 15 := by
  refine le_trans (Finset.sum_le_sum fun j _ => ?_) (sum_blockCount_le hsmall hn)
  split <;> omega

def Volume.unused (v : Volume) (b : ℕ) : Prop := ∀ i < 32, ¬(v.entry i).covers b

/-- Largest extent bound: the data region, as far as the 128-byte map reaches. -/
def extentLimit (total : UInt32) : ℕ := min (total.toNat - 3) 1024

theorem extentLimit_le (total : UInt32) : extentLimit total ≤ 1024 ∧ extentLimit total ≤ total.toNat - 3 := by
  unfold extentLimit
  omega

def liveEntries (v : Volume) (n : ℕ) : List FsEntry :=
  ((List.range n).map v.entry).filter (fun e => e.live)

theorem liveEntries_succ (v : Volume) (n : ℕ) :
    liveEntries v (n + 1) = liveEntries v n ++ if (v.entry n).live then [v.entry n] else [] := by
  rw [liveEntries, List.range_succ, List.map_append, List.filter_append, liveEntries]
  simp [List.filter_cons]

theorem liveEntries_isPrefix (v : Volume) {i n : ℕ} (h : i ≤ n) : liveEntries v i <+: liveEntries v n := by
  induction n, h using Nat.le_induction with
  | base => exact List.prefix_rfl
  | succ n _ ih =>
    rw [liveEntries_succ]
    exact ih.trans (List.prefix_append _ _)

theorem dataBlock_toNat {total : UInt32} {sb : Superblock} (hf : Formatted total sb) (start : UInt32) {i : ℕ}
    (h : 3 + start.toNat + i < 2 ^ 32) :
    (sb.dataStartBlock + start + UInt32.ofNat i).toNat = 3 + start.toNat + i := by
  rw [hf.dataStart]
  simp only [UInt32.toNat_add, UInt32.toNat_ofNat']
  rw [show (3 : UInt32).toNat = 3 from rfl]
  omega

theorem chunk_toNat (remaining : UInt32) :
    (if remaining > 512 then (512 : UInt32) else remaining).toNat = min 512 remaining.toNat := by
  have h512 : (512 : UInt32).toNat = 512 := rfl
  by_cases h : remaining > 512
  · rw [if_pos h]
    rw [gt_iff_lt, UInt32.lt_iff_toNat_lt, h512] at h
    omega
  · rw [if_neg h]
    rw [gt_iff_lt, UInt32.lt_iff_toNat_lt, h512] at h
    omega

theorem sub_chunk_toNat (remaining : UInt32) :
    (remaining - (if remaining > 512 then (512 : UInt32) else remaining)).toNat =
      remaining.toNat - 512 := by
  have hc := chunk_toNat remaining
  rw [UInt32.toNat_sub_of_le, hc]
  · omega
  · rw [UInt32.le_iff_toNat_le, hc]
    omega

theorem scan_map {used : Table 8} {free : ℕ → Prop} {count limit : ℕ} (hc : 0 < count) (hl : limit ≤ 1024)
    (hun : ∀ b < limit, testBit used b = true ↔ ¬free b) :
    (∃ start, RunSearch.scan (fun b => !testBit used b) count limit 0 0 0 = some start ∧
        (UInt32.ofNat start).toNat = start ∧ RunSearch.FirstRun free count limit start) ∨
      (RunSearch.scan (fun b => !testBit used b) count limit 0 0 0 = none ∧
        ∀ b, b + count ≤ limit → ¬∀ k < count, free (b + k)) := by
  have hfree : ∀ b < limit, (!testBit used b) = true ↔ free b := by
    intro b hb
    rw [Bool.not_eq_true', ← Bool.not_eq_true, hun b hb, not_not]
  rcases RunSearch.scan_first (n := limit) (RunSearch.passed_zero (fun b => !testBit used b) hc)
    (RunSearch.counted_zero _ 0 0) with ⟨start,hsr,hfirst⟩ | ⟨hsr,hno⟩
  · rw [Nat.zero_add] at hfirst
    refine Or.inl ⟨start,hsr,?_,hfirst.congr hfree⟩
    rw [UInt32.toNat_ofNat', Nat.mod_eq_of_lt (by have := hfirst.fits; omega)]
  · exact Or.inr ⟨hsr,fun b hb hrun => hno b (by omega) fun k hk => (hfree _ (by omega)).mpr (hrun k hk)⟩

/-- The map after `i` entries, of which those with `seen` could be read. -/
def Marks (v : Volume) (dataBlocks : UInt32) (seen : ℕ → Prop) (i : ℕ) (used : Table 8) : Prop :=
  ∀ x, testBit used x = true ↔ ∃ j < i, seen j ∧ (v.entry j).covers x ∧ x < dataBlocks.toNat ∧ x < 1024

namespace Marks
variable {v : Volume} {dataBlocks : UInt32} {seen : ℕ → Prop} {i : ℕ} {used : Table 8}

theorem zero (v : Volume) (dataBlocks : UInt32) (seen : ℕ → Prop) : Marks v dataBlocks seen 0 (fun _ => 0) := by
  intro x
  rw [testBit_eq (by decide)]
  simp

theorem skip (h : Marks v dataBlocks seen i used) (hi : ¬seen i) : Marks v dataBlocks seen (i + 1) used := by
  intro x
  rw [h, Nat.exists_lt_succ_right]
  exact (or_iff_left fun hx => hi hx.1).symm

theorem mark (h : Marks v dataBlocks seen i used) (hsmall : (v.entry i).typed ∧ (v.entry i).size.toNat < 2 ^ 24)
    (hi : seen i) : Marks v dataBlocks seen (i + 1) (markEntry dataBlocks (v.entry i) used) := by
  intro x
  rw [testBit_markEntry hsmall.1 hsmall.2, h, Nat.exists_lt_succ_right]
  exact or_congr_right (and_iff_right hi).symm

end Marks

/-- The answers of `fs_alloc_blocks`, with what it takes for free. -/
def Allocates (total freeBlocks : UInt32) (free : ℕ → Prop) (count start : UInt32) : Prop :=
  (count ≤ freeBlocks ∧ RunSearch.FirstRun free count.toNat (extentLimit total) start.toNat) ∨
    (start = noSpace ∧ (freeBlocks < count ∨ ∀ b, b + count.toNat ≤ extentLimit total → ¬∀ k < count.toNat, free (b + k)))

theorem fsAllocBlocks_marks (s : FsState σ) (hf : Formatted dev.totalBlocks s.superblock) {count : UInt32} (hc : count ≠ 0)
    (v : Volume) (seen : ℕ → Prop) {free : ℕ → Prop} (hfree : ∀ b, free b ↔ ∀ j < 32, seen j → ¬(v.entry j).covers b)
    {Q : FsState σ → Prop} (hs : Q s)
    (hscan : ∃ used s', scanEntries dev (markBody (s.superblock.totalBlocks - s.superblock.dataStartBlock)) 32 0
      (fun _ => 0) s = (.inr used, s') ∧ Q s' ∧
        Marks v (s.superblock.totalBlocks - s.superblock.dataStartBlock) seen 32 used) :
    ∃ start s', fsAllocBlocks dev count s = (start, s') ∧ Q s' ∧
      Allocates dev.totalBlocks s.superblock.freeBlocks free count start := by
  obtain ⟨used,s',he,hQ,hused⟩ := hscan
  have hlimit : min (s.superblock.totalBlocks - s.superblock.dataStartBlock).toNat 1024 = extentLimit dev.totalBlocks := by
    rw [hf.sub_toNat, extentLimit]
  have hun : ∀ b < extentLimit dev.totalBlocks, testBit used b = true ↔ ¬free b := by
    intro b hb
    rw [hused, hfree]
    push Not
    exact exists_congr fun j => and_congr_right fun _ => and_congr_right fun _ =>
      ⟨fun h => h.1,fun h => ⟨h,by omega,by omega⟩⟩
  unfold fsAllocBlocks
  rw [if_neg hc]
  by_cases hlow : count > s.superblock.freeBlocks
  · rw [if_pos hlow]
    exact ⟨noSpace,s,rfl,hs,Or.inr ⟨rfl,Or.inl hlow⟩⟩
  rw [if_neg hlow]
  simp only [show fsMaxEntries = 32 from rfl, he, hlimit]
  have hcount : 0 < count.toNat := Nat.pos_of_ne_zero fun h => hc (UInt32.toNat_inj.mp h)
  rcases scan_map hcount (extentLimit_le dev.totalBlocks).1 hun with ⟨start,hsr,hst,hfirst⟩ | ⟨hsr,hno⟩
  · rw [hsr]
    exact ⟨UInt32.ofNat start,s',rfl,hQ,Or.inl ⟨UInt32.not_lt.mp hlow,by rw [hst]; exact hfirst⟩⟩
  · rw [hsr]
    exact ⟨noSpace,s',rfl,hQ,Or.inr ⟨rfl,Or.inr hno⟩⟩

namespace Readable
variable (r : Readable dev)

theorem fsFindEntry_spec (s : FsState σ) (hf : Formatted dev.totalBlocks s.superblock)
    (name : List UInt8) :
    ∃ s', r.volume s' = r.volume s ∧
      ((∃ i < 32, fsFindEntry dev name s = (some ((r.volume s).entry i, i), s') ∧
          ((r.volume s).entry i).live ∧ ((r.volume s).entry i).title = cstr name) ∨
        (fsFindEntry dev name s = (none, s') ∧
          ∀ i < 32, ((r.volume s).entry i).live → ((r.volume s).entry i).title ≠ cstr name)) := by
  set v := r.volume s with hv
  have hscan := r.scanEntries_spec (n := 32) (i := 0) (findBody name) () s
    (fun i _ w => w = v ∧ ∀ j < i, (v.entry j).live → (v.entry j).title ≠ cstr name)
    (fun p w => w = v ∧ p.2 < 32 ∧ p.1 = v.entry p.2 ∧ p.1.live ∧ p.1.title = cstr name)
    (fun hp => by rw [hp.1]; exact hf) ?_ rfl ⟨rfl,by omega⟩
  · unfold fsFindEntry
    rcases hscan with ⟨⟨e,i⟩,s',he,hw,hi,hei,hl,ht⟩ | ⟨_,s',he,hw,hno⟩
    · dsimp only at hi hei hl ht
      subst hei
      exact ⟨s',hw,Or.inl ⟨i,hi,by rw [show fsMaxEntries = 32 from rfl, he],hl,ht⟩⟩
    · exact ⟨s',hw,Or.inr ⟨by rw [show fsMaxEntries = 32 from rfl, he],hno⟩⟩
  · rintro i ⟨⟩ s hi ⟨hw,hno⟩
    rw [hw]
    by_cases hm : (v.entry i).type ≠ fsTypeFree ∧ strcmp (v.entry i).name name = 0
    · exact Or.inl ⟨(v.entry i,i),s,by rw [findBody, if_pos hm],hw,hi,rfl,hm.1,
        (strcmp_eq_zero_iff _ _).mp hm.2⟩
    · refine Or.inr ⟨(),s,by rw [findBody, if_neg hm],hw,fun j hj hl ht => ?_⟩
      rcases Nat.lt_succ_iff_lt_or_eq.mp hj with hj | rfl
      · exact hno j hj hl ht
      · exact hm ⟨hl,(strcmp_eq_zero_iff _ _).mpr ht⟩

theorem fsFindFreeSlot_spec (s : FsState σ) (hf : Formatted dev.totalBlocks s.superblock) :
    ∃ s', r.volume s' = r.volume s ∧
      ((∃ i < 32, fsFindFreeSlot dev s = (i, s') ∧ ((r.volume s).entry i).type = fsTypeFree) ∨
        (fsFindFreeSlot dev s = (32, s') ∧ ∀ i < 32, ((r.volume s).entry i).live)) := by
  set v := r.volume s with hv
  have hscan := r.scanEntries_spec (n := 32) (i := 0) freeSlotBody () s
    (fun i _ w => w = v ∧ ∀ j < i, (v.entry j).live)
    (fun i w => w = v ∧ i < 32 ∧ (v.entry i).type = fsTypeFree)
    (fun hp => by rw [hp.1]; exact hf) ?_ rfl ⟨rfl,by omega⟩
  · unfold fsFindFreeSlot
    rcases hscan with ⟨i,s',he,hw,hi,ht⟩ | ⟨_,s',he,hw,hall⟩
    · exact ⟨s',hw,Or.inl ⟨i,hi,by rw [show fsMaxEntries = 32 from rfl, he],ht⟩⟩
    · exact ⟨s',hw,Or.inr ⟨by rw [show fsMaxEntries = 32 from rfl, he],hall⟩⟩
  · rintro i ⟨⟩ s hi ⟨hw,hall⟩
    rw [hw]
    by_cases hm : (v.entry i).type = fsTypeFree
    · exact Or.inl ⟨i,s,by rw [freeSlotBody, if_pos hm],hw,hi,hm⟩
    · refine Or.inr ⟨(),s,by rw [freeSlotBody, if_neg hm],hw,fun j hj => ?_⟩
      rcases Nat.lt_succ_iff_lt_or_eq.mp hj with hj | rfl
      · exact hall j hj
      · exact hm

/-- The allocator answers with the first run of blocks no entry covers, as far as its map
reaches, unless the free count is too low or there is no such run. -/
theorem fsAllocBlocks_spec (s : FsState σ) (hf : Formatted dev.totalBlocks s.superblock)
    (hsmall : SmallEntries (r.volume s)) {count : UInt32} (hc : count ≠ 0) :
    ∃ start s', fsAllocBlocks dev count s = (start, s') ∧ r.volume s' = r.volume s ∧
      Allocates dev.totalBlocks s.superblock.freeBlocks (r.volume s).unused count start := by
  set v := r.volume s with hv
  set db := s.superblock.totalBlocks - s.superblock.dataStartBlock with hdb
  refine fsAllocBlocks_marks s hf hc v (fun _ => True) (fun b => by simp [Volume.unused]) rfl ?_
  have hscan := r.scanEntries_spec (n := 32) (i := 0) (markBody db) (fun _ => 0) s
    (fun i used w => w = v ∧ Marks v db (fun _ => True) i used) (fun _ _ => False) (fun hp => by rw [hp.1]; exact hf) ?_ rfl
    ⟨rfl,Marks.zero v db _⟩
  · rcases hscan with ⟨b,_⟩ | ⟨used,s',he,hw,hused⟩
    · exact b.elim
    · exact ⟨used,s',he,hw,hused⟩
  · rintro i used s hi ⟨hw,hused⟩
    rw [hw]
    exact Or.inr ⟨_,s,rfl,hw,hused.mark (hsmall i hi) trivial⟩

theorem fsReadBlocks_spec (start : UInt32) (n i : ℕ) (remaining : UInt32)
    (s : FsState σ) (hf : Formatted dev.totalBlocks s.superblock)
    (hn : n = (remaining.toNat + 511) / 512)
    (hroom : ∀ k < n, 3 + start.toNat + i + k < dev.totalBlocks.toNat) :
    ∃ s', fsReadBlocks dev start n i remaining s =
        ((true, ((r.volume s).data (3 + start.toNat + i) n).take remaining.toNat), s') ∧
      r.volume s' = r.volume s := by
  induction n generalizing i remaining s with
  | zero => exact ⟨s,by simp [fsReadBlocks, Volume.data],rfl⟩
  | succ n ih =>
    set chunk : UInt32 := if remaining > 512 then 512 else remaining with hchunk
    have hcn : chunk.toNat = min 512 remaining.toNat := chunk_toNat remaining
    have hsub : (remaining - chunk).toNat = remaining.toNat - 512 := sub_chunk_toNat remaining
    have h0 := hroom 0 (by omega)
    have hlt := dev.totalBlocks.toNat_lt
    have habs := dataBlock_toNat (i := i) hf start (by omega)
    obtain ⟨s1,hrd,hbuf,hv⟩ := r.readBlock_spec s
      (b := s.superblock.dataStartBlock + start + UInt32.ofNat i)
      (by rw [UInt32.lt_iff_toNat_lt, habs]; omega)
    have hsb : s1.superblock = s.superblock := congrArg Volume.superblock hv
    obtain ⟨s2,he,hv2⟩ := ih (i + 1) (remaining - chunk) s1
      (by rw [hsb]; exact hf) (by omega)
      (fun k hk => by have := hroom (k + 1) (by omega); omega)
    refine ⟨s2,?_,hv2.trans hv⟩
    have hblk : ((r.volume s).blocks (3 + start.toNat + i)).bytes.length = 512 :=
      ((r.volume s).blocks _).length_eq
    simp only [fsReadBlocks, ← hchunk, hrd, he, hbuf, habs, hv, Volume.data, Nat.add_assoc]
    congr 2
    rw [List.take_append, Nat.add_assoc] at *
    rw [hblk, hcn, hsub]
    congr 1
    simp only [List.take_eq_take_iff, hblk]
    omega

theorem fsCountUsed_spec (s : FsState σ) (hf : Formatted dev.totalBlocks s.superblock)
    (hsmall : SmallEntries (r.volume s)) :
    ∃ total s', fsCountUsed dev s = (total, s') ∧ r.volume s' = r.volume s ∧
      total.toNat = ∑ i ∈ Finset.range 32, ((r.volume s).entry i).blockCount := by
  set v := r.volume s with hv
  have hscan := r.scanEntries_spec (n := 32) (i := 0) countBody 0 s
    (fun i total w => w = v ∧ total.toNat = ∑ j ∈ Finset.range i, (v.entry j).blockCount)
    (fun _ _ => False) (fun hp => by rw [hp.1]; exact hf) ?_ rfl ⟨rfl,rfl⟩
  · unfold fsCountUsed
    rcases hscan with ⟨b,_⟩ | ⟨total,s',he,hw,ht⟩
    · exact b.elim
    · exact ⟨total,s',by rw [show fsMaxEntries = 32 from rfl, he],hw,ht⟩
  · rintro i total s hi ⟨hw,ht⟩
    rw [hw]
    have hb := sum_blockCount_le hsmall (n := i + 1) (by omega)
    rw [Finset.sum_range_succ, ← ht] at hb
    refine Or.inr ⟨_,s,rfl,hw,?_⟩
    rw [add_blocks_toNat _ (by omega), ht, Finset.sum_range_succ]

theorem fsList_spec (s : FsState σ) (hf : Formatted dev.totalBlocks s.superblock) (max : ℕ) :
    ∃ s', fsList dev max s = ((liveEntries (r.volume s) 32).take max, s') ∧
      r.volume s' = r.volume s := by
  set v := r.volume s with hv
  unfold fsList
  by_cases hm : max = 0
  · subst hm
    exact ⟨s,by simp [scanEntries],rfl⟩
  rw [if_neg hm]
  have hscan := r.scanEntries_spec (n := 32) (i := 0) (listBody max) [] s
    (fun i entries w => w = v ∧ entries = liveEntries v i ∧ entries.length < max ∧ i ≤ 32)
    (fun entries w => w = v ∧ entries.length = max ∧ ∃ i ≤ 32, entries = liveEntries v i)
    (fun hp => by rw [hp.1]; exact hf) ?_ rfl ⟨rfl,rfl,by simp; omega,by omega⟩
  · rcases hscan with ⟨entries,s',he,hw,hl,i,hi,hei⟩ | ⟨entries,s',he,hw,hei,hl,_⟩
    · refine ⟨s',?_,hw⟩
      rw [show fsMaxEntries = 32 from rfl, he]
      rw [hei] at hl ⊢
      rw [← hl, ← List.prefix_iff_eq_take.mp (liveEntries_isPrefix v hi)]
    · refine ⟨s',?_,hw⟩
      rw [show fsMaxEntries = 32 from rfl, he, hei, List.take_of_length_le (by rw [← hei]; omega)]
  · rintro i entries s hi ⟨hw,he,hlen,_⟩
    rw [hw]
    have hsucc := liveEntries_succ v i
    by_cases hl : (v.entry i).type ≠ fsTypeFree
    · rw [if_pos (show (v.entry i).live from hl), ← he] at hsucc
      by_cases hroom : entries.length + 1 < max
      · exact Or.inr ⟨_,s,by rw [listBody, if_pos hl, if_pos hroom],hw,hsucc.symm,by simpa using hroom,
          by omega⟩
      · exact Or.inl ⟨_,s,by rw [listBody, if_pos hl, if_neg hroom],hw,by simp; omega,i + 1,by omega,
          hsucc.symm⟩
    · rw [if_neg (show ¬(v.entry i).live from hl), List.append_nil, ← he] at hsucc
      exact Or.inr ⟨entries,s,by rw [listBody, if_neg hl],hw,hsucc.symm,hlen,by omega⟩

end Readable

/-- The data loop, when it gets through, stores the source cut into blocks and padded with
zeros. -/
theorem Atomic.fsWriteBlocks_spec (a : Atomic dev) (start : UInt32) (n i : ℕ) (src : List UInt8) (remaining : UInt32)
    (s : FsState σ) (hf : Formatted dev.totalBlocks s.superblock)
    (hr : remaining.toNat = src.length) (hn : n = (src.length + 511) / 512)
    (hroom : 3 + start.toNat + i + n ≤ dev.totalBlocks.toNat) :
    ∃ ok s', fsWriteBlocks dev start n i src remaining s = (ok, s') ∧ (dev.Succeeds → ok = true) ∧
      s'.superblock = s.superblock ∧
      (ok = true → a.volume s' = (a.volume s).setRange (3 + start.toNat + i) n
        (fun k => Block.ofBytes ((src.drop (512 * k)).take 512))) := by
  induction n generalizing i src remaining s with
  | zero => exact ⟨true,s,rfl,fun _ => rfl,rfl,fun _ => (Volume.setRange_zero _ _ _).symm⟩
  | succ n ih =>
    set chunk : UInt32 := if remaining > 512 then 512 else remaining with hchunk
    have hcn : chunk.toNat = min 512 remaining.toNat := chunk_toNat remaining
    have htake : src.take chunk.toNat = src.take 512 := by
      rw [hcn, hr]
      simp [List.take_eq_take_iff]
    set blk := Block.ofBytes (src.take chunk.toNat) with hblk
    have hlt := dev.totalBlocks.toNat_lt
    have habs := dataBlock_toNat (i := i) hf start (by omega)
    obtain ⟨ok,s1,hw,hok,hsb,hv⟩ := a.writeBlock_spec
      (if chunk < 512 then { s with blockBuf := blk } else s)
      (b := s.superblock.dataStartBlock + start + UInt32.ofNat i) blk
      (by rw [UInt32.lt_iff_toNat_lt, habs]; omega)
    have hvol : a.volume (if chunk < 512 then { s with blockBuf := blk } else s) = a.volume s := by
      split <;> rfl
    have hsb' : s1.superblock = s.superblock := by
      rw [hsb]
      split <;> rfl
    cases ok with
    | false =>
      refine ⟨false,s1,by simp only [fsWriteBlocks, ← hchunk, ← hblk, hw],?_,hsb',?_⟩
      · exact fun h => absurd (hok h) Bool.false_ne_true
      · exact fun h => absurd h Bool.false_ne_true
    | true =>
      obtain ⟨ok2,s2,he,hok2,hsb2,hv2⟩ := ih (i + 1) (src.drop chunk.toNat) (remaining - chunk)
        s1 (by rw [hsb']; exact hf) (by rw [hchunk, sub_chunk_toNat, ← hchunk, List.length_drop]; omega)
        (by rw [List.length_drop]; omega) (by omega)
      refine ⟨ok2,s2,?_,hok2,hsb2.trans hsb',fun h => ?_⟩
      · simp only [fsWriteBlocks, ← hchunk, ← hblk, hw]
        exact he
      · rw [hv2 h, hv, if_pos rfl, hvol, habs, ← Volume.setRange_succ _ (3 + start.toNat + i)]
        simp only [Nat.mul_zero, List.drop_zero, hblk, htake, Nat.add_assoc]
        congr 1
        funext k
        congr 2
        rw [List.drop_drop]
        by_cases hlong : src.length ≤ 512
        · rw [List.drop_of_length_le (by omega), List.drop_of_length_le (by omega)]
        · congr 1
          omega

namespace Reliable
variable (r : Reliable dev)

theorem fsWriteBlocks_spec (start : UInt32) (n : ℕ) (src : List UInt8) (remaining : UInt32)
    (s : FsState σ) (hf : Formatted dev.totalBlocks s.superblock)
    (hr : remaining.toNat = src.length) (hn : n = (src.length + 511) / 512)
    (hroom : 3 + start.toNat + n ≤ dev.totalBlocks.toNat) :
    ∃ s', fsWriteBlocks dev start n 0 src remaining s = (true, s') ∧
      r.volume s' = (r.volume s).setRange (3 + start.toNat) n
        (fun k => Block.ofBytes ((src.drop (512 * k)).take 512)) := by
  obtain ⟨ok,s',he,hok,_,hv⟩ := r.atomic.fsWriteBlocks_spec start n 0 src remaining s hf hr hn (by omega)
  obtain rfl := hok r.succeeds
  exact ⟨s',he,hv rfl⟩

theorem fsDeleteChildren_spec (s : FsState σ) (hf : Formatted dev.totalBlocks s.superblock)
    (hsmall : SmallEntries (r.volume s)) (name : List UInt8) (freed : UInt32) (h0 : freed = 0) :
    ∃ freed' s', fsDeleteChildren dev name freed s = (freed', s') ∧
      Cleared (r.volume s) (r.volume s') (childAt (r.volume s) name) ∧
      freed'.toNat = freedBlocks (r.volume s) name 32 := by
  set v := r.volume s with hv
  have hscan := r.scanEntries_spec (n := 32) (i := 0) (deleteBody dev name) freed s
    (fun i freed' w => Cleared v w (fun j => j < i ∧ childAt v name j) ∧
      freed'.toNat = freedBlocks v name i)
    (fun _ _ => False) (fun hp => by rw [hp.1.superblock]; exact hf) ?_ (by omega)
    ⟨⟨rfl,fun _ _ => rfl,fun j _ => by rw [if_neg (by omega)]⟩,by subst h0; rfl⟩
  · unfold fsDeleteChildren
    rcases hscan with ⟨b,_⟩ | ⟨freed',s',he,⟨hs,hb,hent⟩,ht⟩
    · exact b.elim
    · refine ⟨freed',s',by rw [show fsMaxEntries = 32 from rfl, he],⟨hs,hb,fun j hj => ?_⟩,ht⟩
      rw [hent j hj]
      simp [hj]
  · rintro i freed' s hi ⟨hcl,ht⟩
    have hei : (r.volume s).entry i = v.entry i := by
      rw [hcl.entry i hi, if_neg (by omega)]
    rw [hei]
    have hskip : ¬childAt v name i → Cleared v (r.volume s) (fun j => j < i + 1 ∧ childAt v name j) ∧
        freed'.toNat = freedBlocks v name (i + 1) := by
      intro hn
      refine ⟨⟨hcl.superblock,hcl.blocks,fun j hj => ?_⟩,?_⟩
      · rw [hcl.entry j hj]
        have : (j < i ∧ childAt v name j) ↔ (j < i + 1 ∧ childAt v name j) := by
          constructor
          · exact fun h => ⟨by omega,h.2⟩
          · rintro ⟨hj,hc⟩
            rcases Nat.lt_succ_iff_lt_or_eq.mp hj with hj | rfl
            · exact ⟨hj,hc⟩
            · exact absurd hc hn
        simp only [this]
      · rw [ht, freedBlocks, freedBlocks, Finset.sum_range_succ, if_neg hn, Nat.add_zero]
    by_cases hl : (v.entry i).type = fsTypeFree
    · exact Or.inr ⟨freed',s,by rw [deleteBody, if_pos hl],hskip (fun hc => hc.1 hl)⟩
    by_cases hc : isChild name (v.entry i) = true
    · obtain ⟨s2,hw,hv2⟩ := r.fsWriteEntry_spec s (by
        have : (r.volume s).superblock = v.superblock := hcl.superblock
        rw [show s.superblock = v.superblock from this]; exact hf) hi FsEntry.zero
      have hchild : childAt v name i := ⟨hl,hc⟩
      have hb := freedBlocks_le hsmall name (n := i + 1) (by omega)
      rw [freedBlocks, Finset.sum_range_succ, ← freedBlocks, if_pos hchild, ← ht] at hb
      refine Or.inr ⟨_,s2,by rw [deleteBody, if_neg hl, if_pos hc, hw],?_,?_⟩
      · rw [hv2]
        refine hcl.setEntry hi (fun j => ?_)
        constructor
        · rintro ⟨hj,hcj⟩
          rcases Nat.lt_succ_iff_lt_or_eq.mp hj with hj | rfl
          · exact Or.inl ⟨hj,hcj⟩
          · exact Or.inr rfl
        · rintro (⟨hj,hcj⟩ | rfl)
          · exact ⟨by omega,hcj⟩
          · exact ⟨by omega,hchild⟩
      · rw [add_blocks_toNat _ (by omega), ht, freedBlocks, freedBlocks, Finset.sum_range_succ,
          if_pos hchild]
    · exact Or.inr ⟨freed',s,by rw [deleteBody, if_neg hl, if_neg hc],hskip (fun h => hc h.2)⟩

end Reliable

end ApPa.Fs

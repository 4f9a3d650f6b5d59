import ApPa.Fs.Routines
import Mathlib.Order.Interval.Finset.Nat
import Mathlib.Data.Finset.Union

/-! # The consistency invariant of a SimpleFS volume

A directory is well formed when live names are distinct and the extents of its files
are disjoint and inside the part of the data region the allocator can reach. A volume
is consistent when, besides, its free count is the size of the data region less what
the files use and block 0 holds the in-memory superblock.
-/
namespace ApPa.Fs
open Klibc

/-- A directory, entry by entry, whose extents stay below `limit`. -/
structure DirOk (limit : ℕ) (es : ℕ → FsEntry) : Prop where
  typed : ∀ i < 32, (es i).typed
  small : ∀ i < 32, (es i).size.toNat < 2 ^ 24
  named : ∀ i < 32, (es i).live → 1 ≤ (es i).title.length ∧ (es i).title.length ≤ 23
  distinct : ∀ i < 32, ∀ j < 32, (es i).live → (es j).live → (es i).title = (es j).title → i = j
  dirEmpty : ∀ i < 32, (es i).type = fsTypeDir → (es i).size = 0
  inRegion : ∀ i < 32, ∀ b, (es i).covers b → b < limit
  disjoint : ∀ i < 32, ∀ j < 32, i ≠ j → ∀ b, (es i).covers b → ¬(es j).covers b

theorem FsEntry.not_covers_of_blockCount {e : FsEntry} (h : e.blockCount = 0) (b : ℕ) : ¬e.covers b := by
  rintro ⟨h1,h2⟩
  omega

@[simp] theorem FsEntry.zero_blockCount : FsEntry.zero.blockCount = 0 := by decide
theorem FsEntry.zero_not_live : ¬FsEntry.zero.live := by decide

namespace DirOk
variable {limit : ℕ} {es : ℕ → FsEntry}

theorem congr {fs : ℕ → FsEntry} (h : DirOk limit es) (he : ∀ i < 32, fs i = es i) : DirOk limit fs where
  typed i hi := by rw [he i hi]; exact h.typed i hi
  small i hi := by rw [he i hi]; exact h.small i hi
  named i hi := by rw [he i hi]; exact h.named i hi
  distinct i hi j hj := by rw [he i hi, he j hj]; exact h.distinct i hi j hj
  dirEmpty i hi := by rw [he i hi]; exact h.dirEmpty i hi
  inRegion i hi := by rw [he i hi]; exact h.inRegion i hi
  disjoint i hi j hj := by rw [he i hi, he j hj]; exact h.disjoint i hi j hj

theorem empty : DirOk limit (fun _ => FsEntry.zero) where
  typed _ _ := Or.inl rfl
  small _ _ := by decide
  named _ _ h := absurd h FsEntry.zero_not_live
  distinct _ _ _ _ h := absurd h FsEntry.zero_not_live
  dirEmpty _ _ _ := rfl
  inRegion _ _ b h := absurd h (FsEntry.not_covers_of_blockCount FsEntry.zero_blockCount b)
  disjoint _ _ _ _ _ b h := absurd h (FsEntry.not_covers_of_blockCount FsEntry.zero_blockCount b)

/-- What a new entry must satisfy to be stored in slot `i`. -/
structure Fits (limit : ℕ) (es : ℕ → FsEntry) (i : ℕ) (e : FsEntry) : Prop where
  typed : e.typed
  small : e.size.toNat < 2 ^ 24
  named : e.live → 1 ≤ e.title.length ∧ e.title.length ≤ 23
  distinct : ∀ j < 32, j ≠ i → e.live → (es j).live → (es j).title ≠ e.title
  dirEmpty : e.type = fsTypeDir → e.size = 0
  inRegion : ∀ b, e.covers b → b < limit
  disjoint : ∀ j < 32, j ≠ i → ∀ b, e.covers b → ¬(es j).covers b

theorem set (h : DirOk limit es) {i : ℕ} {e : FsEntry} (he : Fits limit es i e) :
    DirOk limit (fun j => if i = j then e else es j) where
  typed j hj := by split; exacts [he.typed, h.typed j hj]
  small j hj := by split; exacts [he.small, h.small j hj]
  named j hj := by split; exacts [he.named, h.named j hj]
  distinct j hj k hk := by
    split <;> split
    · rename_i h1 h2
      exact fun _ _ _ => h1.symm.trans h2
    · rename_i h1 h2
      exact fun hl hk' ht => absurd ht.symm (he.distinct k hk (Ne.symm h2) hl hk')
    · rename_i h1 h2
      exact fun hj' hl ht => absurd ht (he.distinct j hj (Ne.symm h1) hl hj')
    · exact h.distinct j hj k hk
  dirEmpty j hj := by split; exacts [he.dirEmpty, h.dirEmpty j hj]
  inRegion j hj := by split; exacts [he.inRegion, h.inRegion j hj]
  disjoint j hj k hk hjk := by
    split <;> split
    · rename_i h1 h2
      exact absurd (h1.symm.trans h2) hjk
    · rename_i h1 h2
      exact he.disjoint k hk (Ne.symm h2)
    · rename_i h1 h2
      exact fun b hc hc' => he.disjoint j hj (Ne.symm h1) b hc' hc
    · exact h.disjoint j hj k hk hjk

theorem clear (h : DirOk limit es) (p : ℕ → Prop) [DecidablePred p] :
    DirOk limit (fun j => if p j then FsEntry.zero else es j) where
  typed j hj := by split; exacts [Or.inl rfl, h.typed j hj]
  small j hj := by split; exacts [by decide, h.small j hj]
  named j hj := by split; exacts [fun hl => absurd hl FsEntry.zero_not_live, h.named j hj]
  distinct j hj k hk := by
    split
    · exact fun hl => absurd hl FsEntry.zero_not_live
    · split
      · exact fun _ hl => absurd hl FsEntry.zero_not_live
      · exact h.distinct j hj k hk
  dirEmpty j hj := by split; exacts [fun _ => rfl, h.dirEmpty j hj]
  inRegion j hj b := by
    split
    · exact fun hc => absurd hc (FsEntry.not_covers_of_blockCount FsEntry.zero_blockCount b)
    · exact h.inRegion j hj b
  disjoint j hj k hk hjk b := by
    split
    · exact fun hc => absurd hc (FsEntry.not_covers_of_blockCount FsEntry.zero_blockCount b)
    · split
      · exact fun _ => FsEntry.not_covers_of_blockCount FsEntry.zero_blockCount b
      · exact h.disjoint j hj k hk hjk b

theorem mono (h : DirOk limit es) {limit' : ℕ} (hl : limit ≤ limit') : DirOk limit' es :=
  { h with inRegion := fun i hi b hc => lt_of_lt_of_le (h.inRegion i hi b hc) hl }

/-- Disjoint extents below `limit` and a run that none of them covers fit below `limit`. -/
theorem sum_blockCount_add_le (h : DirOk limit es) {b n : ℕ} (hroom : b + n ≤ limit)
    (hfree : ∀ k < n, ∀ i < 32, ¬(es i).covers (b + k)) :
    ∑ i ∈ Finset.range 32, (es i).blockCount + n ≤ limit := by
  let extent (i : ℕ) : Finset ℕ :=
    Finset.Ico (es i).startBlock.toNat ((es i).startBlock.toNat + (es i).blockCount)
  have hmem : ∀ i b, b ∈ extent i ↔ (es i).covers b := fun i b => Finset.mem_Ico
  have hdisj : Set.PairwiseDisjoint (Finset.range 32 : Set ℕ) extent := by
    intro i hi j hj hij
    rw [Function.onFun, Finset.disjoint_left]
    intro b hb hb'
    exact h.disjoint i (by simpa using hi) j (by simpa using hj) hij b ((hmem i b).mp hb) ((hmem j b).mp hb')
  have hcard := Finset.card_biUnion hdisj
  have hapart : Disjoint ((Finset.range 32).biUnion extent) (Finset.Ico b (b + n)) := by
    rw [Finset.disjoint_left]
    intro x hx hrun
    obtain ⟨i,hi,hx⟩ := Finset.mem_biUnion.mp hx
    obtain ⟨hbx,hxn⟩ := Finset.mem_Ico.mp hrun
    have hno := hfree (x - b) (by omega) i (Finset.mem_range.mp hi)
    rw [Nat.add_sub_cancel' hbx] at hno
    exact hno ((hmem i x).mp hx)
  have hsub : (Finset.range 32).biUnion extent ∪ Finset.Ico b (b + n) ⊆ Finset.range limit := by
    intro x hx
    rcases Finset.mem_union.mp hx with hx | hx
    · obtain ⟨i,hi,hx⟩ := Finset.mem_biUnion.mp hx
      exact Finset.mem_range.mpr (h.inRegion i (Finset.mem_range.mp hi) x ((hmem i x).mp hx))
    · exact Finset.mem_range.mpr (lt_of_lt_of_le (Finset.mem_Ico.mp hx).2 hroom)
  have hle := Finset.card_le_card hsub
  rw [Finset.card_union_of_disjoint hapart, hcard, Finset.card_range] at hle
  simpa [extent] using hle

theorem sum_blockCount_le (h : DirOk limit es) : ∑ i ∈ Finset.range 32, (es i).blockCount ≤ limit := by
  have hle := h.sum_blockCount_add_le (b := 0) (n := 0) (Nat.zero_le _) (fun k hk => absurd hk (Nat.not_lt_zero k))
  rwa [Nat.add_zero] at hle

end DirOk

theorem sum_blockCount_set (es : ℕ → FsEntry) {i : ℕ} (hi : i < 32) (e : FsEntry) :
    (∑ j ∈ Finset.range 32, (if i = j then e else es j).blockCount) + (es i).blockCount =
      (∑ j ∈ Finset.range 32, (es j).blockCount) + e.blockCount := by
  have hm : i ∈ Finset.range 32 := Finset.mem_range.mpr hi
  rw [← Finset.add_sum_erase _ _ hm, ← Finset.add_sum_erase _ (fun j => (es j).blockCount) hm, if_pos rfl]
  have he : ∑ j ∈ (Finset.range 32).erase i, (if i = j then e else es j).blockCount =
      ∑ j ∈ (Finset.range 32).erase i, (es j).blockCount := by
    apply Finset.sum_congr rfl
    intro j hj
    rw [if_neg (Finset.ne_of_mem_erase hj).symm]
  rw [he]
  omega

theorem sum_blockCount_clear (es : ℕ → FsEntry) (p : ℕ → Prop) [DecidablePred p] (n : ℕ) :
    (∑ j ∈ Finset.range n, (if p j then FsEntry.zero else es j).blockCount) +
      (∑ j ∈ Finset.range n, if p j then (es j).blockCount else 0) =
      ∑ j ∈ Finset.range n, (es j).blockCount := by
  rw [← Finset.sum_add_distrib]
  apply Finset.sum_congr rfl
  intro j _
  split <;> simp

structure Consistent (total : UInt32) (v : Volume) : Prop where
  formatted : Formatted total v.superblock
  block0 : v.blocks 0 = v.superblock.encode
  dir : DirOk (extentLimit total) v.entry
  free : v.superblock.freeBlocks.toNat + ∑ i ∈ Finset.range 32, (v.entry i).blockCount =
    total.toNat - 3

theorem Consistent.smallEntries {total : UInt32} {v : Volume} (h : Consistent total v) : SmallEntries v :=
  fun i hi => ⟨h.dir.typed i hi,h.dir.small i hi⟩

/-- What the file system needs to find its files again: a superblock it accepts, in memory
and on the device, and a directory with distinct names and disjoint extents in the data
region. The free count may be anything. -/
structure Sound (total : UInt32) (v : Volume) : Prop where
  formatted : Formatted total v.superblock
  mountable : Formatted total (Superblock.decode (v.blocks 0))
  dir : DirOk (total.toNat - 3) v.entry

theorem Sound.smallEntries {total : UInt32} {v : Volume} (h : Sound total v) : SmallEntries v :=
  fun i hi => ⟨h.dir.typed i hi,h.dir.small i hi⟩

theorem Consistent.sound {total : UInt32} {v : Volume} (h : Consistent total v) : Sound total v where
  formatted := h.formatted
  mountable := by
    rw [h.block0, Superblock.decode_encode]
    exact h.formatted
  dir := h.dir.mono (extentLimit_le total).2

def Volume.flush (v : Volume) (freeBlocks : UInt32) : Volume :=
  ({ v with superblock := { v.superblock with freeBlocks } } : Volume).setBlock 0
    ({ v.superblock with freeBlocks } : Superblock).encode

@[simp] theorem Volume.flush_entry (v : Volume) (fb : UInt32) (i : ℕ) :
    (v.flush fb).entry i = v.entry i := by
  simp only [Volume.entry, Volume.flush, Volume.setBlock]
  rw [Function.update_of_ne (by omega)]

theorem Volume.flush_blocks (v : Volume) (fb : UInt32) {b : ℕ} (hb : b ≠ 0) :
    (v.flush fb).blocks b = v.blocks b := Function.update_of_ne hb _ _

theorem Consistent.of_flush {total : UInt32} {v : Volume} (hf : Formatted total v.superblock)
    (hd : DirOk (extentLimit total) v.entry) {fb : UInt32}
    (hfree : fb.toNat + ∑ i ∈ Finset.range 32, (v.entry i).blockCount = total.toNat - 3) :
    Consistent total (v.flush fb) where
  formatted := ⟨hf.magic,hf.total_eq,hf.dirStart,hf.dataStart,hf.three_le⟩
  block0 := by simp [Volume.flush, Volume.setBlock]
  dir := hd.congr (fun i _ => v.flush_entry fb i)
  free := by
    simp only [Volume.flush_entry]
    exact hfree

variable {σ : Type} {dev : BlockDevice σ} (r : Reliable dev)

theorem Reliable.flush_spec (s : FsState σ) (hf : Formatted dev.totalBlocks s.superblock) (fb : UInt32) :
    ∃ ok s', fsFlushSuperblock dev { s with superblock := { s.superblock with freeBlocks := fb } } =
      (ok, s') ∧ r.volume s' = (r.volume s).flush fb := by
  have h3 := hf.three_le
  obtain ⟨s',hw,_,hv⟩ := r.writeBlock_spec
    { s with superblock := { s.superblock with freeBlocks := fb } } (b := 0)
    ({ s.superblock with freeBlocks := fb } : Superblock).encode
    (by rw [UInt32.lt_iff_toNat_lt]; change 0 < _; omega)
  exact ⟨true,s',hw,hv⟩

end ApPa.Fs

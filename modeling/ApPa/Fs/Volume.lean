import ApPa.Fs.SimpleFs
import Mathlib.Algebra.BigOperators.Group.Finset.Basic
import Mathlib.Data.Finset.Card

/-! # SimpleFS on a device that does not fail

On such a device the state of the filesystem is its volume: the blocks and the
in-memory superblock. Each routine is described by the volume it leaves behind and
the answer it gives; the device state and the scratch buffer play no further part.
-/
namespace ApPa.Fs
open Klibc BitTable

variable {σ : Type} {dev : BlockDevice σ}

/-- In-range reads succeed and give the contents of a store of blocks. -/
structure Readable (dev : BlockDevice σ) where
  contents : σ → ℕ → Block
  read_ok : ∀ (b : UInt32) (d : σ), b < dev.totalBlocks →
    ∃ d', dev.read b d = (some (contents d b.toNat), d') ∧ contents d' = contents d

/-- Reads succeed; a write is applied whole or reports failure and changes nothing. -/
structure Atomic (dev : BlockDevice σ) extends Readable dev where
  write_or : ∀ (b : UInt32) (blk : Block) (d : σ), b < dev.totalBlocks → ∃ ok d', dev.write b blk d = (ok, d') ∧
    contents d' = if ok then Function.update (contents d) b.toNat blk else contents d

/-- No in-range write fails. -/
def BlockDevice.Succeeds (dev : BlockDevice σ) : Prop :=
  ∀ (b : UInt32) (blk : Block) (d : σ), b < dev.totalBlocks → (dev.write b blk d).1 = true

/-- In-range reads and writes succeed and act on a store of blocks. -/
structure Reliable (dev : BlockDevice σ) extends Readable dev where
  write_ok : ∀ (b : UInt32) (blk : Block) (d : σ), b < dev.totalBlocks →
    ∃ d', dev.write b blk d = (true, d') ∧ contents d' = Function.update (contents d) b.toNat blk

theorem Reliable.succeeds (r : Reliable dev) : dev.Succeeds := by
  intro b blk d hb
  obtain ⟨d',he,_⟩ := r.write_ok b blk d hb
  rw [he]

def Reliable.atomic (r : Reliable dev) : Atomic dev where
  toReadable := r.toReadable
  write_or b blk d hb := by
    obtain ⟨d',he,hc⟩ := r.write_ok b blk d hb
    exact ⟨true,d',he,hc⟩

@[ext] structure Volume where
  blocks : ℕ → Block
  superblock : Superblock

namespace Volume

def setBlock (v : Volume) (b : ℕ) (blk : Block) : Volume :=
  { v with blocks := Function.update v.blocks b blk }

def entry (v : Volume) (i : ℕ) : FsEntry := (v.blocks (1 + i / 16)).entry i

def setEntry (v : Volume) (i : ℕ) (e : FsEntry) : Volume :=
  v.setBlock (1 + i / 16) ((v.blocks (1 + i / 16)).setEntry i e)

@[simp] theorem setEntry_superblock (v : Volume) (i : ℕ) (e : FsEntry) :
    (v.setEntry i e).superblock = v.superblock := rfl

theorem setEntry_blocks_of_ge (v : Volume) {i : ℕ} (hi : i < 32) (e : FsEntry) {b : ℕ} (hb : 3 ≤ b) :
    (v.setEntry i e).blocks b = v.blocks b :=
  Function.update_of_ne (by omega) _ _

theorem setEntry_blocks_zero (v : Volume) (i : ℕ) (e : FsEntry) :
    (v.setEntry i e).blocks 0 = v.blocks 0 := Function.update_of_ne (by omega) _ _

def setRange (v : Volume) (base n : ℕ) (f : ℕ → Block) : Volume :=
  { v with blocks := fun b => if base ≤ b ∧ b < base + n then f (b - base) else v.blocks b }

theorem setRange_zero (v : Volume) (base : ℕ) (f : ℕ → Block) : v.setRange base 0 f = v := by
  ext1
  · funext b
    exact if_neg (by omega)
  · rfl

theorem setRange_succ (v : Volume) (base n : ℕ) (f : ℕ → Block) :
    (v.setBlock base (f 0)).setRange (base + 1) n (fun k => f (k + 1)) = v.setRange base (n + 1) f := by
  ext1
  · funext b
    simp only [setRange, setBlock]
    by_cases hb : b = base
    · subst hb
      rw [if_neg (by omega), if_pos (by omega), Function.update_self, Nat.sub_self]
    · rw [Function.update_of_ne hb]
      by_cases hr : base + 1 ≤ b ∧ b < base + 1 + n
      · rw [if_pos hr, if_pos (by omega), show b - (base + 1) + 1 = b - base by omega]
      · rw [if_neg hr, if_neg (by omega)]
  · rfl

def data (v : Volume) : ℕ → ℕ → List UInt8
  | _, 0 => []
  | base, n + 1 => (v.blocks base).bytes ++ data v (base + 1) n

@[simp] theorem data_length (v : Volume) (base n : ℕ) : (v.data base n).length = 512 * n := by
  induction n generalizing base with
  | zero => rfl
  | succ n ih =>
    rw [data, List.length_append, ih, (v.blocks base).length_eq, blockSize]
    omega

theorem data_add (v : Volume) (base m n : ℕ) :
    v.data base (m + n) = v.data base m ++ v.data (base + m) n := by
  induction m generalizing base with
  | zero => simp [data]
  | succ m ih =>
    rw [Nat.succ_add_eq_add_succ, Nat.add_comm m (n + 1), Nat.add_right_comm, Nat.add_comm n m]
    simp only [data, ih, List.append_assoc]
    rw [Nat.add_assoc base 1 m, Nat.add_comm 1 m]

theorem data_take (v : Volume) (base : ℕ) {m n k : ℕ} (hmn : m ≤ n) (hk : k ≤ 512 * m) :
    (v.data base n).take k = (v.data base m).take k := by
  obtain ⟨d,rfl⟩ := Nat.exists_eq_add_of_le hmn
  rw [data_add, List.take_append_of_le_length (by rw [data_length]; exact hk)]

theorem data_congr {v w : Volume} {base n : ℕ}
    (h : ∀ b, base ≤ b → b < base + n → v.blocks b = w.blocks b) : v.data base n = w.data base n := by
  induction n generalizing base with
  | zero => rfl
  | succ n ih =>
    rw [data, data, h base (by omega) (by omega), ih (fun b hb hl => h b (by omega) (by omega))]

theorem data_of_chunks {v : Volume} (base : ℕ) {n : ℕ} (bytes : List UInt8) (hn : n = (bytes.length + 511) / 512)
    (h : ∀ k < n, v.blocks (base + k) = Block.ofBytes ((bytes.drop (512 * k)).take 512)) :
    (v.data base n).take bytes.length = bytes := by
  induction n generalizing base bytes with
  | zero =>
    obtain rfl : bytes = [] := List.length_eq_zero_iff.mp (by omega)
    rfl
  | succ n ih =>
    have hb : (v.blocks base).bytes = (bytes.take 512 ++ List.replicate 512 0).take 512 := by
      have h0 := h 0 (by omega)
      rw [Nat.add_zero, Nat.mul_zero, List.drop_zero] at h0
      rw [h0]
      rfl
    have ih' := ih (base + 1) (bytes.drop 512) (by rw [List.length_drop]; omega)
      (fun k hk => by
        rw [Nat.add_assoc, h (1 + k) (by omega), List.drop_drop]
        congr 3
        omega)
    rw [data, hb]
    by_cases hlong : bytes.length ≤ 512
    · rw [List.take_append_of_le_length
          (by simp only [List.length_take, List.length_append, List.length_replicate]; omega),
        List.take_take, Nat.min_eq_left hlong, List.take_of_length_le hlong, List.take_left]
    · have hfull : (bytes.take 512 ++ List.replicate 512 0).take 512 = bytes.take 512 := by
        rw [List.take_append_of_le_length (by simp; omega), List.take_take, Nat.min_self]
      rw [hfull, List.take_append, List.take_of_length_le (by simp), List.length_take,
        Nat.min_eq_left (by omega), ← List.length_drop, ih', List.take_append_drop]

end Volume

theorem Block.entry_setEntry_self (b : Block) (i : ℕ) (e : FsEntry) : (b.setEntry i e).entry i = e := by
  have hs : (b.setEntry i e).slice (entryOffset i) 32 = e.encode := by
    have h := b.slice_splice_self (entryOffset i) e.encode
      (by rw [FsEntry.encode_length]; exact entryOffset_le i)
    simpa only [Block.setEntry, FsEntry.encode_length] using h
  simp only [Block.entry, hs]
  exact e.decode_encode

theorem Block.entry_setEntry_of_ne (b : Block) {i j : ℕ} (e : FsEntry) (h : i % 16 ≠ j % 16) :
    (b.setEntry i e).entry j = b.entry j := by
  have hs : (b.setEntry i e).slice (entryOffset j) 32 = b.slice (entryOffset j) 32 := by
    apply Block.slice_splice_of_disjoint
    simp only [FsEntry.encode_length, entryOffset, fsEntriesPerBlock]
    omega
  simp only [Block.entry, hs]

@[simp] theorem Block.entry_zero (i : ℕ) : Block.zero.entry i = FsEntry.zero := by
  have h : i % 16 < 16 := Nat.mod_lt _ (by decide)
  have hs : Block.zero.slice (entryOffset i) 32 = FsEntry.zero.encode := by
    have he : FsEntry.zero.encode = List.replicate 32 0 := by decide
    simp only [Block.slice, Block.zero, entryOffset, fsEntriesPerBlock, blockSize, he,
      List.drop_replicate, List.take_replicate]
    congr 1
    omega
  simp only [Block.entry, hs]
  exact FsEntry.zero.decode_encode

theorem Volume.entry_setEntry (v : Volume) (i j : ℕ) (e : FsEntry) :
    (v.setEntry i e).entry j = if i = j then e else v.entry j := by
  by_cases hij : i = j
  · subst hij
    rw [if_pos rfl]
    simp [Volume.entry, Volume.setEntry, Volume.setBlock, Block.entry_setEntry_self]
  · rw [if_neg hij]
    simp only [Volume.entry, Volume.setEntry, Volume.setBlock]
    by_cases hb : i / 16 = j / 16
    · rw [← hb, Function.update_self]
      exact Block.entry_setEntry_of_ne _ e (by omega)
    · rw [Function.update_of_ne (by omega)]

/-- The superblock fields that formatting fixes for good. -/
structure Formatted (total : UInt32) (sb : Superblock) : Prop where
  magic : sb.magic = fsMagic
  total_eq : sb.totalBlocks = total
  dirStart : sb.dirStartBlock = 1
  dataStart : sb.dataStartBlock = 3
  three_le : 3 ≤ total.toNat

theorem Formatted.sub_toNat {total : UInt32} {sb : Superblock} (h : Formatted total sb) :
    (sb.totalBlocks - sb.dataStartBlock).toNat = total.toNat - 3 := by
  have h3 := h.three_le
  rw [h.total_eq, h.dataStart, UInt32.toNat_sub_of_le]
  · rfl
  · rw [UInt32.le_iff_toNat_le]
    change 3 ≤ total.toNat
    omega

theorem entryBlock_toNat {total : UInt32} {s : FsState σ} (hf : Formatted total s.superblock) {i : ℕ}
    (hi : i < 32) : (entryBlock s i).toNat = 1 + i / 16 := by
  rw [entryBlock, hf.dirStart, fsEntriesPerBlock]
  simp only [UInt32.toNat_add, UInt32.toNat_ofNat']
  rw [show (1 : UInt32).toNat = 1 from rfl]
  omega

theorem entryBlock_lt {total : UInt32} {s : FsState σ} (hf : Formatted total s.superblock) {i : ℕ}
    (hi : i < 32) : entryBlock s i < total := by
  have h3 := hf.three_le
  rw [UInt32.lt_iff_toNat_lt, entryBlock_toNat hf hi]
  omega

/-- Loop rule for directory scans on any device: an invariant that one iteration keeps,
whether the entry can be read or not, holds when the scan runs to its end, and whatever an
early exit establishes holds when it stops there. -/
theorem scanEntries_rule {α β : Type} (dev : BlockDevice σ) (body : ℕ → FsEntry → α → FsState σ → (β ⊕ α) × FsState σ)
    (P : ℕ → α → FsState σ → Prop) (Q : β → FsState σ → Prop) {m : ℕ}
    (hskip : ∀ i acc s s', i < m → P i acc s → fsReadEntry dev i s = (none, s') → P (i + 1) acc s')
    (hbody : ∀ i e acc s s', i < m → P i acc s → fsReadEntry dev i s = (some e, s') →
      (∃ b s'', body i e acc s' = (.inl b, s'') ∧ Q b s'') ∨
      (∃ acc' s'', body i e acc s' = (.inr acc', s'') ∧ P (i + 1) acc' s''))
    (acc : α) (s : FsState σ) {n i : ℕ} (hn : i + n = m) (hs : P i acc s) :
    (∃ b s', scanEntries dev body n i acc s = (.inl b, s') ∧ Q b s') ∨
    (∃ acc' s', scanEntries dev body n i acc s = (.inr acc', s') ∧ P m acc' s') := by
  induction n generalizing i acc s with
  | zero => exact Or.inr ⟨acc,s,rfl,hn ▸ hs⟩
  | succ n ih =>
    cases hr : fsReadEntry dev i s with
    | mk entry s1 =>
      cases entry with
      | none =>
        have h := ih acc s1 (by omega) (hskip i acc s s1 (by omega) hs hr)
        simpa only [scanEntries, hr] using h
      | some e =>
        rcases hbody i e acc s s1 (by omega) hs hr with ⟨b,s2,hb,hq⟩ | ⟨acc',s2,hb,hp⟩
        · exact Or.inl ⟨b,s2,by simp only [scanEntries, hr, hb],hq⟩
        · have h := ih acc' s2 (by omega) hp
          simpa only [scanEntries, hr, hb] using h

namespace Readable
variable (r : Readable dev)

def volume (s : FsState σ) : Volume := ⟨r.contents s.disk, s.superblock⟩

theorem readBlock_spec (s : FsState σ) {b : UInt32} (hb : b < dev.totalBlocks) :
    ∃ s', readBlock dev b s = (true, s') ∧ s'.blockBuf = (r.volume s).blocks b.toNat ∧
      r.volume s' = r.volume s := by
  obtain ⟨d',he,hc⟩ := r.read_ok b s.disk hb
  refine ⟨{ s with disk := d', blockBuf := r.contents s.disk b.toNat },?_,rfl,?_⟩
  · simp [readBlock, he]
  · simp [volume, hc]

theorem fsReadEntry_spec (s : FsState σ) (hf : Formatted dev.totalBlocks s.superblock) {i : ℕ}
    (hi : i < 32) :
    ∃ s', fsReadEntry dev i s = (some ((r.volume s).entry i), s') ∧ r.volume s' = r.volume s := by
  obtain ⟨s',he,hbuf,hv⟩ := r.readBlock_spec s (entryBlock_lt hf hi)
  refine ⟨s',?_,hv⟩
  rw [fsReadEntry, if_neg (by simp [fsMaxEntries, fsDirBlocks, fsEntriesPerBlock]; omega), he]
  simp only [hbuf, entryBlock_toNat hf hi]
  rfl

theorem scanEntries_spec {α β : Type} (body : ℕ → FsEntry → α → FsState σ → (β ⊕ α) × FsState σ)
    (acc : α) (s : FsState σ) (P : ℕ → α → Volume → Prop) (Q : β → Volume → Prop)
    (hP : ∀ {i acc v}, P i acc v → Formatted dev.totalBlocks v.superblock)
    (hbody : ∀ i acc s, i < 32 → P i acc (r.volume s) →
      (∃ b s', body i ((r.volume s).entry i) acc s = (.inl b, s') ∧ Q b (r.volume s')) ∨
      (∃ acc' s', body i ((r.volume s).entry i) acc s = (.inr acc', s') ∧
        P (i + 1) acc' (r.volume s')))
    {n i : ℕ} (hn : i + n = 32) (hs : P i acc (r.volume s)) :
    (∃ b s', scanEntries dev body n i acc s = (.inl b, s') ∧ Q b (r.volume s')) ∨
    (∃ acc' s', scanEntries dev body n i acc s = (.inr acc', s') ∧ P 32 acc' (r.volume s')) := by
  refine scanEntries_rule dev body (fun i acc s => P i acc (r.volume s)) (fun b s => Q b (r.volume s))
    ?_ ?_ acc s hn hs
  · intro i acc s s' hi hp hr
    obtain ⟨s1,he,_⟩ := r.fsReadEntry_spec s (hP hp) hi
    rw [he] at hr
    cases hr
  · intro i e acc s s' hi hp hr
    obtain ⟨s1,he,hv⟩ := r.fsReadEntry_spec s (hP hp) hi
    rw [he] at hr
    cases hr
    rw [← hv] at hp ⊢
    exact hbody i acc s' hi hp

end Readable

namespace Atomic
variable (a : Atomic dev)

theorem writeBlock_spec (s : FsState σ) {b : UInt32} (blk : Block) (hb : b < dev.totalBlocks) :
    ∃ ok s', writeBlock dev b blk s = (ok, s') ∧ (dev.Succeeds → ok = true) ∧ s'.superblock = s.superblock ∧
      a.volume s' = if ok then (a.volume s).setBlock b.toNat blk else a.volume s := by
  obtain ⟨ok,d',he,hc⟩ := a.write_or b blk s.disk hb
  refine ⟨ok,{ s with disk := d' },by simp [writeBlock, he],fun h => ?_,rfl,?_⟩
  · have hok := h b blk s.disk hb
    rw [he] at hok
    exact hok
  · cases ok with
    | true => simp only [Readable.volume, Volume.setBlock, hc, if_true]
    | false => simp only [Readable.volume, hc, Bool.false_eq_true, if_false]

theorem fsWriteEntry_spec (s : FsState σ) (hf : Formatted dev.totalBlocks s.superblock) {i : ℕ}
    (hi : i < 32) (e : FsEntry) :
    ∃ ok s', fsWriteEntry dev i e s = (ok, s') ∧ (dev.Succeeds → ok = true) ∧ s'.superblock = s.superblock ∧
      a.volume s' = if ok then (a.volume s).setEntry i e else a.volume s := by
  obtain ⟨s1,he,hbuf,hv⟩ := a.readBlock_spec s (entryBlock_lt hf hi)
  have hsb : s1.superblock = s.superblock := congrArg Volume.superblock hv
  obtain ⟨ok,s2,hw,hok,hs2,hv2⟩ := a.writeBlock_spec { s1 with blockBuf := s1.blockBuf.setEntry i e }
    (b := entryBlock s i) (s1.blockBuf.setEntry i e) (entryBlock_lt hf hi)
  refine ⟨ok,s2,?_,hok,hs2.trans hsb,?_⟩
  · rw [fsWriteEntry, if_neg (by simp [fsMaxEntries, fsDirBlocks, fsEntriesPerBlock]; omega), he]
    simp only [entryBlock, hsb] at hw ⊢
    exact hw
  · have hv1 : a.volume { s1 with blockBuf := s1.blockBuf.setEntry i e } = a.volume s := hv
    rw [hv2, hv1, hbuf, entryBlock_toNat hf hi]
    rfl

end Atomic

namespace Reliable
variable (r : Reliable dev)

theorem writeBlock_spec (s : FsState σ) {b : UInt32} (blk : Block) (hb : b < dev.totalBlocks) :
    ∃ s', writeBlock dev b blk s = (true, s') ∧ s'.superblock = s.superblock ∧
      r.volume s' = (r.volume s).setBlock b.toNat blk := by
  obtain ⟨ok,s',he,hok,hsb,hv⟩ := r.atomic.writeBlock_spec s blk hb
  obtain rfl := hok r.succeeds
  exact ⟨s',he,hsb,hv⟩

theorem fsWriteEntry_spec (s : FsState σ) (hf : Formatted dev.totalBlocks s.superblock) {i : ℕ}
    (hi : i < 32) (e : FsEntry) :
    ∃ s', fsWriteEntry dev i e s = (true, s') ∧ r.volume s' = (r.volume s).setEntry i e := by
  obtain ⟨ok,s',he,hok,_,hv⟩ := r.atomic.fsWriteEntry_spec s hf hi e
  obtain rfl := hok r.succeeds
  exact ⟨s',he,hv⟩

end Reliable

end ApPa.Fs

import ApPa.Fs.Refinement

/-! # A disk that fails and remembers

The disk answers each attempt to read or write as a fault pattern says. An attempt that
fails changes nothing; every write that is applied leaves the contents before it in the
history, so the history holds all the states in which a crash can leave the device.
-/
namespace ApPa.Fs
open Klibc

structure Disk where
  blocks : ℕ → Block
  /-- Attempts to read and to write so far. -/
  reads : ℕ
  writes : ℕ
  /-- For each write applied, the latest first: its block and the contents before it. -/
  history : List (ℕ × (ℕ → Block))

/-- Which attempts fail, by number. -/
structure Faults where
  read : ℕ → Bool
  write : ℕ → Bool

def Faults.none : Faults := ⟨fun _ => false,fun _ => false⟩

namespace Disk

def new (blocks : ℕ → Block) : Disk := ⟨blocks,0,0,[]⟩

/-- All the contents the disk has had, the latest first. -/
def seen (d : Disk) : List (ℕ → Block) := d.blocks :: d.history.map Prod.snd

/-- After a write that is applied and one that is refused. -/
def put (d : Disk) (b : ℕ) (blk : Block) : Disk where
  blocks := Function.update d.blocks b blk
  reads := d.reads
  writes := d.writes + 1
  history := (b,d.blocks) :: d.history

def refused (d : Disk) : Disk := { d with writes := d.writes + 1 }

def after (d : Disk) (n : ℕ) : Disk := { d with reads := d.reads + n }

@[simp] theorem after_reads (d : Disk) (n : ℕ) : (d.after n).reads = d.reads + n := rfl
@[simp] theorem after_writes (d : Disk) (n : ℕ) : (d.after n).writes = d.writes := rfl
@[simp] theorem after_after (d : Disk) (m n : ℕ) : (d.after m).after n = d.after (m + n) := by
  simp only [after, Nat.add_assoc]

theorem seen_put (d : Disk) (b : ℕ) (blk : Block) :
    (d.put b blk).seen = Function.update d.blocks b blk :: d.seen := rfl

theorem seen_refused (d : Disk) : d.refused.seen = d.seen := rfl
theorem seen_after (d : Disk) (n : ℕ) : (d.after n).seen = d.seen := rfl

end Disk

def disk (totalBlocks : UInt32) (faults : Faults) : BlockDevice Disk where
  read b d :=
    if b < totalBlocks ∧ faults.read d.reads = false then (some (d.blocks b.toNat), d.after 1) else (Option.none, d.after 1)
  write b blk d :=
    if b < totalBlocks ∧ faults.write d.writes = false then (true, d.put b.toNat blk) else (false, d.refused)
  totalBlocks := totalBlocks

section
variable {total : UInt32} {read write : ℕ → Bool} {b : UInt32} {blk : Block} {d : Disk}

theorem disk_write_put (hb : b < total) (hw : write d.writes = false) :
    (disk total ⟨read,write⟩).write b blk d = (true, d.put b.toNat blk) := if_pos ⟨hb,hw⟩

theorem disk_write_refused (hw : write d.writes = true) :
    (disk total ⟨read,write⟩).write b blk d = (false, d.refused) :=
  if_neg fun hc => Bool.false_ne_true (hc.2.symm.trans hw)

variable {superblock : Superblock} {blockBuf : Block}

theorem writeBlock_put (hb : b < total) (hw : write d.writes = false) :
    writeBlock (disk total ⟨read,write⟩) b blk ⟨d,superblock,blockBuf⟩ =
      (true, ⟨d.put b.toNat blk,superblock,blockBuf⟩) := by
  simp only [writeBlock, disk_write_put hb hw]

theorem writeBlock_refused (hw : write d.writes = true) :
    writeBlock (disk total ⟨read,write⟩) b blk ⟨d,superblock,blockBuf⟩ = (false, ⟨d.refused,superblock,blockBuf⟩) := by
  simp only [writeBlock, disk_write_refused hw]

end

theorem writeBlock_disk (total : UInt32) (faults : Faults) (b : UInt32) (blk : Block) (s : FsState Disk) :
    writeBlock (disk total faults) b blk s = (true, { s with disk := s.disk.put b.toNat blk }) ∨
      ¬(b < total ∧ faults.write s.disk.writes = false) ∧
        writeBlock (disk total faults) b blk s = (false, { s with disk := s.disk.refused }) := by
  by_cases h : b < total ∧ faults.write s.disk.writes = false
  · exact Or.inl (by simp only [writeBlock, disk, if_pos h])
  · exact Or.inr ⟨h,by simp only [writeBlock, disk, if_neg h]⟩

theorem fsWriteBlocks_turn (total : UInt32) (faults : Faults) (start : UInt32) (n i : ℕ) (src : List UInt8)
    (remaining : UInt32) (s : FsState Disk) :
    ∃ s', s'.superblock = s.superblock ∧
      ((∃ blk src' remaining', s'.disk =
            s.disk.put (s.superblock.dataStartBlock + start + UInt32.ofNat i).toNat blk ∧
          fsWriteBlocks (disk total faults) start (n + 1) i src remaining s =
            fsWriteBlocks (disk total faults) start n (i + 1) src' remaining' s') ∨
        (¬(s.superblock.dataStartBlock + start + UInt32.ofNat i < total ∧ faults.write s.disk.writes = false) ∧
          s'.disk = s.disk.refused ∧ fsWriteBlocks (disk total faults) start (n + 1) i src remaining s = (false, s'))) := by
  rw [fsWriteBlocks]
  generalize (if remaining > 512 then (512 : UInt32) else remaining) = chunk
  generalize hs0 : (if chunk < 512 then
    ({ s with blockBuf := Block.ofBytes (src.take chunk.toNat) } : FsState Disk) else s) = s0
  have hkeep : s0.superblock = s.superblock ∧ s0.disk = s.disk := by
    rw [← hs0]
    split <;> exact ⟨rfl,rfl⟩
  rcases writeBlock_disk total faults (s.superblock.dataStartBlock + start + UInt32.ofNat i)
    (Block.ofBytes (src.take chunk.toNat)) s0 with hw | ⟨hno,hw⟩
  · rw [hw]
    exact ⟨{ s0 with disk := s0.disk.put _ _ },hkeep.1,Or.inl ⟨_,_,_,congrArg (fun d : Disk => d.put _ _) hkeep.2,rfl⟩⟩
  · rw [hw]
    rw [hkeep.2] at hno
    exact ⟨{ s0 with disk := s0.disk.refused },hkeep.1,Or.inr ⟨hno,congrArg Disk.refused hkeep.2,rfl⟩⟩

/-- A disk on which only writes fail. -/
def diskAtomic (total : UInt32) (write : ℕ → Bool) : Atomic (disk total ⟨fun _ => false,write⟩) where
  contents := Disk.blocks
  read_ok _ _ hb := ⟨_,if_pos ⟨hb,rfl⟩,rfl⟩
  write_or b blk d hb := by
    cases hw : write d.writes with
    | false => exact ⟨true,_,disk_write_put hb hw,rfl⟩
    | true => exact ⟨false,_,disk_write_refused hw,rfl⟩

def diskReliable (total : UInt32) : Reliable (disk total .none) where
  contents := Disk.blocks
  read_ok _ _ hb := ⟨_,if_pos ⟨hb,rfl⟩,rfl⟩
  write_ok _ _ _ hb := ⟨_,if_pos ⟨hb,rfl⟩,rfl⟩

/-- The volume a state of the disk stands for. -/
def FsState.volume (s : FsState Disk) : Volume := ⟨s.disk.blocks,s.superblock⟩

def mounted (v : Volume) (blockBuf : Block) : FsState Disk := ⟨Disk.new v.blocks,v.superblock,blockBuf⟩

theorem mounted_volume (v : Volume) (blockBuf : Block) : (mounted v blockBuf).volume = v := rfl

section scans
variable {total : UInt32} (read write : ℕ → Bool) (s : FsState Disk)

theorem fsReadEntry_disk (hf : Formatted total s.superblock) {i : ℕ} (hi : i < 32) :
    ∃ s', fsReadEntry (disk total ⟨read,write⟩) i s =
        (if read s.disk.reads then Option.none else some (s.volume.entry i), s') ∧
      s'.disk = s.disk.after 1 ∧ s'.superblock = s.superblock := by
  have hb := entryBlock_lt hf hi
  unfold fsReadEntry readBlock
  rw [if_neg (by simp [fsMaxEntries, fsDirBlocks, fsEntriesPerBlock]; omega)]
  cases hr : read s.disk.reads with
  | true =>
    rw [show (disk total ⟨read,write⟩).read (entryBlock s i) s.disk = (Option.none, s.disk.after 1) from
      if_neg fun hc => Bool.false_ne_true (hc.2.symm.trans hr)]
    exact ⟨_,rfl,rfl,rfl⟩
  | false =>
    rw [show (disk total ⟨read,write⟩).read (entryBlock s i) s.disk =
      (some (s.disk.blocks (entryBlock s i).toNat), s.disk.after 1) from if_pos ⟨hb,hr⟩, entryBlock_toNat hf hi]
    exact ⟨_,rfl,rfl,rfl⟩

theorem fsWriteEntry_disk (hf : Formatted total s.superblock) {i : ℕ} (hi : i < 32) (e : FsEntry) :
    ∃ ok s', fsWriteEntry (disk total ⟨read,write⟩) i e s = (ok, s') ∧ s'.superblock = s.superblock ∧
      (ok = true ↔ read s.disk.reads = false ∧ write s.disk.writes = false) ∧
      (ok = true → s'.disk = (s.disk.after 1).put (1 + i / 16) ((s.disk.blocks (1 + i / 16)).setEntry i e)) ∧
      (ok = false → s'.disk.blocks = s.disk.blocks ∧ s'.disk.history = s.disk.history) := by
  have hb := entryBlock_lt hf hi
  unfold fsWriteEntry readBlock
  rw [if_neg (by simp [fsMaxEntries, fsDirBlocks, fsEntriesPerBlock]; omega)]
  cases hr : read s.disk.reads with
  | true =>
    rw [show (disk total ⟨read,write⟩).read (entryBlock s i) s.disk = (Option.none, s.disk.after 1) from
      if_neg fun hc => Bool.false_ne_true (hc.2.symm.trans hr)]
    exact ⟨false,_,rfl,rfl,by simp,fun h => absurd h Bool.false_ne_true,fun _ => ⟨rfl,rfl⟩⟩
  | false =>
    rw [show (disk total ⟨read,write⟩).read (entryBlock s i) s.disk =
      (some (s.disk.blocks (entryBlock s i).toNat), s.disk.after 1) from if_pos ⟨hb,hr⟩, entryBlock_toNat hf hi]
    dsimp only
    rw [show entryBlock ⟨s.disk.after 1,s.superblock,(s.disk.blocks (1 + i / 16)).setEntry i e⟩ i = entryBlock s i from rfl]
    cases hw : write (s.disk.after 1).writes with
    | true =>
      rw [writeBlock_refused hw]
      rw [Disk.after_writes] at hw
      exact ⟨false,_,rfl,rfl,by simp [hw],fun h => absurd h Bool.false_ne_true,fun _ => ⟨rfl,rfl⟩⟩
    | false =>
      rw [writeBlock_put hb hw]
      rw [Disk.after_writes] at hw
      refine ⟨true,_,rfl,rfl,by simp [hw],fun _ => ?_,fun h => absurd h.symm Bool.false_ne_true⟩
      exact congrArg (fun b => (s.disk.after 1).put b _) (entryBlock_toNat hf hi)

/-- Loop rule for scans that leave the state alone: entry `i` is read in attempt number `i`
from the start of the scan and skipped if that attempt fails. -/
theorem scanEntries_disk {α β : Type} (hf : Formatted total s.superblock)
    (body : ℕ → FsEntry → α → FsState Disk → (β ⊕ α) × FsState Disk) (visit : ℕ → FsEntry → α → β ⊕ α)
    (hvisit : ∀ i e acc s, body i e acc s = (visit i e acc, s)) (Inv : ℕ → α → Prop) (Q : ℕ → β → Prop)
    (hskip : ∀ i acc, i < 32 → Inv i acc → read (s.disk.reads + i) = true → Inv (i + 1) acc)
    (hstep : ∀ i acc, i < 32 → Inv i acc → read (s.disk.reads + i) = false →
      (∃ b, visit i (s.volume.entry i) acc = .inl b ∧ Q i b) ∨
      (∃ acc', visit i (s.volume.entry i) acc = .inr acc' ∧ Inv (i + 1) acc'))
    (acc : α) (h0 : Inv 0 acc) :
    ∃ s', s'.superblock = s.superblock ∧
      ((∃ i < 32, ∃ b, scanEntries (disk total ⟨read,write⟩) body 32 0 acc s = (.inl b, s') ∧ Q i b ∧
          s'.disk = s.disk.after (i + 1)) ∨
        (∃ acc', scanEntries (disk total ⟨read,write⟩) body 32 0 acc s = (.inr acc', s') ∧ Inv 32 acc' ∧
          s'.disk = s.disk.after 32)) := by
  have hrule := scanEntries_rule (disk total ⟨read,write⟩) body
    (fun i acc s' => s'.superblock = s.superblock ∧ s'.disk = s.disk.after i ∧ Inv i acc)
    (fun b s' => s'.superblock = s.superblock ∧ ∃ i < 32, Q i b ∧ s'.disk = s.disk.after (i + 1))
    ?_ ?_ acc s (Nat.zero_add 32) ⟨rfl,rfl,h0⟩
  · rcases hrule with ⟨b,s',he,hsb,i,hi,hq,hd⟩ | ⟨acc',s',he,hsb,hd,hinv⟩
    · exact ⟨s',hsb,Or.inl ⟨i,hi,b,he,hq,hd⟩⟩
    · exact ⟨s',hsb,Or.inr ⟨acc',he,hinv,hd⟩⟩
  · rintro i acc s1 s2 hi ⟨hsb,hd,hinv⟩ hr
    obtain ⟨s',he,hd',hsb'⟩ := fsReadEntry_disk read write s1 (by rw [hsb]; exact hf) hi
    rw [he] at hr
    cases hread : read s1.disk.reads with
    | false =>
      rw [hread, if_neg Bool.false_ne_true] at hr
      cases hr
    | true =>
      rw [hread, if_pos rfl] at hr
      cases hr
      rw [hd, Disk.after_reads] at hread
      refine ⟨hsb'.trans hsb,by rw [hd', hd, Disk.after_after],hskip i acc hi hinv hread⟩
  · rintro i e acc s1 s2 hi ⟨hsb,hd,hinv⟩ hr
    obtain ⟨s',he,hd',hsb'⟩ := fsReadEntry_disk read write s1 (by rw [hsb]; exact hf) hi
    rw [he] at hr
    have hvol : s1.volume = s.volume := by rw [FsState.volume, hd, hsb]; rfl
    cases hread : read s1.disk.reads with
    | true =>
      rw [hread, if_pos rfl] at hr
      cases hr
    | false =>
      rw [hread, if_neg Bool.false_ne_true, hvol] at hr
      cases hr
      rw [hd, Disk.after_reads] at hread
      have hdisk : s2.disk = s.disk.after (i + 1) := by rw [hd', hd, Disk.after_after]
      rw [hvisit]
      rcases hstep i acc hi hinv hread with ⟨b,hb,hq⟩ | ⟨acc',hb,hp⟩
      · exact Or.inl ⟨b,s2,by rw [hb],hsb'.trans hsb,i,hi,hq,hdisk⟩
      · exact Or.inr ⟨acc',s2,by rw [hb],hsb'.trans hsb,hdisk,hp⟩

/-- Nothing has happened but reads. -/
structure Quiet (s s' : FsState Disk) : Prop where
  superblock : s'.superblock = s.superblock
  disk : ∃ n, s'.disk = s.disk.after n

theorem Quiet.refl (s : FsState Disk) : Quiet s s := ⟨rfl,0,rfl⟩

theorem Quiet.trans {s₁ s₂ s₃ : FsState Disk} (h : Quiet s₁ s₂) (h' : Quiet s₂ s₃) : Quiet s₁ s₃ := by
  obtain ⟨m,hm⟩ := h.disk
  obtain ⟨n,hn⟩ := h'.disk
  exact ⟨h'.superblock.trans h.superblock,m + n,by rw [hn, hm, Disk.after_after]⟩

theorem Quiet.volume {s s' : FsState Disk} (h : Quiet s s') : s'.volume = s.volume := by
  obtain ⟨n,hn⟩ := h.disk
  rw [FsState.volume, hn, h.superblock]
  rfl

theorem Quiet.seen {s s' : FsState Disk} (h : Quiet s s') : s'.disk.seen = s.disk.seen := by
  obtain ⟨n,hn⟩ := h.disk
  rw [hn]
  rfl

theorem scanEntries_quiet {α β : Type} (hf : Formatted total s.superblock)
    (body : ℕ → FsEntry → α → FsState Disk → (β ⊕ α) × FsState Disk) (visit : ℕ → FsEntry → α → β ⊕ α)
    (hvisit : ∀ i e acc s, body i e acc s = (visit i e acc, s)) (acc : α) :
    ∃ result s', scanEntries (disk total ⟨read,write⟩) body 32 0 acc s = (result, s') ∧ Quiet s s' := by
  have hscan := scanEntries_disk read write s hf body visit hvisit (fun _ _ => True) (fun _ _ => True)
    (fun _ _ _ _ _ => trivial) ?_ acc trivial
  · obtain ⟨s',hsb,⟨i,_,b,he,_,hd⟩ | ⟨acc',he,_,hd⟩⟩ := hscan
    · exact ⟨_,s',he,hsb,i + 1,hd⟩
    · exact ⟨_,s',he,hsb,32,hd⟩
  · intro i acc _ _ _
    cases visit i (s.volume.entry i) acc with
    | inl b => exact Or.inl ⟨b,rfl,trivial⟩
    | inr acc' => exact Or.inr ⟨acc',rfl,trivial⟩

theorem fsFindEntry_disk (hf : Formatted total s.superblock) (name : List UInt8) :
    ∃ s', s'.superblock = s.superblock ∧
      ((∃ i < 32, fsFindEntry (disk total ⟨read,write⟩) name s = (some (s.volume.entry i, i), s') ∧
          s'.disk = s.disk.after (i + 1) ∧ read (s.disk.reads + i) = false ∧
          (s.volume.entry i).live ∧ (s.volume.entry i).title = cstr name) ∨
        (fsFindEntry (disk total ⟨read,write⟩) name s = (Option.none, s') ∧ s'.disk = s.disk.after 32 ∧
          ∀ i < 32, read (s.disk.reads + i) = false → (s.volume.entry i).live →
            (s.volume.entry i).title ≠ cstr name)) := by
  have hscan := scanEntries_disk read write s hf
    (findBody name) (fun i e (_ : Unit) => if e.type ≠ fsTypeFree ∧ strcmp e.name name = 0 then .inl (e,i) else .inr ())
    (fun i e _ s => by rw [findBody]; split <;> rfl)
    (fun i _ => ∀ j < i, read (s.disk.reads + j) = false → (s.volume.entry j).live →
      (s.volume.entry j).title ≠ cstr name)
    (fun i p => p.2 = i ∧ p.1 = s.volume.entry i ∧ read (s.disk.reads + i) = false ∧ (s.volume.entry i).live ∧
      (s.volume.entry i).title = cstr name) ?_ ?_ () (by omega)
  · unfold fsFindEntry
    rw [show fsMaxEntries = 32 from rfl]
    obtain ⟨s',hsb,⟨i,hi,⟨e,j⟩,he,⟨hj,hei,hr,hl,ht⟩,hd⟩ | ⟨_,he,hno,hd⟩⟩ := hscan
    · dsimp only at hj hei
      subst hj hei
      exact ⟨s',hsb,Or.inl ⟨j,hi,by rw [he],hd,hr,hl,ht⟩⟩
    · exact ⟨s',hsb,Or.inr ⟨by rw [he],hd,hno⟩⟩
  · intro i _ hi hno hr j hj hrj
    rcases Nat.lt_succ_iff_lt_or_eq.mp hj with hj | rfl
    · exact hno j hj hrj
    · rw [hr] at hrj
      cases hrj
  · intro i _ hi hno hr
    by_cases hm : (s.volume.entry i).type ≠ fsTypeFree ∧ strcmp (s.volume.entry i).name name = 0
    · exact Or.inl ⟨_,if_pos hm,rfl,rfl,hr,hm.1,(strcmp_eq_zero_iff _ _).mp hm.2⟩
    · refine Or.inr ⟨(),if_neg hm,fun j hj hrj hl ht => ?_⟩
      rcases Nat.lt_succ_iff_lt_or_eq.mp hj with hj | rfl
      · exact hno j hj hrj hl ht
      · exact hm ⟨hl,(strcmp_eq_zero_iff _ _).mpr ht⟩

theorem fsFindFreeSlot_quiet (hf : Formatted total s.superblock) :
    ∃ slot s', fsFindFreeSlot (disk total ⟨read,write⟩) s = (slot, s') ∧ Quiet s s' := by
  obtain ⟨result,s',he,hq⟩ := scanEntries_quiet read write s hf freeSlotBody
    (fun i e (_ : Unit) => if e.type = fsTypeFree then .inl i else .inr ())
    (fun i e _ s => by rw [freeSlotBody]; split <;> rfl) ()
  unfold fsFindFreeSlot
  rw [show fsMaxEntries = 32 from rfl, he]
  cases result with
  | inl i => exact ⟨i,s',rfl,hq⟩
  | inr _ => exact ⟨32,s',rfl,hq⟩

theorem fsCountUsed_quiet (hf : Formatted total s.superblock) :
    ∃ used s', fsCountUsed (disk total ⟨read,write⟩) s = (used, s') ∧ Quiet s s' := by
  obtain ⟨result,s',he,hq⟩ := scanEntries_quiet read write s hf countBody
    (fun _ e total => .inr (if e.type = fsTypeFile ∧ e.size > 0 then total + blocksFor e.size else total))
    (fun _ _ _ _ => rfl) 0
  unfold fsCountUsed
  rw [show fsMaxEntries = 32 from rfl, he]
  cases result with
  | inl b => exact b.elim
  | inr used => exact ⟨used,s',rfl,hq⟩

/-- The allocator only reads, and answers within its map whatever the directory holds. -/
theorem fsAllocBlocks_quiet (hf : Formatted total s.superblock) (count : UInt32) :
    ∃ start s', fsAllocBlocks (disk total ⟨read,write⟩) count s = (start, s') ∧ Quiet s s' ∧
      (start = noSpace ∨ start.toNat + count.toNat ≤ 1024) := by
  unfold fsAllocBlocks
  by_cases hc : count = 0
  · rw [if_pos hc]
    exact ⟨noSpace,s,rfl,Quiet.refl s,Or.inl rfl⟩
  rw [if_neg hc]
  by_cases hfree : count > s.superblock.freeBlocks
  · rw [if_pos hfree]
    exact ⟨noSpace,s,rfl,Quiet.refl s,Or.inl rfl⟩
  rw [if_neg hfree]
  generalize s.superblock.totalBlocks - s.superblock.dataStartBlock = db
  obtain ⟨result,s1,he,hq⟩ := scanEntries_quiet read write s hf (markBody db)
    (fun _ e used => .inr (markEntry db e used)) (fun _ _ _ _ => rfl) (fun _ => 0)
  rw [show fsMaxEntries = 32 from rfl]
  dsimp only
  rw [he]
  cases result with
  | inl b => exact b.elim
  | inr used =>
    dsimp only
    have hcount : 0 < count.toNat := Nat.pos_of_ne_zero fun h => hc (UInt32.toNat_inj.mp h)
    rcases RunSearch.scan_first (n := min db.toNat 1024)
      (RunSearch.passed_zero (fun b => !BitTable.testBit used b) hcount) (RunSearch.counted_zero _ 0 0) with
      ⟨start,hsr,hfirst⟩ | ⟨hsr,_⟩
    · rw [hsr]
      have hfits := hfirst.fits
      refine ⟨UInt32.ofNat start,s1,rfl,hq,Or.inr ?_⟩
      rw [UInt32.toNat_ofNat', Nat.mod_eq_of_lt (by omega)]
      omega
    · rw [hsr]
      exact ⟨noSpace,s1,rfl,hq,Or.inl rfl⟩

theorem writeAlloc_quiet (hf : Formatted total s.superblock) (n : UInt32) :
    ∃ start s', (if n > 0 then fsAllocBlocks (disk total ⟨read,write⟩) n s else (0, s)) = (start, s') ∧ Quiet s s' ∧
      ((n > 0 ∧ start = noSpace) ∨ start.toNat + n.toNat ≤ 1024) := by
  by_cases hpos : n > 0
  · rw [if_pos hpos]
    obtain ⟨start,s',he,hq,hfit⟩ := fsAllocBlocks_quiet read write s hf n
    exact ⟨start,s',he,hq,hfit.imp_left fun h => ⟨hpos,h⟩⟩
  · rw [if_neg hpos]
    have hz : n.toNat = 0 := by
      rw [gt_iff_lt, UInt32.lt_iff_toNat_lt] at hpos
      simpa using hpos
    exact ⟨0,s,rfl,Quiet.refl s,Or.inr (by rw [hz]; decide)⟩

end scans

end ApPa.Fs

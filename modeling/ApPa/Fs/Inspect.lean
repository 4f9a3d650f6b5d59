import ApPa.Fs.Edits

/-! # The host inspector

`simplefs_inspect.py` reads a raw image: the superblock, the directory and the contents of
the files, with the offsets of the on-disk structures written out a second time and in
unbounded arithmetic. On every image the kernel produces it lists what `fs_list` lists and
extracts what `fs_read_file` reads, unless a write was given a size so large that the kernel's
32-bit count of blocks wraps around.
-/
namespace ApPa.Fs.Inspect
open Klibc LittleEndian

def typeFree : ℕ := 0x00
def typeFile : ℕ := 0x01

structure ParsedSuperblock where
  magic : ℕ
  version : ℕ
  totalBlocks : ℕ
  freeBlocks : ℕ
  dirStartBlock : ℕ
  dirBlockCount : ℕ
  dataStartBlock : ℕ
  firstFreeBlock : ℕ
  deriving DecidableEq

structure ParsedEntry where
  name : List Char
  type : ℕ
  startBlock : ℕ
  size : ℕ
  deriving DecidableEq

/-- An entry that is not free, with its position in the directory. -/
structure ListedEntry extends ParsedEntry where
  slot : ℕ
  deriving DecidableEq

def readBlock (data : List UInt8) (blockNum : ℕ) : List UInt8 := (data.drop (blockNum * 512)).take 512

/-- One little-endian field of `struct.unpack_from`. -/
def unpack (blk : List UInt8) (offset len : ℕ) : ℕ := leNat ((blk.drop offset).take len)

/-- Unpacking raises an exception when bytes are missing. -/
def parseSuperblock (blk : List UInt8) : Option ParsedSuperblock :=
  if blk.length < 32 then none
  else some
    { magic := unpack blk 0 4
      version := unpack blk 4 4
      totalBlocks := unpack blk 8 4
      freeBlocks := unpack blk 12 4
      dirStartBlock := unpack blk 16 4
      dirBlockCount := unpack blk 20 4
      dataStartBlock := unpack blk 24 4
      firstFreeBlock := unpack blk 28 4 }

/-- `decode('ascii', errors='replace')`: a byte that is no ASCII code becomes U+FFFD. -/
def decodeAscii (bytes : List UInt8) : List Char :=
  bytes.map fun c => if c < 128 then Char.ofNat c.toNat else Char.ofNat 0xFFFD

def parseEntry (raw : List UInt8) : Option ParsedEntry :=
  if raw.length < 32 then none
  else some
    { name := decodeAscii ((raw.take 24).takeWhile fun c => c ≠ 0)
      type := (raw.getD 24 0).toNat
      startBlock := unpack raw 26 2
      size := unpack raw 28 4 }

/-- Block and position of the entries, in the order of the two nested loops. -/
def slots (sb : ParsedSuperblock) : List (ℕ × ℕ) :=
  (List.range' sb.dirStartBlock sb.dirBlockCount).flatMap fun b => (List.range 16).map fun i => (b,i)

def dirEntries (data : List UInt8) (sb : ParsedSuperblock) : List (ℕ × ℕ) → Option (List ListedEntry)
  | [] => some []
  | (b,i) :: rest =>
    match parseEntry (((readBlock data b).drop (i * 32)).take 32), dirEntries data sb rest with
    | some e, some entries =>
      some (if e.type ≠ typeFree then ⟨e,(b - sb.dirStartBlock) * 16 + i⟩ :: entries else entries)
    | _, _ => none

def fileData (data : List UInt8) (sb : ParsedSuperblock) (e : ParsedEntry) : List UInt8 :=
  let blocksUsed := (e.size + 512 - 1) / 512
  let absStart := sb.dataStartBlock + e.startBlock
  ((List.range blocksUsed).flatMap fun bi => readBlock data (absStart + bi)).take e.size

inductive Failure where
  | truncated
  | notSimpleFs
  deriving DecidableEq

/-- What is printed: the superblock, the entries and the contents of the files that are
not empty. -/
structure Report where
  superblock : ParsedSuperblock
  entries : List ListedEntry
  contents : List (ListedEntry × List UInt8)

def main (data : List UInt8) : Except Failure Report :=
  match parseSuperblock (readBlock data 0) with
  | none => .error .truncated
  | some sb =>
    if sb.magic ≠ fsMagic.toNat then .error .notSimpleFs
    else match dirEntries data sb (slots sb) with
      | none => .error .truncated
      | some entries => .ok ⟨sb,entries,(entries.filter fun e => e.type = typeFile ∧ e.size > 0).map fun e =>
          (e,fileData data sb e.toParsedEntry)⟩

/-! ## Reading back what the kernel wrote -/

theorem readBlock_data (v : Volume) {n b : ℕ} (hb : b < n) : readBlock (v.data 0 n) b = (v.blocks b).bytes := by
  obtain ⟨d,rfl⟩ := Nat.exists_eq_add_of_lt hb
  rw [Nat.add_assoc, v.data_add 0 b (d + 1), Nat.zero_add, readBlock, List.drop_left' (by rw [v.data_length, Nat.mul_comm]),
    Volume.data]
  exact List.take_left' (v.blocks b).length_eq

theorem flatMap_readBlock (v : Volume) {n k base : ℕ} (h : base + k ≤ n) :
    ((List.range k).flatMap fun bi => readBlock (v.data 0 n) (base + bi)) = v.data base k := by
  induction k with
  | zero => rfl
  | succ k ih =>
    rw [List.range_succ, List.flatMap_append, ih (by omega), v.data_add base k 1]
    simp [readBlock_data v (show base + k < n by omega), Volume.data]

/-- The entry the inspector makes of an entry on the device. -/
def parsed (e : FsEntry) : ParsedEntry := ⟨decodeAscii e.title,e.type.toNat,e.startBlock.toNat,e.size.toNat⟩

def listed (v : Volume) (k : ℕ) : ListedEntry := ⟨parsed (v.entry k),k⟩

theorem unpack_lt (blk : List UInt8) (offset len : ℕ) : unpack blk offset len < 256 ^ len := by
  refine (leNat_lt _).trans_le (Nat.pow_le_pow_right (by decide) ?_)
  exact List.length_take_le _ _

theorem parseEntry_decode {raw : List UInt8} (h : raw.length = 32) :
    parseEntry raw = some (parsed (FsEntry.decode raw h)) := by
  have hstart := unpack_lt raw 26 2
  have hsize := unpack_lt raw 28 4
  have hdrop : (raw.drop 28).take 4 = raw.drop 28 := List.take_of_length_le (by simp [h])
  rw [unpack, hdrop] at hsize
  rw [parseEntry, if_neg (by omega)]
  simp only [parsed, FsEntry.decode, FsEntry.title, cstr, unpack, hdrop, UInt16.toNat_ofNat', UInt32.toNat_ofNat',
    Nat.mod_eq_of_lt (show leNat ((raw.drop 26).take 2) < 2 ^ 16 from hstart),
    Nat.mod_eq_of_lt (show leNat (raw.drop 28) < 2 ^ 32 from hsize)]
  rfl

theorem parseEntry_slot (v : Volume) {n k : ℕ} (h3 : 3 ≤ n) (hk : k < 32) :
    parseEntry (((readBlock (v.data 0 n) (1 + k / 16)).drop (k % 16 * 32)).take 32) = some (parsed (v.entry k)) := by
  rw [readBlock_data v (by omega)]
  exact parseEntry_decode ((v.blocks (1 + k / 16)).slice_length (entryOffset_le k))

theorem unpack_word (b : Block) (k : ℕ) : unpack b.bytes (4 * k) 4 = (b.word k).toNat := by
  rw [Block.word, UInt32.toNat_ofNat']
  exact (Nat.mod_eq_of_lt (unpack_lt b.bytes (4 * k) 4)).symm

/-- The superblock the inspector makes of the one on the device. -/
def parsedSuperblock (sb : Superblock) : ParsedSuperblock where
  magic := sb.magic.toNat
  version := sb.version.toNat
  totalBlocks := sb.totalBlocks.toNat
  freeBlocks := sb.freeBlocks.toNat
  dirStartBlock := sb.dirStartBlock.toNat
  dirBlockCount := sb.dirBlockCount.toNat
  dataStartBlock := sb.dataStartBlock.toNat
  firstFreeBlock := sb.firstFreeBlock.toNat

theorem parseSuperblock_decode (b : Block) :
    parseSuperblock b.bytes = some (parsedSuperblock (Superblock.decode b)) := by
  have hlen := b.length_eq
  rw [parseSuperblock, if_neg (by rw [hlen]; decide)]
  simp only [parsedSuperblock, Superblock.decode, ← unpack_word, Nat.reduceMul]

theorem slots_eq {sb : ParsedSuperblock} (hs : sb.dirStartBlock = 1) (hc : sb.dirBlockCount = 2) :
    slots sb = (List.range 32).map fun k => (1 + k / 16, k % 16) := by
  rw [slots, hs, hc]
  decide

theorem dirEntries_eq (v : Volume) {n : ℕ} (h3 : 3 ≤ n) {sb : ParsedSuperblock} (hs : sb.dirStartBlock = 1) (l : List ℕ)
    (hl : ∀ k ∈ l, k < 32) :
    dirEntries (v.data 0 n) sb (l.map fun k => (1 + k / 16, k % 16)) =
      some ((l.filter fun k => (v.entry k).live).map (listed v)) := by
  induction l with
  | nil => rfl
  | cons k l ih =>
    have hslot : (1 + k / 16 - sb.dirStartBlock) * 16 + k % 16 = k := by
      rw [hs]
      omega
    have hlive : (parsed (v.entry k)).type ≠ typeFree ↔ (v.entry k).live := by
      rw [FsEntry.live, Ne, Ne, ← UInt8.toNat_inj]
      rfl
    rw [List.map_cons, dirEntries, parseEntry_slot v h3 (hl k List.mem_cons_self),
      ih fun j hj => hl j (List.mem_cons_of_mem k hj)]
    dsimp only
    rw [hslot, List.filter_cons]
    by_cases hk : (v.entry k).live
    · rw [if_pos (hlive.mpr hk), if_pos (decide_eq_true hk)]
      rfl
    · rw [if_neg (mt hlive.mp hk), if_neg (by simpa using hk)]

/-- The contents of a file in the data region are read in exact arithmetic. -/
theorem fileData_eq (v : Volume) {n : ℕ} {sb : ParsedSuperblock} (hd : sb.dataStartBlock = 3) {e : FsEntry}
    (hfile : e.type = fsTypeFile) (hsmall : e.size.toNat < 2 ^ 24) (hext : 3 + e.startBlock.toNat + e.blockCount ≤ n) :
    fileData (v.data 0 n) sb (parsed e) = v.contents e := by
  have hcount : (e.size.toNat + 512 - 1) / 512 = e.blockCount := by
    rw [FsEntry.blockCount, if_pos hfile, blocksFor_toNat _ hsmall]
    rfl
  simp only [fileData, parsed, hcount, hd]
  rw [flatMap_readBlock v hext, Volume.contents]

theorem typeFile_iff (e : FsEntry) :
    ((parsed e).type = typeFile ∧ (parsed e).size > 0) ↔ e.type = fsTypeFile ∧ 0 < e.size := by
  rw [← UInt8.toNat_inj, UInt32.lt_iff_toNat_lt]
  rfl

/-- The inspector's report on the image of a consistent volume. -/
theorem main_eq {total : UInt32} {v : Volume} (hc : Consistent total v) (hdir : v.superblock.dirBlockCount = 2) :
    main (v.data 0 total.toNat) = .ok
      { superblock := parsedSuperblock v.superblock
        entries := ((List.range 32).filter fun k => (v.entry k).live).map (listed v)
        contents := (((List.range 32).filter fun k => (v.entry k).live).filter fun k =>
          (v.entry k).type = fsTypeFile ∧ 0 < (v.entry k).size).map fun k => (listed v k,v.contents (v.entry k)) } := by
  obtain ⟨hmagic,_,hstart,hdata,h3⟩ := hc.formatted
  have hslots : slots (parsedSuperblock v.superblock) = (List.range 32).map fun k => (1 + k / 16, k % 16) :=
    slots_eq (congrArg UInt32.toNat hstart) (congrArg UInt32.toNat hdir)
  have hm : (parsedSuperblock v.superblock).magic = fsMagic.toNat := congrArg UInt32.toNat hmagic
  have hds : (parsedSuperblock v.superblock).dataStartBlock = 3 := congrArg UInt32.toNat hdata
  have hfiles : ∀ l : List ℕ, l.filter ((fun e => decide (e.type = typeFile ∧ e.size > 0)) ∘ listed v) =
      l.filter fun k => (v.entry k).type = fsTypeFile ∧ 0 < (v.entry k).size :=
    fun l => List.filter_congr fun k _ => Bool.decide_congr (typeFile_iff (v.entry k))
  rw [main, readBlock_data v (by omega), hc.block0, parseSuperblock_decode, Superblock.decode_encode]
  dsimp only
  rw [if_neg (not_not.mpr hm), hslots,
    dirEntries_eq v h3 (congrArg UInt32.toNat hstart) _ fun k hk => List.mem_range.mp hk]
  dsimp only
  rw [List.filter_map, List.map_map]
  congr 2
  rw [hfiles]
  refine List.map_congr_left fun k hk => ?_
  obtain ⟨hk,hfile⟩ := List.mem_filter.mp hk
  have hk32 : k < 32 := List.mem_range.mp (List.mem_filter.mp hk).1
  obtain ⟨htype,hpos⟩ := of_decide_eq_true hfile
  have hsmall := hc.dir.small k hk32
  have hcount : 0 < (v.entry k).blockCount := by
    rw [UInt32.lt_iff_toNat_lt, show (0 : UInt32).toNat = 0 from rfl] at hpos
    rw [FsEntry.blockCount, if_pos htype, blocksFor_toNat _ hsmall]
    omega
  have hlast := hc.sound.extent_lt hk32 (Nat.sub_one_lt_of_lt hcount)
  exact congrArg (Prod.mk (listed v k)) (fileData_eq v hds htype hsmall (by omega))

/-! ## Runs of the calls that change the disk -/

def Ascii (edit : Edit) : Prop := ∀ c ∈ cstr edit.name, c < 128

section
variable {σ : Type} {dev : BlockDevice σ} (r : Reliable dev)

def image (s : FsState σ) : List UInt8 := (r.volume s).data 0 dev.totalBlocks.toNat

/-- Each byte of a C string as the character with that code. -/
def text (bytes : List UInt8) : List Char := (cstr bytes).map fun c => Char.ofNat c.toNat

/-- The inspector lists what `fs_list` lists, and for each file that is not empty extracts what
`fs_read_file` reads into a buffer that is large enough. -/
def Agrees (s : FsState σ) : Prop :=
  ∃ report, main (image r s) = .ok report ∧ ∀ max, 32 ≤ max →
    report.entries.map (fun e => (e.name, e.type, e.size)) =
      (fsList dev max s).1.map (fun e => (text e.name, e.type.toNat, e.size.toNat)) ∧
    List.Forall₂ (fun c e => c.1.name = text e.name ∧ ∀ maxSize, e.size ≤ maxSize →
        (fsReadFile dev e.name maxSize s).1 = .full c.2)
      report.contents ((fsList dev max s).1.filter fun e => e.type = fsTypeFile ∧ 0 < e.size)

structure Legible (total : UInt32) (v : Volume) : Prop where
  consistent : Consistent total v
  dirBlocks : v.superblock.dirBlockCount = 2
  ascii : ∀ i < 32, (v.entry i).live → ∀ c ∈ (v.entry i).title, c < 128

theorem decodeAscii_eq {bytes : List UInt8} (h : ∀ c ∈ cstr bytes, c < 128) : decodeAscii (cstr bytes) = text bytes :=
  List.map_congr_left fun c hc => if_pos (h c hc)

theorem Legible.read {s : FsState σ} (h : Legible dev.totalBlocks (r.volume s)) {k : ℕ} (hk : k < 32)
    (hfile : ((r.volume s).entry k).type = fsTypeFile) {maxSize : UInt32}
    (hmax : ((r.volume s).entry k).size ≤ maxSize) :
    (fsReadFile dev ((r.volume s).entry k).name maxSize s).1 =
      .full ((r.volume s).contents ((r.volume s).entry k)) := by
  have hlive := live_of_file hfile
  obtain ⟨s',_,⟨i,hi,hti,htitle,he⟩ | ⟨_,⟨i,hi,hl,htitle,hno⟩ | hno⟩⟩ :=
    r.fsReadFile_spec s h.consistent.sound ((r.volume s).entry k).name maxSize
  · obtain rfl := h.consistent.dir.distinct i hi k hk (live_of_file hti) hlive htitle
    rw [he, List.take_of_length_le]
    exact (List.length_take_le _ _).trans (UInt32.le_iff_toNat_le.mp hmax)
  · obtain rfl := h.consistent.dir.distinct i hi k hk hl hlive htitle
    exact absurd hfile hno
  · exact absurd rfl (hno k hk hlive)

theorem Legible.agrees {s : FsState σ} (h : Legible dev.totalBlocks (r.volume s)) : Agrees r s := by
  refine ⟨_,main_eq h.consistent h.dirBlocks,fun max hmax => ?_⟩
  obtain ⟨s',hlist,_⟩ := r.fsList_spec s h.consistent.formatted max
  have hall : (liveEntries (r.volume s) 32).length ≤ max := by
    refine le_trans (List.length_filter_le _ _) ?_
    rw [List.length_map, List.length_range]
    exact hmax
  rw [hlist, List.take_of_length_le hall, Volume.liveEntries_eq]
  have hname : ∀ k ∈ (List.range 32).filter fun k => ((r.volume s).entry k).live,
      (listed (r.volume s) k).name = text ((r.volume s).entry k).name := by
    intro k hk
    obtain ⟨hk,hl⟩ := List.mem_filter.mp hk
    exact decodeAscii_eq (h.ascii k (List.mem_range.mp hk) (of_decide_eq_true hl))
  constructor
  · rw [List.map_map, List.map_map]
    exact List.map_congr_left fun k hk => congrArg (·, ((r.volume s).entry k).type.toNat, _) (hname k hk)
  · rw [List.filter_map, List.forall₂_map_left_iff, List.forall₂_map_right_iff]
    refine List.forall₂_same.mpr fun k hk => ?_
    obtain ⟨hk,hfile⟩ := List.mem_filter.mp hk
    refine ⟨hname k hk,fun maxSize hmax => ?_⟩
    exact h.read r (List.mem_range.mp (List.mem_filter.mp hk).1) (of_decide_eq_true hfile).1 hmax

theorem Legible.create {s : FsState σ} (h : Legible dev.totalBlocks (r.volume s)) {name : List UInt8}
    (hascii : ∀ c ∈ cstr name, c < 128) (type : UInt8) :
    Legible dev.totalBlocks (r.volume (fsCreate dev name type s).2) := by
  obtain ⟨s',⟨i,hi,hcr,hfree,he,hv⟩ | ⟨he,hv,_⟩⟩ := r.fsCreate_spec s h.consistent name type
  · rw [he, hv]
    refine ⟨h.consistent.create hcr hi hfree,h.dirBlocks,fun j hj => ?_⟩
    rw [Volume.entry_setEntry]
    by_cases hij : i = j
    · rw [if_pos hij, newEntry_title type hcr.length_le]
      exact fun _ => hascii
    · rw [if_neg hij]
      exact h.ascii j hj
  · rw [he, hv]
    exact h

theorem Legible.write {s : FsState σ} (h : Legible dev.totalBlocks (r.volume s)) (name : List UInt8) {data : List UInt8}
    {size : UInt32} (hlen : size.toNat = data.length) (hsized : size.toNat ≤ 2 ^ 32 - 512) :
    Legible dev.totalBlocks (r.volume (fsWriteFile dev name data size s).2) := by
  by_cases hsmall : size.toNat < 2 ^ 24
  · obtain ⟨s',⟨he,hv,_⟩ | ⟨i,hi,start,fb,_,ht,_,he,hv,hc'⟩⟩ :=
      r.fsWriteFile_spec s h.consistent name data size hlen hsmall
    · rw [he, hv]
      exact h
    · rw [he]
      refine ⟨hc',by rw [hv]; exact h.dirBlocks,fun j hj => ?_⟩
      rw [hv, Volume.flush_entry, Volume.storeFile_entry _ _ _ _ _ hj]
      by_cases hij : i = j
      · rw [if_pos hij]
        subst hij
        exact h.ascii i hi
      · rw [if_neg hij]
        exact h.ascii j hj
  · rw [r.fsWriteFile_large h.consistent]
    · exact h
    · rw [blocksFor_toNat_eq]
      omega

theorem Legible.delete {s : FsState σ} (h : Legible dev.totalBlocks (r.volume s)) (name : List UInt8) :
    Legible dev.totalBlocks (r.volume (fsDelete dev name s).2) := by
  obtain ⟨s',⟨he,hv,_⟩ | ⟨i,hi,w,fb,_,_,hcl,he,hv,hc'⟩⟩ := r.fsDelete_spec s h.consistent name
  · rw [he, hv]
    exact h
  · rw [he]
    refine ⟨hc',?_,fun j hj => ?_⟩
    · rw [hv]
      exact (congrArg Superblock.dirBlockCount hcl.superblock).trans h.dirBlocks
    · rw [hv, Volume.flush_entry, hcl.entry j hj]
      split
      · exact fun hl => absurd hl FsEntry.zero_not_live
      · exact h.ascii j hj

theorem Legible.apply {s : FsState σ} (h : Legible dev.totalBlocks (r.volume s)) {edit : Edit} (hascii : Ascii edit)
    (hsized : edit.Sized) : Legible dev.totalBlocks (r.volume (edit.apply dev s).2) := by
  cases edit with
  | create name type => exact h.create r hascii type
  | write name data size fits => exact h.write r name fits hsized
  | delete name => exact h.delete r name

/-- After the first mount of a device and any calls whose writes do not wrap around, the
inspector and the kernel agree on the disk. -/
theorem run_agrees (h3 : 3 ≤ dev.totalBlocks.toNat) (s : FsState σ) (hu : r.Unformatted s) (edits : List Edit)
    (hascii : ∀ edit ∈ edits, Ascii edit) (hsized : ∀ edit ∈ edits, edit.Sized) :
    ∃ s₀, fsInit dev s = (0, s₀) ∧ Agrees r (Machine.run (Edit.apply dev) edits s₀).2 := by
  obtain ⟨s₀,he,hc,hempty⟩ := r.fsInit_unformatted s h3 hu
  refine ⟨s₀,he,Legible.agrees r ?_⟩
  refine Machine.run_invariant_mem (fun s => Legible dev.totalBlocks (r.volume s)) edits
    (fun edit hmem s h => h.apply r (hascii edit hmem) (hsized edit hmem)) ⟨hc,?_,fun i hi hl => ?_⟩
  · have hsb := r.fsInit_superblock s h3 hu
    rw [he] at hsb
    exact congrArg Superblock.dirBlockCount hsb
  · rw [hempty i hi] at hl
    exact absurd hl FsEntry.zero_not_live

end

/-- A directory and a file in it, on a blank device of eight blocks. -/
def fewEdits : List Edit :=
  [.create [0x64] fsTypeDir, .create [0x64,0x2F,0x61] fsTypeFile, .write [0x64,0x2F,0x61] [1,2,3] 3 rfl]

theorem run_agrees_few :
    ∃ s₀, fsInit (ramDevice 8) blankState = (0, s₀) ∧
      Agrees (ramReliable 8) (Machine.run (Edit.apply (ramDevice 8)) fewEdits s₀).2 :=
  run_agrees (ramReliable 8) (by decide) blankState (blank_unformatted 8) fewEdits
    (by simp only [fewEdits, List.forall_mem_cons, Ascii]; decide +kernel)
    (by simp [fewEdits, Edit.Sized])

theorem main_ok {data : List UInt8} {sb : ParsedSuperblock} {entries : List ListedEntry}
    (hsb : parseSuperblock (readBlock data 0) = some sb) (hmagic : sb.magic = fsMagic.toNat)
    (hentries : dirEntries data sb (slots sb) = some entries) :
    main data = .ok ⟨sb,entries,(entries.filter fun e => e.type = typeFile ∧ e.size > 0).map fun e =>
      (e,fileData data sb e.toParsedEntry)⟩ := by
  unfold main
  rw [hsb]
  dsimp only
  rw [if_neg (not_not.mpr hmagic), hentries]

theorem fileData_ne_nil {data : List UInt8} {sb : ParsedSuperblock} {e : ParsedEntry} (hsize : 0 < e.size)
    (hblock : readBlock data (sb.dataStartBlock + e.startBlock) ≠ []) : fileData data sb e ≠ [] := by
  obtain ⟨k,hk⟩ : ∃ k, (e.size + 512 - 1) / 512 = k + 1 := ⟨(e.size - 1) / 512,by omega⟩
  intro h
  simp only [fileData, hk, List.range_succ_eq_map, List.flatMap_cons, List.take_eq_nil_iff, List.append_eq_nil_iff] at h
  rcases h with h | h
  · omega
  · exact hblock h.1

/-- A file of 2^32 - 1 bytes, for which the kernel counts no blocks. -/
def hugeEdits : List Edit :=
  [.create [0x61] fsTypeFile, .write [0x61] (List.replicate 0xFFFFFFFF 1) 0xFFFFFFFF (by rw [List.length_replicate]; rfl)]

def hugeState : FsState (ℕ → Block) := (Machine.run (Edit.apply (ramDevice 8)) hugeEdits (fsInit (ramDevice 8) blankState).2).2

def hugeEntry : FsEntry := { newEntry [0x61] fsTypeFile with size := 0xFFFFFFFF }

theorem hugeState_list : ((fsList (ramDevice 8) 32 hugeState).1.filter fun e => e.type = fsTypeFile ∧ 0 < e.size) =
    [hugeEntry] := by
  decide +kernel

theorem hugeState_read : (fsReadFile (ramDevice 8) hugeEntry.name 0xFFFFFFFF hugeState).1 = .failed := by
  decide +kernel

def hugeSuperblock : ParsedSuperblock := ⟨0x41504653,1,8,5,1,2,3,0⟩

theorem hugeState_superblock :
    parseSuperblock (readBlock (image (ramReliable 8) hugeState) 0) = some hugeSuperblock := by
  decide +kernel

theorem hugeState_entries : dirEntries (image (ramReliable 8) hugeState) hugeSuperblock (slots hugeSuperblock) =
    some [⟨parsed hugeEntry,0⟩] := by
  decide +kernel

theorem hugeState_block : readBlock (image (ramReliable 8) hugeState)
    (hugeSuperblock.dataStartBlock + (parsed hugeEntry).startBlock) ≠ [] := by
  decide +kernel

theorem hugeState_extracted : ∃ bytes, bytes ≠ [] ∧ main (image (ramReliable 8) hugeState) =
    .ok ⟨hugeSuperblock,[⟨parsed hugeEntry,0⟩],[(⟨parsed hugeEntry,0⟩, bytes)]⟩ := by
  have hmain := main_ok hugeState_superblock (show hugeSuperblock.magic = fsMagic.toNat by decide) hugeState_entries
  have hblock := hugeState_block
  generalize image (ramReliable 8) hugeState = data at hmain hblock
  have hfile : (parsed hugeEntry).type = typeFile ∧ (parsed hugeEntry).size > 0 := by decide
  simp only [List.filter_cons, hfile, and_self, decide_true, if_true, List.filter_nil, List.map_cons, List.map_nil] at hmain
  exact ⟨_,fileData_ne_nil (show 0 < (parsed hugeEntry).size by decide) hblock,hmain⟩

/-- `fs_read_file` reads no block of it and returns the size as an `int32_t`, which is -1. -/
theorem run_disagrees_huge : (∀ edit ∈ hugeEdits, Ascii edit) ∧
    (fsReadFile (ramDevice 8) hugeEntry.name 0xFFFFFFFF hugeState).1.ret = -1 ∧
    (∃ report, main (image (ramReliable 8) hugeState) = .ok report ∧ ∃ c ∈ report.contents, c.2 ≠ []) ∧
    ¬Agrees (ramReliable 8) hugeState := by
  have hascii : ∀ edit ∈ hugeEdits, Ascii edit := by
    simp only [hugeEdits, List.forall_mem_cons, Ascii]
    decide +kernel
  have hread : (fsReadFile (ramDevice 8) hugeEntry.name 0xFFFFFFFF hugeState).1.ret = -1 := by
    rw [hugeState_read]
    rfl
  obtain ⟨bytes,hne,hmain⟩ := hugeState_extracted
  refine ⟨hascii,hread,⟨_,hmain,_,List.mem_singleton_self _,hne⟩,?_⟩
  rintro ⟨report,hreport,hagrees⟩
  obtain rfl := Except.ok.inj (hmain.symm.trans hreport)
  have hfiles := (hagrees 32 le_rfl).2
  rw [hugeState_list] at hfiles
  have hfull := (List.forall₂_cons.mp hfiles).1.2 0xFFFFFFFF (by decide)
  rw [hfull] at hread
  exact absurd hread (by simp [ReadResult.full])

end ApPa.Fs.Inspect

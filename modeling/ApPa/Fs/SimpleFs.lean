import ApPa.Fs.Layout
import ApPa.Klibc.CString
import ApPa.Lib.BitTable
import ApPa.Lib.RunSearch

/-! # The SimpleFS operations

The device is the pair of routines in `block_device_t`, acting on an arbitrary
device state; either may fail. The filesystem state is the mounted device state,
the in-memory superblock and the one scratch buffer shared by all operations. The
rejection of null pointers by the public routines is not modelled: every argument
is a readable buffer and the device is mounted.
-/
namespace ApPa.Fs
open Klibc BitTable

/-- A read returns the block, a write reports success; both may change the device. -/
structure BlockDevice (σ : Type) where
  read : UInt32 → σ → Option Block × σ
  write : UInt32 → Block → σ → Bool × σ
  totalBlocks : UInt32

structure FsState (σ : Type) where
  disk : σ
  superblock : Superblock
  blockBuf : Block

/-- What a read of a file returns, an `int32_t`, and what it has stored in the buffer by then. -/
structure ReadResult where
  ret : ℤ
  data : List UInt8
  deriving DecidableEq, Repr

namespace ReadResult

def failed : ReadResult := ⟨-1,[]⟩

def full (data : List UInt8) : ReadResult := ⟨data.length,data⟩

/-- The bytes that the caller has, unless it is told of an error. -/
def bytes (r : ReadResult) : Option (List UInt8) := if r.ret < 0 then none else some r.data

@[simp] theorem bytes_full (data : List UInt8) : (full data).bytes = some data :=
  if_neg (Int.not_lt.mpr (Int.natCast_nonneg _))

end ReadResult

variable {σ : Type} (dev : BlockDevice σ)

def readBlock (block : UInt32) (s : FsState σ) : Bool × FsState σ :=
  match dev.read block s.disk with
  | (none, d) => (false, { s with disk := d })
  | (some b, d) => (true, { s with disk := d, blockBuf := b })

def writeBlock (block : UInt32) (b : Block) (s : FsState σ) : Bool × FsState σ :=
  let (ok, d) := dev.write block b s.disk
  (ok, { s with disk := d })

def fsFlushSuperblock (s : FsState σ) : Bool × FsState σ := writeBlock dev 0 s.superblock.encode s

/-- Directory block of an entry, and its position inside that block. -/
def entryBlock (s : FsState σ) (index : ℕ) : UInt32 :=
  s.superblock.dirStartBlock + UInt32.ofNat (index / fsEntriesPerBlock)
def entryOffset (index : ℕ) : ℕ := index % fsEntriesPerBlock * 32

theorem entryOffset_le (index : ℕ) : entryOffset index + 32 ≤ blockSize := by
  have h : index % 16 < 16 := Nat.mod_lt _ (by decide)
  simp only [entryOffset, fsEntriesPerBlock, blockSize]
  omega

def Block.entry (b : Block) (index : ℕ) : FsEntry :=
  FsEntry.decode (b.slice (entryOffset index) 32) (b.slice_length (entryOffset_le index))

def Block.setEntry (b : Block) (index : ℕ) (e : FsEntry) : Block :=
  b.splice (entryOffset index) e.encode (by rw [FsEntry.encode_length]; exact entryOffset_le index)

def fsReadEntry (index : ℕ) (s : FsState σ) : Option FsEntry × FsState σ :=
  if fsMaxEntries ≤ index then (none, s)
  else match readBlock dev (entryBlock s index) s with
    | (false, s) => (none, s)
    | (true, s) => (some (s.blockBuf.entry index), s)

def fsWriteEntry (index : ℕ) (entry : FsEntry) (s : FsState σ) : Bool × FsState σ :=
  if fsMaxEntries ≤ index then (false, s)
  else match readBlock dev (entryBlock s index) s with
    | (false, s) => (false, s)
    | (true, s) =>
      let s := { s with blockBuf := s.blockBuf.setEntry index entry }
      writeBlock dev (entryBlock s index) s.blockBuf s

/-- The shape of every directory loop: visit `n` entries from index `i` on, skipping
those that cannot be read, and stop at the first for which `body` gives an answer. -/
def scanEntries {α β : Type} (body : ℕ → FsEntry → α → FsState σ → (β ⊕ α) × FsState σ) :
    ℕ → ℕ → α → FsState σ → (β ⊕ α) × FsState σ
  | 0, _, acc, s => (.inr acc, s)
  | n + 1, i, acc, s =>
    match fsReadEntry dev i s with
    | (none, s) => scanEntries body n (i + 1) acc s
    | (some e, s) =>
      match body i e acc s with
      | (.inl b, s) => (.inl b, s)
      | (.inr acc, s) => scanEntries body n (i + 1) acc s

def findBody (name : List UInt8) (i : ℕ) (e : FsEntry) (_ : Unit) (s : FsState σ) :
    ((FsEntry × ℕ) ⊕ Unit) × FsState σ :=
  if e.type ≠ fsTypeFree ∧ strcmp e.name name = 0 then (.inl (e,i), s) else (.inr (), s)

def fsFindEntry (name : List UInt8) (s : FsState σ) : Option (FsEntry × ℕ) × FsState σ :=
  match scanEntries dev (findBody name) fsMaxEntries 0 () s with
  | (.inl r, s) => (some r, s)
  | (.inr _, s) => (none, s)

def freeSlotBody (i : ℕ) (e : FsEntry) (_ : Unit) (s : FsState σ) : (ℕ ⊕ Unit) × FsState σ :=
  if e.type = fsTypeFree then (.inl i, s) else (.inr (), s)

def fsFindFreeSlot (s : FsState σ) : ℕ × FsState σ :=
  match scanEntries dev freeSlotBody fsMaxEntries 0 () s with
  | (.inl i, s) => (i, s)
  | (.inr _, s) => (fsMaxEntries, s)

/-- Blocks needed for `size` bytes, in 32-bit arithmetic. -/
def blocksFor (size : UInt32) : UInt32 := (size + 512 - 1) / 512

/-- Mark the blocks of one file in the 128-byte map, `n` blocks from block `b` on. -/
def markBlocks (start : UInt32) (dataBlocks : UInt32) : ℕ → ℕ → Table 8 → Table 8
  | 0, _, used => used
  | n + 1, b, used =>
    let blk := start + UInt32.ofNat b
    if blk < dataBlocks then
      markBlocks start dataBlocks n (b + 1)
        (if blk.toNat / 8 < 128 then setBit used blk.toNat else used)
    else used

def markEntry (dataBlocks : UInt32) (e : FsEntry) (used : Table 8) : Table 8 :=
  if e.type = fsTypeFree then used
  else if e.type = fsTypeDir then used
  else markBlocks e.startBlock.toUInt32 dataBlocks (blocksFor e.size).toNat 0 used

def markBody (dataBlocks : UInt32) (_ : ℕ) (e : FsEntry) (used : Table 8) (s : FsState σ) :
    (Empty ⊕ Table 8) × FsState σ := (.inr (markEntry dataBlocks e used), s)

def noSpace : UInt32 := 0xFFFFFFFF

def fsAllocBlocks (count : UInt32) (s : FsState σ) : UInt32 × FsState σ :=
  if count = 0 then (noSpace, s)
  else if count > s.superblock.freeBlocks then (noSpace, s)
  else
    let dataBlocks := s.superblock.totalBlocks - s.superblock.dataStartBlock
    match scanEntries dev (markBody dataBlocks) fsMaxEntries 0 (fun _ => 0) s with
    | (.inl e, s) => (e.elim, s)
    | (.inr used, s) =>
      match RunSearch.scan (fun b => !testBit used b) count.toNat (min dataBlocks.toNat 1024) 0 0 0 with
      | some start => (UInt32.ofNat start, s)
      | none => (noSpace, s)

/-- The superblock `fs_format` builds. -/
def freshSuperblock (totalBlocks : UInt32) : Superblock where
  magic := fsMagic
  version := fsVersion
  totalBlocks := totalBlocks
  freeBlocks := totalBlocks - (1 + 2)
  dirStartBlock := 1
  dirBlockCount := 2
  dataStartBlock := 1 + 2
  firstFreeBlock := 0
  reserved := List.replicate 480 0
  reserved_length := List.length_replicate

def fsFormat (s : FsState σ) : ℤ × FsState σ :=
  match fsFlushSuperblock dev { s with superblock := freshSuperblock dev.totalBlocks } with
  | (false, s) => (-1, s)
  | (true, s) =>
    match writeBlock dev s.superblock.dirStartBlock Block.zero { s with blockBuf := Block.zero } with
    | (false, s) => (-1, s)
    | (true, s) =>
      match writeBlock dev (s.superblock.dirStartBlock + 1) Block.zero s with
      | (false, s) => (-1, s)
      | (true, s) => (0, s)

def fsInit (s : FsState σ) : ℤ × FsState σ :=
  match dev.read 0 s.disk with
  | (none, d) => fsFormat dev { s with disk := d }
  | (some b, d) =>
    let s := { s with disk := d, superblock := Superblock.decode b }
    if s.superblock.magic ≠ fsMagic then fsFormat dev s else (0, s)

/-- The zeroed entry with the name copied by `strncpy`, its last byte NUL. -/
def newEntry (name : List UInt8) (type : UInt8) : FsEntry :=
  { FsEntry.zero with
    name := strncpyBytes name fsNameMax ++ [0]
    type := type
    name_length := by simp }

def fsCreate (name : List UInt8) (type : UInt8) (s : FsState σ) : ℤ × FsState σ :=
  if strlen name = 0 ∨ strlen name > fsNameMax then (-1, s)
  else if type ≠ fsTypeFile ∧ type ≠ fsTypeDir then (-1, s)
  else match fsFindEntry dev name s with
    | (some _, s) => (-1, s)
    | (none, s) =>
      let (slot, s) := fsFindFreeSlot dev s
      if fsMaxEntries ≤ slot then (-1, s)
      else
        match fsWriteEntry dev slot (newEntry name type) s with
        | (false, s) => (-1, s)
        | (true, s) => (0, s)

/-- The data loop of `fs_write_file`: `n` blocks from relative block `i` on, with
`remaining` bytes of the source left. -/
def fsWriteBlocks (startBlock : UInt32) : ℕ → ℕ → List UInt8 → UInt32 → FsState σ → Bool × FsState σ
  | 0, _, _, _, s => (true, s)
  | n + 1, i, src, remaining, s =>
    let absBlock := s.superblock.dataStartBlock + startBlock + UInt32.ofNat i
    let chunk := if remaining > 512 then 512 else remaining
    let blk := Block.ofBytes (src.take chunk.toNat)
    let s := if chunk < 512 then { s with blockBuf := blk } else s
    match writeBlock dev absBlock blk s with
    | (false, s) => (false, s)
    | (true, s) => fsWriteBlocks startBlock n (i + 1) (src.drop chunk.toNat) (remaining - chunk) s

def countBody (_ : ℕ) (e : FsEntry) (total : UInt32) (s : FsState σ) : (Empty ⊕ UInt32) × FsState σ :=
  (.inr (if e.type = fsTypeFile ∧ e.size > 0 then total + blocksFor e.size else total), s)

def fsCountUsed (s : FsState σ) : UInt32 × FsState σ :=
  match scanEntries dev countBody fsMaxEntries 0 0 s with
  | (.inl e, s) => (e.elim, s)
  | (.inr total, s) => (total, s)

def fsWriteFile (name : List UInt8) (data : List UInt8) (size : UInt32) (s : FsState σ) : ℤ × FsState σ :=
  match fsFindEntry dev name s with
  | (none, s) => (-1, s)
  | (some (entry,index), s) =>
    if entry.type ≠ fsTypeFile then (-1, s)
    else
      let blocksNeeded := blocksFor size
      let (startBlock, s) := if blocksNeeded > 0 then fsAllocBlocks dev blocksNeeded s else (0, s)
      if blocksNeeded > 0 ∧ startBlock = noSpace then (-1, s)
      else match fsWriteBlocks dev startBlock blocksNeeded.toNat 0 data size s with
        | (false, s) => (-1, s)
        | (true, s) =>
          match fsWriteEntry dev index { entry with startBlock := startBlock.toUInt16, size } s with
          | (false, s) => (-1, s)
          | (true, s) =>
            let (totalUsed, s) := fsCountUsed dev s
            let dataTotal := s.superblock.totalBlocks - s.superblock.dataStartBlock
            let freeBlocks := if dataTotal > totalUsed then dataTotal - totalUsed else 0
            let (_, s) := fsFlushSuperblock dev
              { s with superblock := { s.superblock with freeBlocks } }
            (0, s)

/-- The data loop of `fs_read_file`: whether it gets to its end, and the bytes that it stores in the buffer. -/
def fsReadBlocks (startBlock : UInt32) : ℕ → ℕ → UInt32 → FsState σ → (Bool × List UInt8) × FsState σ
  | 0, _, _, s => ((true, []), s)
  | n + 1, i, remaining, s =>
    let absBlock := s.superblock.dataStartBlock + startBlock + UInt32.ofNat i
    match readBlock dev absBlock s with
    | (false, s) => ((false, []), s)
    | (true, s) =>
      let chunk := if remaining > 512 then 512 else remaining
      let bytes := s.blockBuf.bytes.take chunk.toNat
      let ((ok, rest), s) := fsReadBlocks startBlock n (i + 1) (remaining - chunk) s
      ((ok, bytes ++ rest), s)

def fsReadFile (name : List UInt8) (maxSize : UInt32) (s : FsState σ) : ReadResult × FsState σ :=
  match fsFindEntry dev name s with
  | (none, s) => (.failed, s)
  | (some (entry,_), s) =>
    if entry.type ≠ fsTypeFile then (.failed, s)
    else
      let toRead := if entry.size > maxSize then maxSize else entry.size
      let ((ok, data), s) := fsReadBlocks dev entry.startBlock.toUInt32 (blocksFor toRead).toNat 0 toRead s
      (⟨if ok then toRead.toInt32.toInt else -1,data⟩, s)

/-- Does the stored name start with `name` followed by a slash? -/
def isChild (name : List UInt8) (child : FsEntry) : Bool :=
  strncmp child.name name (strlen name) = 0 ∧ child.name.getD (strlen name) 0 = 0x2F

def deleteBody (name : List UInt8) (i : ℕ) (child : FsEntry) (freed : UInt32) (s : FsState σ) :
    (Empty ⊕ UInt32) × FsState σ :=
  if child.type = fsTypeFree then (.inr freed, s)
  else if isChild name child then
    let freed := if child.type = fsTypeFile ∧ child.size > 0 then freed + blocksFor child.size
      else freed
    (.inr freed, (fsWriteEntry dev i FsEntry.zero s).2)
  else (.inr freed, s)

def fsDeleteChildren (name : List UInt8) (freed : UInt32) (s : FsState σ) : UInt32 × FsState σ :=
  match scanEntries dev (deleteBody dev name) fsMaxEntries 0 freed s with
  | (.inl e, s) => (e.elim, s)
  | (.inr freed, s) => (freed, s)

def fsDelete (name : List UInt8) (s : FsState σ) : ℤ × FsState σ :=
  match fsFindEntry dev name s with
  | (none, s) => (-1, s)
  | (some (entry,index), s) =>
    let freed := if entry.type = fsTypeFile ∧ entry.size > 0 then blocksFor entry.size else 0
    let (freed, s) := if entry.type = fsTypeDir then fsDeleteChildren dev name freed s else (freed, s)
    match fsWriteEntry dev index FsEntry.zero s with
    | (false, s) => (-1, s)
    | (true, s) =>
      let freeBlocks := s.superblock.freeBlocks + freed
      let (_, s) := fsFlushSuperblock dev { s with superblock := { s.superblock with freeBlocks } }
      (0, s)

def listBody (max : ℕ) (_ : ℕ) (e : FsEntry) (entries : List FsEntry) (s : FsState σ) :
    (List FsEntry ⊕ List FsEntry) × FsState σ :=
  if e.type ≠ fsTypeFree then
    if entries.length + 1 < max then (.inr (entries ++ [e]), s) else (.inl (entries ++ [e]), s)
  else (.inr entries, s)

/-- The loop ends when the directory or the caller's array is exhausted. -/
def fsList (max : ℕ) (s : FsState σ) : List FsEntry × FsState σ :=
  match scanEntries dev (listBody max) (if max = 0 then 0 else fsMaxEntries) 0 [] s with
  | (.inl entries, s) => (entries, s)
  | (.inr entries, s) => (entries, s)

def fsStat (name : List UInt8) (s : FsState σ) : Option FsEntry × FsState σ :=
  match fsFindEntry dev name s with
  | (none, s) => (none, s)
  | (some (entry,_), s) => (some entry, s)

end ApPa.Fs

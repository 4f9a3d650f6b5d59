import ApPa.Lib.LittleEndian

/-! # On-disk layout of SimpleFS

Blocks are exactly 512 bytes. The superblock fills block 0; directory blocks hold
sixteen packed 32-byte entries. Encoders follow the packed C structures field by
field, including the reserved bytes.
-/
namespace ApPa.Fs
open LittleEndian

def blockSize : ℕ := 512
def fsMagic : UInt32 := 0x41504653
def fsVersion : UInt32 := 1
def fsNameMax : ℕ := 23
def fsDirBlocks : ℕ := 2
def fsEntriesPerBlock : ℕ := 16
def fsMaxEntries : ℕ := fsDirBlocks * fsEntriesPerBlock
def fsTypeFree : UInt8 := 0x00
def fsTypeFile : UInt8 := 0x01
def fsTypeDir : UInt8 := 0x02

@[ext] structure Block where
  bytes : List UInt8
  length_eq : bytes.length = blockSize
  deriving DecidableEq

namespace Block

def zero : Block := ⟨List.replicate blockSize 0, by simp⟩

def ofBytes (bs : List UInt8) : Block :=
  ⟨(bs ++ List.replicate blockSize 0).take blockSize, by simp⟩

def slice (b : Block) (offset len : ℕ) : List UInt8 := (b.bytes.drop offset).take len

/-- `memcpy(block + offset, bs, len)`. -/
def splice (b : Block) (offset : ℕ) (bs : List UInt8) (h : offset + bs.length ≤ blockSize) : Block :=
  ⟨b.bytes.take offset ++ (bs ++ b.bytes.drop (offset + bs.length)), by
    have hb := b.length_eq
    simp only [List.length_append, List.length_take, List.length_drop]
    omega⟩

theorem slice_length (b : Block) {offset len : ℕ} (h : offset + len ≤ blockSize) :
    (b.slice offset len).length = len := by
  have hb := b.length_eq
  simp only [slice, List.length_take, List.length_drop]
  omega

theorem slice_splice_self (b : Block) (offset : ℕ) (bs : List UInt8)
    (h : offset + bs.length ≤ blockSize) : (b.splice offset bs h).slice offset bs.length = bs := by
  have ho : (b.bytes.take offset).length = offset := by
    have hb := b.length_eq
    simp only [List.length_take]
    omega
  simp only [slice, splice]
  rw [List.drop_left' ho, List.take_left' rfl]

theorem slice_splice_of_disjoint (b : Block) {offset o len : ℕ} {bs : List UInt8}
    (h : offset + bs.length ≤ blockSize) (hd : o + len ≤ offset ∨ offset + bs.length ≤ o) :
    (b.splice offset bs h).slice o len = b.slice o len := by
  have hb := b.length_eq
  have ho : (b.bytes.take offset).length = offset := by
    simp only [List.length_take]
    omega
  simp only [slice, splice]
  rcases hd with hd | hd
  · rw [List.drop_append_of_le_length (by omega), List.take_append_of_le_length (by
      simp only [List.length_drop]; omega), List.drop_take, List.take_take,
      Nat.min_eq_left (by omega)]
  · rw [← List.append_assoc, List.drop_append, List.drop_of_length_le (by
      simp only [List.length_append]; omega), List.nil_append, List.drop_drop]
    congr 2
    simp only [List.length_append]
    omega

end Block

@[ext] structure Superblock where
  magic : UInt32
  version : UInt32
  totalBlocks : UInt32
  freeBlocks : UInt32
  dirStartBlock : UInt32
  dirBlockCount : UInt32
  dataStartBlock : UInt32
  firstFreeBlock : UInt32
  reserved : List UInt8
  reserved_length : reserved.length = 480
  deriving DecidableEq

@[ext] structure FsEntry where
  name : List UInt8
  type : UInt8
  reserved : UInt8
  startBlock : UInt16
  size : UInt32
  name_length : name.length = fsNameMax + 1
  deriving DecidableEq

/-- The all-zero structure that `memset` leaves. -/
def FsEntry.zero : FsEntry where
  name := List.replicate (fsNameMax + 1) 0
  type := 0
  reserved := 0
  startBlock := 0
  size := 0
  name_length := by simp

def FsEntry.encode (e : FsEntry) : List UInt8 :=
  e.name ++ (e.type :: e.reserved :: (le16 e.startBlock.toNat ++ le32 e.size.toNat))

@[simp] theorem FsEntry.encode_length (e : FsEntry) : e.encode.length = 32 := by
  simp [encode, e.name_length, fsNameMax]

def FsEntry.decode (bs : List UInt8) (h : bs.length = 32) : FsEntry where
  name := bs.take (fsNameMax + 1)
  type := bs.getD 24 0
  reserved := bs.getD 25 0
  startBlock := UInt16.ofNat (leNat ((bs.drop 26).take 2))
  size := UInt32.ofNat (leNat (bs.drop 28))
  name_length := by simp [h, fsNameMax]

theorem FsEntry.decode_encode (e : FsEntry) : FsEntry.decode e.encode e.encode_length = e := by
  rcases e with ⟨name,type,reserved,start,size,hn⟩
  have hl : name.length = 24 := hn
  have h24 : ∀ rest : List UInt8, (name ++ rest).drop 24 = rest := fun rest => List.drop_left' hl
  have hd : ∀ (k : ℕ) (rest : List UInt8), (name ++ rest).drop (24 + k) = rest.drop k := by
    intro k rest
    rw [← List.drop_drop, h24]
  simp only [decode, encode, FsEntry.mk.injEq]
  refine ⟨List.take_left' hl,?_,?_,?_,?_⟩
  · simp [List.getD_eq_getElem?_getD, hl]
  · simp [List.getD_eq_getElem?_getD, hl]
  · rw [hd 2]
    simp only [List.drop_succ_cons, List.drop_zero]
    rw [List.take_left' (le16_length _), leNat_le16, Nat.mod_eq_of_lt start.toNat_lt,
      UInt16.ofNat_toNat]
  · rw [hd 4]
    simp only [List.drop_succ_cons]
    rw [List.drop_left' (le16_length _), leNat_le32, Nat.mod_eq_of_lt size.toNat_lt,
      UInt32.ofNat_toNat]

def Superblock.words (sb : Superblock) : List UInt32 :=
  [sb.magic, sb.version, sb.totalBlocks, sb.freeBlocks, sb.dirStartBlock, sb.dirBlockCount,
    sb.dataStartBlock, sb.firstFreeBlock]

def Superblock.encode (sb : Superblock) : Block :=
  ⟨sb.words.flatMap (fun v => le32 v.toNat) ++ sb.reserved, by
    simp [words, sb.reserved_length, blockSize]⟩

def Block.word (b : Block) (k : ℕ) : UInt32 := UInt32.ofNat (leNat (b.slice (4 * k) 4))

def Superblock.decode (b : Block) : Superblock where
  magic := b.word 0
  version := b.word 1
  totalBlocks := b.word 2
  freeBlocks := b.word 3
  dirStartBlock := b.word 4
  dirBlockCount := b.word 5
  dataStartBlock := b.word 6
  firstFreeBlock := b.word 7
  reserved := b.bytes.drop 32
  reserved_length := by simp [b.length_eq, blockSize]

private theorem ofNat_leNat_le32 (v : UInt32) : UInt32.ofNat (leNat (le32 v.toNat)) = v := by
  rw [leNat_le32, Nat.mod_eq_of_lt v.toNat_lt, UInt32.ofNat_toNat]

theorem Superblock.decode_encode (sb : Superblock) : Superblock.decode sb.encode = sb := by
  have hw : ∀ v : UInt32, UInt32.ofNat (leNat [leByte v.toNat 0, leByte v.toNat 1,
      leByte v.toNat 2, leByte v.toNat 3]) = v := ofNat_leNat_le32
  ext1 <;> simp [decode, encode, words, Block.word, Block.slice, le32, hw]

end ApPa.Fs

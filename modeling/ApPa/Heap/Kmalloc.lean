import ApPa.Lib.ByteMem
import ApPa.Lib.Loop
import ApPa.Lib.Word32

/-! # The kernel heap allocator

`kmalloc.c` on byte-addressed memory. Block headers live in the memory the allocator
hands out, so every walk reads sizes from it; pointers and sizes are 32-bit and wrap.
-/
namespace ApPa.Heap
open ByteMem Loop Word32

def heapStart : ℕ := 0x100000
def heapEnd : ℕ := 0x200000
def heapSize : ℕ := heapEnd - heapStart
def minAllocSize : ℕ := 16
def headerSize : ℕ := 8

section
variable (m : Mem) (block : ℕ)

def blockSize : ℕ := read32 m block
def isFree : ℕ := read32 m (block + 4)
def setSize (size : ℕ) : Mem := write32 m block size
def setFree (flag : ℕ) : Mem := write32 m (block + 4) flag

end

def kmallocInit (m : Mem) : Mem := setFree (setSize m heapStart heapSize) heapStart 1

structure Search where
  current : ℕ
  bestFit : Option ℕ
  bestFitSize : ℕ

def Search.next (m : Mem) (s : Search) : Search :=
  { s with current := add32 s.current (blockSize m s.current) }

/-- One turn of the search; a perfect fit leaves the loop. -/
def searchStep (m : Mem) (totalSize : ℕ) (s : Search) : Search ⊕ Search :=
  if s.current < heapEnd then
    if isFree m s.current ≠ 0 ∧ totalSize ≤ blockSize m s.current then
      if blockSize m s.current < s.bestFitSize then
        let s : Search := { s with bestFit := some s.current, bestFitSize := blockSize m s.current }
        if s.bestFitSize = totalSize then .inr s else .inl (s.next m)
      else .inl (s.next m)
    else .inl (s.next m)
  else .inr s

def search (fuel : ℕ) (m : Mem) (totalSize : ℕ) : Option Search :=
  loop (searchStep m totalSize) fuel ⟨heapStart,none,0xFFFFFFFF⟩

def alignSize (size : ℕ) : ℕ := if size % 4 ≠ 0 then add32 size (4 - size % 4) else size

/-- Splitting off the remainder and marking the block, steps 4 and 5. -/
def takeBlock (m : Mem) (bestFit totalSize : ℕ) : Mem :=
  let m :=
    if add32 (add32 totalSize headerSize) minAllocSize ≤ blockSize m bestFit then
      let newBlock := add32 bestFit totalSize
      let m := setSize m newBlock (sub32 (blockSize m bestFit) totalSize)
      let m := setFree m newBlock 1
      setSize m bestFit totalSize
    else m
  setFree m bestFit 0

/-- The returned pointer, 0 for `NULL`, and the memory afterwards. -/
def kmalloc (fuel size : ℕ) (m : Mem) : Option (ℕ × Mem) :=
  if size = 0 then some (0, m)
  else
    let totalSize := add32 (alignSize size) headerSize
    match search fuel m totalSize with
    | none => none
    | some s =>
      match s.bestFit with
      | none => some (0, m)
      | some bestFit => some (add32 bestFit headerSize, takeBlock m bestFit totalSize)

structure Scan where
  current : ℕ
  prev : Option ℕ

def scanStep (m : Mem) (block : ℕ) (s : Scan) : Scan ⊕ Scan :=
  if s.current < heapEnd ∧ s.current ≠ block then
    .inl ⟨add32 s.current (blockSize m s.current),some s.current⟩
  else .inr s

def prevScan (fuel : ℕ) (m : Mem) (block : ℕ) : Option Scan :=
  loop (scanStep m block) fuel ⟨heapStart,none⟩

def mergeNext (m : Mem) (block : ℕ) : Mem :=
  let next := add32 block (blockSize m block)
  if next < heapEnd ∧ isFree m next ≠ 0 then setSize m block (blockSize m block + blockSize m next) else m

def mergePrev (m : Mem) (block : ℕ) : Option ℕ → Mem
  | none => m
  | some prev =>
    if isFree m prev ≠ 0 ∧ add32 prev (blockSize m prev) = block then
      setSize m prev (blockSize m prev + blockSize m block)
    else m

def kfree (fuel ptr : ℕ) (m : Mem) : Option Mem :=
  if ptr = 0 then some m
  else
    let block := sub32 ptr headerSize
    let m := mergeNext (setFree m block 1) block
    match prevScan fuel m block with
    | none => none
    | some s => some (mergePrev m block s.prev)

/-- Counters of `kmalloc_status`; `current` is where its walk stands. -/
structure Status where
  current : ℕ
  totalBlocks : ℕ
  freeBlocks : ℕ
  allocatedBlocks : ℕ
  totalFree : ℕ
  totalAllocated : ℕ

def statusStep (m : Mem) (s : Status) : Status ⊕ Status :=
  if s.current < heapEnd then
    let next := add32 s.current (blockSize m s.current)
    let payload := sub32 (blockSize m s.current) headerSize
    if isFree m s.current ≠ 0 then
      .inl { s with
        current := next
        totalBlocks := add32 s.totalBlocks 1
        freeBlocks := add32 s.freeBlocks 1
        totalFree := add32 s.totalFree payload }
    else
      .inl { s with
        current := next
        totalBlocks := add32 s.totalBlocks 1
        allocatedBlocks := add32 s.allocatedBlocks 1
        totalAllocated := add32 s.totalAllocated payload }
  else .inr s

def kmallocStatus (fuel : ℕ) (m : Mem) : Option Status :=
  loop (statusStep m) fuel ⟨heapStart,0,0,0,0,0⟩

end ApPa.Heap

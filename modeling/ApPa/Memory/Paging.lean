import ApPa.Lib.ByteMem
import ApPa.Lib.Word32
import ApPa.Memory.Pmm

/-! # Page directories and page tables

`paging.c` on physical memory. The kernel's identity mapping of the first 16 MB makes a
physical address usable as a pointer, so directories and tables are read and written at
their physical addresses. TLB flushes and the load of CR0 have no counterpart here.
-/
namespace ApPa.Memory
open ByteMem Word32

def pagePresent : ℕ := 0x1
def pageWritable : ℕ := 0x2
def pageUser : ℕ := 0x4
def pageFrameMask : ℕ := 0xFFFFF000
def userStackVirt : ℕ := 0xBFFFF000
def userStackTop : ℕ := 0xC0000000
def kernelPdeCount : ℕ := 4
def pagesPerTable : ℕ := 1024
def tablesPerDir : ℕ := 1024

def pageDirIndex (va : ℕ) : ℕ := (va >>> 22) &&& 0x3FF
def pageTableIndex (va : ℕ) : ℕ := (va >>> 12) &&& 0x3FF
def pageFrame (entry : ℕ) : ℕ := entry &&& pageFrameMask
def isPresent (entry : ℕ) : Prop := entry &&& pagePresent ≠ 0
instance (entry : ℕ) : Decidable (isPresent entry) := inferInstanceAs (Decidable (_ ≠ _))
def isUser (entry : ℕ) : Prop := entry &&& pageUser ≠ 0
instance (entry : ℕ) : Decidable (isUser entry) := inferInstanceAs (Decidable (_ ≠ _))

def entry (m : Mem) (base i : ℕ) : ℕ := read32 m (base + 4 * i)
def setEntry (m : Mem) (base i v : ℕ) : Mem := write32 m (base + 4 * i) v

structure Phys where
  mem : Mem
  pmm : Pmm

structure Paging where
  kernelDirectory : ℕ
  pdTables : ℕ → ℕ
  pdPhysicalAddress : ℕ

namespace Phys

def allocPage (p : Phys) : ℕ × Phys := (p.pmm.allocPage.1, { p with pmm := p.pmm.allocPage.2 })
def freePage (p : Phys) (addr : ℕ) : Phys := { p with pmm := p.pmm.freePage addr }
def clearPage (p : Phys) (addr : ℕ) : Phys := { p with mem := fill p.mem addr pageSize 0 }
def setEntry (p : Phys) (base i v : ℕ) : Phys := { p with mem := Memory.setEntry p.mem base i v }

end Phys

/-- The identity map of the 4 MB chunk `i`, filled in entry by entry. -/
def identityTable (i : ℕ) (j : ℕ) : ℕ := (i * 0x400000 + j * 0x1000) ||| pagePresent ||| pageWritable

/-- The loop of `paging_init` over the chunks `i, …, i + n - 1`; it stops when a page table
cannot be allocated. -/
def pagingInitTables (pg : Paging) (p : Phys) (i : ℕ) : ℕ → Phys × Paging
  | 0 => (p, pg)
  | n + 1 =>
    let (ptPhys, p) := p.allocPage
    if ptPhys = 0 then (p, pg)
    else
      let p := { p with mem := storeWords p.mem ptPhys (identityTable i) pagesPerTable }
      let p := p.setEntry pg.kernelDirectory i (ptPhys ||| pagePresent ||| pageWritable)
      pagingInitTables { pg with pdTables := Function.update pg.pdTables i ptPhys } p (i + 1) n

def pagingInit (pg : Paging) (p : Phys) : Phys × Paging :=
  let (pdPhys, p) := p.allocPage
  if pdPhys = 0 then (p, pg)
  else pagingInitTables ⟨pdPhys,fun _ => 0,pdPhys⟩ (p.clearPage pdPhys) 0 4

/-- The kernel's table for a directory slot; one is allocated when the slot is empty, and the
user bit is passed on to an existing one. `false` when the allocation fails. -/
def kernelTableFor (pg : Paging) (p : Phys) (pdIdx flags : ℕ) : Bool × Phys × Paging :=
  if ¬isPresent (entry p.mem pg.kernelDirectory pdIdx) then
    let (ptPhys, p) := p.allocPage
    if ptPhys = 0 then (false, p, pg)
    else
      let p := p.clearPage ptPhys
      let p := p.setEntry pg.kernelDirectory pdIdx (ptPhys ||| pagePresent ||| pageWritable ||| (flags &&& pageUser))
      (true, p, { pg with pdTables := Function.update pg.pdTables pdIdx ptPhys })
  else if flags &&& pageUser ≠ 0 then
    (true, p.setEntry pg.kernelDirectory pdIdx (entry p.mem pg.kernelDirectory pdIdx ||| pageUser), pg)
  else (true, p, pg)

def pagingMapPage (pg : Paging) (p : Phys) (virt phys flags : ℕ) : Phys × Paging :=
  match kernelTableFor pg p (pageDirIndex virt) flags with
  | (false, p, pg) => (p, pg)
  | (true, p, pg) =>
    let pte := (phys &&& pageFrameMask) ||| (flags &&& 0xFFF) ||| pagePresent
    (p.setEntry (pg.pdTables (pageDirIndex virt)) (pageTableIndex virt) pte, pg)

def pagingUnmapPage (pg : Paging) (p : Phys) (virt : ℕ) : Phys :=
  if ¬isPresent (entry p.mem pg.kernelDirectory (pageDirIndex virt)) then p
  else if pg.pdTables (pageDirIndex virt) = 0 then p
  else p.setEntry (pg.pdTables (pageDirIndex virt)) (pageTableIndex virt) 0

/-- The physical address, 0 when the page is not present. -/
def pagingTranslate (pg : Paging) (p : Phys) (virt : ℕ) : ℕ :=
  if ¬isPresent (entry p.mem pg.kernelDirectory (pageDirIndex virt)) then 0
  else if pg.pdTables (pageDirIndex virt) = 0 then 0
  else
    let pte := entry p.mem (pg.pdTables (pageDirIndex virt)) (pageTableIndex virt)
    if ¬isPresent pte then 0 else pageFrame pte ||| (virt &&& 0xFFF)

/-- Copy the shared kernel entries `i, …, i + n - 1` into a fresh directory. -/
def copyKernelEntries (pg : Paging) (dir : ℕ) (p : Phys) (i : ℕ) : ℕ → Phys
  | 0 => p
  | n + 1 => copyKernelEntries pg dir (p.setEntry dir i (entry p.mem pg.kernelDirectory i)) (i + 1) n

/-- The new directory, 0 for `NULL`. -/
def pagingCloneDirectory (pg : Paging) (p : Phys) : ℕ × Phys :=
  let (dirPhys, p) := p.allocPage
  if dirPhys = 0 then (0, p)
  else
    let p := p.clearPage dirPhys
    if pg.pdTables 0 = 0 then (dirPhys, copyKernelEntries pg dirPhys p 1 (kernelPdeCount - 1))
    else
      let (pt0Phys, p) := p.allocPage
      if pt0Phys = 0 then (0, p.freePage dirPhys)
      else
        let p := { p with mem := store p.mem pt0Phys (load p.mem (pg.pdTables 0) pageSize) }
        let p := p.setEntry dirPhys 0 (pt0Phys ||| pagePresent ||| pageWritable)
        (dirPhys, copyKernelEntries pg dirPhys p 1 (kernelPdeCount - 1))

/-- The table of a directory slot; one is allocated when the slot is empty, and the user
bit is passed on to an existing one. `false` when the allocation fails. -/
def tableFor (p : Phys) (dir pdIdx flags : ℕ) : Bool × Phys :=
  if ¬isPresent (entry p.mem dir pdIdx) then
    let (ptPhys, p) := p.allocPage
    if ptPhys = 0 then (false, p)
    else
      let p := p.clearPage ptPhys
      (true, p.setEntry dir pdIdx (ptPhys ||| pagePresent ||| pageWritable ||| (flags &&& pageUser)))
  else if flags &&& pageUser ≠ 0 then
    (true, p.setEntry dir pdIdx (entry p.mem dir pdIdx ||| pageUser))
  else (true, p)

def pagingMapPageIn (p : Phys) (dir virt phys flags : ℕ) : Phys :=
  match tableFor p dir (pageDirIndex virt) flags with
  | (false, p) => p
  | (true, p) =>
    let table := entry p.mem dir (pageDirIndex virt) &&& pageFrameMask
    p.setEntry table (pageTableIndex virt) ((phys &&& pageFrameMask) ||| (flags &&& 0xFFF) ||| pagePresent)

/-- Free every page mapped by the table at `pt`, then the table. -/
def freeTable (m : Mem) (pt : ℕ) (pmm : Pmm) : Pmm :=
  ((List.range pagesPerTable).foldl (fun pmm j =>
    if isPresent (entry m pt j) then pmm.freePage (entry m pt j &&& pageFrameMask) else pmm) pmm).freePage pt

def freeTables (m : Mem) (dir : ℕ) (pmm : Pmm) : Pmm :=
  (List.range' kernelPdeCount (tablesPerDir - kernelPdeCount)).foldl (fun pmm i =>
    if isPresent (entry m dir i) then freeTable m (entry m dir i &&& pageFrameMask) pmm else pmm) pmm

def pagingFreeDirectory (p : Phys) (dir : ℕ) : Phys :=
  if dir = 0 then p
  else
    let pmm := if isPresent (entry p.mem dir 0) then p.pmm.freePage (entry p.mem dir 0 &&& pageFrameMask)
      else p.pmm
    { p with pmm := (freeTables p.mem dir pmm).freePage dir }

end ApPa.Memory

import ApPa.Task.Task

/-! # The ELF loader

`elf.c`. The file is the bytes found at 32-bit offsets from the buffer; offsets wrap, as
pointers do. The outer `Option` of a load is `none` when the load has no defined result: a
write below the bottom of memory or past the end of an array, or a walk of the ready queue
that does not return.
-/
namespace ApPa.Exec
open ByteMem LittleEndian Memory Tasks Word32

abbrev File := ℕ → UInt8

def bytesAt (f : File) (off n : ℕ) : List UInt8 := (List.range n).map fun t => f (add32 off t)
def half (f : File) (off : ℕ) : ℕ := leNat (bytesAt f off 2)
def word (f : File) (off : ℕ) : ℕ := leNat (bytesAt f off 4)

/-- The fields of `elf32_ehdr_t` that the loader reads. -/
structure Ehdr where
  ident : ℕ → UInt8
  type : ℕ
  machine : ℕ
  entry : ℕ
  phoff : ℕ
  phentsize : ℕ
  phnum : ℕ

def readEhdr (f : File) : Ehdr where
  ident := f
  type := half f 16
  machine := half f 18
  entry := word f 24
  phoff := word f 28
  phentsize := half f 42
  phnum := half f 44

/-- The fields of `elf32_phdr_t` that the loader reads. -/
structure Phdr where
  type : ℕ
  offset : ℕ
  vaddr : ℕ
  filesz : ℕ
  memsz : ℕ
  flags : ℕ
  deriving DecidableEq

def readPhdr (f : File) (off : ℕ) : Phdr where
  type := word f off
  offset := word f (add32 off 4)
  vaddr := word f (add32 off 8)
  filesz := word f (add32 off 16)
  memsz := word f (add32 off 20)
  flags := word f (add32 off 24)

def sizeofEhdr : ℕ := 52
def sizeofPhdr : ℕ := 32
def ptLoad : ℕ := 1
def pfW : ℕ := 0x2

def elfValidate (buf : Option File) (size : ℕ) : ℤ :=
  match buf with
  | none => -1
  | some f =>
    let ehdr := readEhdr f
    if size < sizeofEhdr then -1
    else if ehdr.ident 0 ≠ 0x7F ∨ ehdr.ident 1 ≠ 0x45 ∨ ehdr.ident 2 ≠ 0x4C ∨ ehdr.ident 3 ≠ 0x46 then -1
    else if ehdr.ident 4 ≠ 1 then -1
    else if ehdr.ident 5 ≠ 1 then -1
    else if ehdr.type ≠ 2 then -1
    else if ehdr.machine ≠ 3 then -1
    else if ehdr.phoff = 0 ∨ ehdr.phnum = 0 then -1
    else if ehdr.phentsize < sizeofPhdr then -1
    else if size < add32 ehdr.phoff (ehdr.phnum * ehdr.phentsize) then -1
    else if ehdr.entry = 0 then -1
    else 0

def phdrAt (f : File) (i : ℕ) : Phdr := readPhdr f (add32 (readEhdr f).phoff (i * (readEhdr f).phentsize))

/-- The overlap of a page with the file-backed part of its segment: offset in the page,
offset in the file, length. -/
def copyRange (ph : Phdr) (vpage : ℕ) : Option (ℕ × ℕ × ℕ) :=
  let pageEnd := add32 vpage pageSize
  let fileVaEnd := add32 ph.vaddr ph.filesz
  let copyStart := if vpage < ph.vaddr then ph.vaddr else vpage
  let copyEnd := if fileVaEnd < pageEnd then fileVaEnd else pageEnd
  if copyStart < copyEnd then
    some (copyStart - vpage, add32 ph.offset (copyStart - ph.vaddr), copyEnd - copyStart)
  else none

/-- The contents of a page: zeroes, then the file data that falls into it. -/
def fillPage (f : File) (ph : Phdr) (m : Mem) (phys vpage : ℕ) : Mem :=
  let m := fill m phys pageSize 0
  match copyRange ph vpage with
  | none => m
  | some (dst, off, len) => store m (phys + dst) (bytesAt f off len)

def segFlags (ph : Phdr) : ℕ :=
  let flags := pagePresent ||| pageUser
  if ph.flags &&& pfW ≠ 0 then flags ||| pageWritable else flags

def segStart (ph : Phdr) : ℕ := ph.vaddr &&& pageFrameMask
def segEnd (ph : Phdr) : ℕ := add32 (add32 ph.vaddr ph.memsz) (pageSize - 1) &&& pageFrameMask

/-- The page loop over `n` pages from `vpage` on; `false` when a page cannot be allocated.
Both ends of the loop are page addresses below `2 ^ 32`, so its counter does not wrap. -/
def loadPages (f : File) (ph : Phdr) (dir : ℕ) (p : Phys) (vpage : ℕ) : ℕ → Bool × Phys
  | 0 => (true, p)
  | n + 1 =>
    let (phys, p) := p.allocPage
    if phys = 0 then (false, p)
    else
      let p := { p with mem := fillPage f ph p.mem phys vpage }
      loadPages f ph dir (pagingMapPageIn p dir vpage phys (segFlags ph)) (vpage + pageSize) n

/-- One turn of the loop over the program headers; `false` for `return -1`. -/
def loadSegment (f : File) (size dir : ℕ) (p : Phys) (ph : Phdr) : Bool × Phys :=
  if ph.type ≠ ptLoad then (true, p)
  else if ph.memsz = 0 then (true, p)
  else if ph.memsz < ph.filesz then (false, p)
  else if size < add32 ph.offset ph.filesz then (false, p)
  else if ph.vaddr < kernelPdeCount * 4 * 1024 * 1024 then (false, p)
  else loadPages f ph dir p (segStart ph) ((segEnd ph - segStart ph) / pageSize)

/-- The loop over `n` program headers from number `i` on. -/
def loadSegments (f : File) (size dir : ℕ) (p : Phys) (i : ℕ) : ℕ → Bool × Phys
  | 0 => (true, p)
  | n + 1 =>
    match loadSegment f size dir p (phdrAt f i) with
    | (false, p) => (false, p)
    | (true, p) => loadSegments f size dir p (i + 1) n

/-- An argument: the bytes before its NUL. It lies in mapped memory, of which there is
less than 2 GB. -/
abbrev Arg := { s : List UInt8 // s.length < 2 ^ 31 }

def argvMaxTotal : ℕ := pageSize - 256

/-- The first loop of `setup_user_stack_args`. -/
def totalStr (argv : ℕ → Arg) : ℕ → ℕ
  | 0 => 0
  | n + 1 => add32 (totalStr argv n) ((argv n).1.length + 1)

/-- Copy the arguments `n - 1, …, 0` downwards from `cursor`. The result lists where each one
was put, the first argument first. -/
def copyStrings (argv : ℕ → Arg) (m : Mem) (cursor : ℕ) : ℕ → Option (Mem × ℕ × List ℕ)
  | 0 => some (m, cursor, [])
  | n + 1 =>
    let len := (argv n).1.length + 1
    if cursor < len then none
    else
      match copyStrings argv (store m (cursor - len) ((argv n).1 ++ [0])) (cursor - len) n with
      | none => none
      | some (m, c, addrs) => some (m, c, addrs ++ [cursor - len])

/-- The virtual address of a byte of the stack page that ends at `pageTop`. -/
def stackVirt (pageTop a : ℕ) : ℕ := sub32 userStackTop (pageTop - a)

/-- The initial stack pointer of the task, and memory with the arguments on its stack. -/
def setupUserStackArgs (m : Mem) (ustackPhys : ℕ) (argv : Option (ℕ → Arg)) (argc : ℤ) : Option (ℕ × Mem) :=
  match argv with
  | none => some (userStackTop, m)
  | some argv =>
    if argc ≤ 0 then some (userStackTop, m)
    else
      let n := argc.toNat
      let pageTop := ustackPhys + pageSize
      let ptrSpace := (n + 1 + 1 + 1) * 4 % 2 ^ 32
      if argvMaxTotal < add32 (totalStr argv n) ptrSpace then some (userStackTop, m)
      -- an index past the end of `virt_addrs`
      else if 64 < n then none
      else
        match copyStrings argv m pageTop n with
        | none => none
        | some (m, cursor, addrs) =>
          let slot := cursor / 4 * 4
          if slot < (n + 3) * 4 then none
          else
            let (m, slot) := push m slot (0 :: (addrs.map (stackVirt pageTop)).reverse)
            let (m, slot) := push m slot [stackVirt pageTop slot, n]
            some (stackVirt pageTop slot, m)

def elfLoadInternal (img : Image) (k : Kernel) (f : File) (size : ℕ) (taskName : List UInt8)
    (argv : Option (ℕ → Arg)) (argc : ℤ) : Option (Option (Fin 64) × Kernel) :=
  if elfValidate (some f) size ≠ 0 then some (none, k)
  else
    let ehdr := readEhdr f
    let (dir, phys) := pagingCloneDirectory k.paging k.phys
    if dir = 0 then some (none, { k with phys })
    else
      match loadSegments f size dir phys 0 ehdr.phnum with
      | (false, phys) => some (none, { k with phys := pagingFreeDirectory phys dir })
      | (true, phys) =>
        let (ustackPhys, phys) := phys.allocPage
        if ustackPhys = 0 then some (none, { k with phys := pagingFreeDirectory phys dir })
        else
          let phys := phys.clearPage ustackPhys
          let phys := pagingMapPageIn phys dir userStackVirt ustackPhys (pagePresent ||| pageWritable ||| pageUser)
          match setupUserStackArgs phys.mem ustackPhys argv argc with
          | none => none
          | some (userEsp, mem) =>
            match taskCreateUserMapped img { k with phys := { phys with mem } } ehdr.entry taskName dir dir userEsp with
            | none => none
            | some (some i, k) => some (some i, k)
            | some (none, k) => some (none, { k with phys := pagingFreeDirectory k.phys dir })

def elfExecMem (img : Image) (k : Kernel) (buf : Option File) (size : ℕ) (taskName : Option (List UInt8))
    (argv : Option (ℕ → Arg)) (argc : ℤ) : Option (Option (Fin 64) × Kernel) :=
  match buf, taskName with
  | some f, some name => if size = 0 then some (none, k) else elfLoadInternal img k f size name argv argc
  | _, _ => some (none, k)

end ApPa.Exec

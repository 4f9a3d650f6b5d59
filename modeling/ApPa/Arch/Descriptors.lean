import ApPa.Lib.Protected

/-! # The tables of the processor

`gdt.c`, `idt.c`, `tss.c` and the gate that `syscall_init` adds. The tables are laid out in memory as the C structures are, and
the processor reads back what the setters were given.
-/
namespace ApPa.Arch
open LittleEndian Protected

/-- Addresses that the linker assigns. -/
structure Symbols where
  isr : Fin 32 → UInt32
  irq : Fin 16 → UInt32
  syscallStub : UInt32
  tss : UInt32

/-! ## Segments -/

structure GdtEntry where
  limitLow : UInt16
  baseLow : UInt16
  baseMiddle : UInt8
  access : UInt8
  granularity : UInt8
  baseHigh : UInt8
  deriving DecidableEq, Repr

def GdtEntry.bytes (e : GdtEntry) : List UInt8 :=
  le16 e.limitLow.toNat ++ le16 e.baseLow.toNat ++ [e.baseMiddle, e.access, e.granularity, e.baseHigh]

def gdtEntries : ℕ := 6

abbrev Gdt := ℕ → GdtEntry

def gdtSetGate (gdt : Gdt) (num : ℕ) (base limit : UInt32) (access gran : UInt8) : Gdt :=
  Function.update gdt num
    { baseLow := (base &&& 0xFFFF).toUInt16
      baseMiddle := (base >>> 16 &&& 0xFF).toUInt8
      baseHigh := (base >>> 24 &&& 0xFF).toUInt8
      limitLow := (limit &&& 0xFFFF).toUInt16
      granularity := (limit >>> 16 &&& 0x0F).toUInt8 ||| gran &&& 0xF0
      access := access }

def gdtInit (gdt : Gdt) : Gdt :=
  let gdt := gdtSetGate gdt 0 0 0 0 0
  let gdt := gdtSetGate gdt 1 0 0xFFFFFFFF 0x9A 0xCF
  let gdt := gdtSetGate gdt 2 0 0xFFFFFFFF 0x92 0xCF
  let gdt := gdtSetGate gdt 3 0 0xFFFFFFFF 0xFA 0xCF
  let gdt := gdtSetGate gdt 4 0 0xFFFFFFFF 0xF2 0xCF
  gdtSetGate gdt 5 0 0 0 0

/-- The part of the table within `gp.limit`. -/
def gdtBytes (gdt : Gdt) : List UInt8 := (List.range gdtEntries).flatMap fun i => (gdt i).bytes

/-! ## The task state segment -/

/-- The members that are not zero. -/
structure TssEntry where
  esp0 : UInt32
  ss0 : UInt32
  iomapBase : UInt16
  deriving DecidableEq, Repr

/-- 25 words, `trap` and `iomap_base`. -/
def TssEntry.bytes (e : TssEntry) : List UInt8 :=
  le32 0 ++ le32 e.esp0.toNat ++ le32 e.ss0.toNat ++ List.replicate 88 0 ++ le16 0 ++ le16 e.iomapBase.toNat

def tssSize : ℕ := 104

def tssInit (sym : Symbols) (gdt : Gdt) (kernelSs kernelEsp : UInt32) : Gdt × TssEntry :=
  (gdtSetGate gdt 5 sym.tss (UInt32.ofNat (tssSize - 1)) 0xE9 0x00, ⟨kernelEsp,kernelSs,UInt16.ofNat tssSize⟩)

def tssSetKernelStack (e : TssEntry) (esp0 : UInt32) : TssEntry := { e with esp0 := esp0 }

/-! ## Gates -/

structure InterruptDescriptor32 where
  offset1 : UInt16
  selector : UInt16
  zero : UInt8
  typeAttributes : UInt8
  offset2 : UInt16
  deriving DecidableEq, Repr

def InterruptDescriptor32.bytes (e : InterruptDescriptor32) : List UInt8 :=
  le16 e.offset1.toNat ++ le16 e.selector.toNat ++ [e.zero, e.typeAttributes] ++ le16 e.offset2.toNat

def idtEntries : ℕ := 256
def kernelCodeSeg : UInt16 := 0x08
def idtFlagPresent : UInt8 := 0x80
def idtFlagRing0 : UInt8 := 0x00
def idtFlagGateInt : UInt8 := 0x0E

abbrev Idt := UInt8 → InterruptDescriptor32

def idtSetGate (idt : Idt) (num : UInt8) (handler : UInt32) (selector : UInt16) (flags : UInt8) : Idt :=
  Function.update idt num
    { offset1 := (handler &&& 0xFFFF).toUInt16
      offset2 := (handler >>> 16 &&& 0xFFFF).toUInt16
      selector := selector
      zero := 0
      typeAttributes := flags }

def idtSetGates (idt : Idt) (num : ℕ) (handlers : List UInt32) : Idt :=
  match handlers with
  | [] => idt
  | h :: hs =>
    idtSetGates (idtSetGate idt (UInt8.ofNat num) h kernelCodeSeg (idtFlagPresent ||| idtFlagRing0 ||| idtFlagGateInt)) (num + 1) hs

def idtInit (sym : Symbols) (idt : Idt) : Idt :=
  let idt := (List.range idtEntries).foldl (fun idt i => idtSetGate idt (UInt8.ofNat i) 0 0 0) idt
  let idt := idtSetGates idt 0 (List.ofFn sym.isr)
  idtSetGates idt 32 (List.ofFn sym.irq)

/-- What `syscall_init` does to the table: a trap gate for Ring 3. -/
def syscallInitGate (sym : Symbols) (idt : Idt) : Idt := idtSetGate idt 0x80 sym.syscallStub 0x08 0xEF

def idtBytes (idt : Idt) : List UInt8 := (List.range idtEntries).flatMap fun i => (idt (UInt8.ofNat i)).bytes

/-- The tables behind `main`'s initialization, from any contents before it, with the kernel stack that `tss_set_kernel_stack`
has set last. -/
def tables (sym : Symbols) (gdt : Gdt) (idt : Idt) (esp0 : UInt32) : Tables :=
  let gdt := gdtInit gdt
  let idt := idtInit sym idt
  let (gdt, tss) := tssInit sym gdt 0x10 0x9FC00
  let idt := syscallInitGate sym idt
  ⟨gdtBytes gdt,idtBytes idt,(tssSetKernelStack tss esp0).bytes⟩

/-! ## What the processor reads -/

section
variable (base limit : UInt32) (access gran : UInt8) (handler : UInt32) (selector : UInt16) (flags : UInt8)

theorem decode_gdtSetGate (gdt : Gdt) (num : ℕ) :
    Descriptor.decode (gdtSetGate gdt num base limit access gran num).bytes =
      some ⟨base.toNat,limit.toNat % 2 ^ 20,access,gran.toNat / 16⟩ := by
  have hmask : ∀ n < 256, n &&& 240 = 2 ^ 4 * (n / 16) := by decide +kernel
  have hlow : (limit >>> 16 &&& 0x0F).toUInt8.toNat = limit.toNat / 2 ^ 16 % 16 := by
    simp [Nat.shiftRight_eq_div_pow, Nat.and_two_pow_sub_one_eq_mod _ 4]
  have hgran : ((limit >>> 16 &&& 0x0F).toUInt8 ||| gran &&& 0xF0).toNat =
      2 ^ 4 * (gran.toNat / 16) + limit.toNat / 2 ^ 16 % 16 := by
    rw [UInt8.toNat_or, UInt8.toNat_and, hlow, show (0xF0 : UInt8).toNat = 240 from rfl, hmask _ gran.toNat_lt, Nat.or_comm,
      Nat.two_pow_add_eq_or_of_lt (by omega)]
  have hbase := base.toNat_lt
  have hg := gran.toNat_lt
  simp only [gdtSetGate, Function.update_self, GdtEntry.bytes, le16, List.cons_append, List.nil_append, Descriptor.decode,
    leNat, leByte_toNat, hgran]
  simp [Nat.shiftRight_eq_div_pow, Nat.and_two_pow_sub_one_eq_mod _ 8, Nat.and_two_pow_sub_one_eq_mod _ 16]
  omega

theorem decode_idtSetGate (idt : Idt) (num : UInt8) :
    Gate.decode (idtSetGate idt num handler selector flags num).bytes = some ⟨handler.toNat,selector,flags⟩ := by
  have hhandler := handler.toNat_lt
  have hselector : UInt16.ofNat (leNat [leByte selector.toNat 0, leByte selector.toNat 1]) = selector := by
    rw [← le16, leNat_le16, Nat.mod_eq_of_lt selector.toNat_lt, UInt16.ofNat_toNat]
  simp only [idtSetGate, Function.update_self, InterruptDescriptor32.bytes, le16, List.cons_append, List.nil_append,
    Gate.decode, hselector]
  simp [leNat, Nat.shiftRight_eq_div_pow, Nat.and_two_pow_sub_one_eq_mod _ 16]
  omega

end

/-! ## The tables after the initialization -/

section
variable (sym : Symbols) (gdt : Gdt) (idt : Idt) (esp0 : UInt32)

theorem idtSetGates_of_notMem {num : ℕ} {handlers : List UInt32} {v : UInt8} (hlen : num + handlers.length ≤ 256)
    (hv : v.toNat < num ∨ num + handlers.length ≤ v.toNat) : idtSetGates idt num handlers v = idt v := by
  induction handlers generalizing idt num with
  | nil => rfl
  | cons h hs ih =>
    simp only [List.length_cons] at hlen hv
    have hnum : (UInt8.ofNat num).toNat = num := UInt8.toNat_ofNat_of_lt' (by change num < 256; omega)
    have hne : v ≠ UInt8.ofNat num := by
      rintro rfl
      omega
    rw [idtSetGates, ih _ (by omega) (by omega)]
    exact Function.update_of_ne hne ..

theorem decode_idtSetGates {num k : ℕ} {handlers : List UInt32} {h : UInt32} {v : UInt8} (hlen : num + handlers.length ≤ 256)
    (hh : handlers[k]? = some h) (hv : v.toNat = num + k) :
    Gate.decode (idtSetGates idt num handlers v).bytes = some ⟨h.toNat,kernelCodeSeg,0x8E⟩ := by
  induction handlers generalizing idt num k with
  | nil => simp at hh
  | cons h' hs ih =>
    simp only [List.length_cons] at hlen
    rw [idtSetGates]
    cases k with
    | zero =>
      simp only [List.getElem?_cons_zero, Option.some.injEq] at hh
      have hnum : UInt8.ofNat num = v := by rw [← UInt8.ofNat_toNat (x := v), hv, Nat.add_zero]
      rw [idtSetGates_of_notMem _ (by omega) (by omega), hnum, hh]
      exact decode_idtSetGate ..
    | succ k =>
      rw [List.getElem?_cons_succ] at hh
      exact ih _ (by omega) hh (by omega)

theorem decode_clear {n : ℕ} {v : UInt8} (hn : n ≤ 256) (hv : v.toNat < n) :
    Gate.decode ((List.range n).foldl (fun idt i => idtSetGate idt (UInt8.ofNat i) 0 0 0) idt v).bytes = some ⟨0,0,0⟩ := by
  induction n with
  | zero => exact absurd hv (Nat.not_lt_zero _)
  | succ n ih =>
    rw [List.range_succ, List.foldl_append, List.foldl_cons, List.foldl_nil]
    by_cases hlast : v.toNat = n
    · have hnum : UInt8.ofNat n = v := by rw [← hlast, UInt8.ofNat_toNat]
      rw [hnum]
      exact decode_idtSetGate ..
    · have hnum : (UInt8.ofNat n).toNat = n := UInt8.toNat_ofNat_of_lt' (by change n < 256; omega)
      have hne : v ≠ UInt8.ofNat n := by
        rintro rfl
        exact hlast hnum
      rw [idtSetGate, Function.update_of_ne hne]
      exact ih (by omega) (by omega)

def stubOf (v : UInt8) : Option UInt32 :=
  if h : v.toNat < 32 then some (sym.isr ⟨v.toNat,h⟩)
  else if h : v.toNat < 48 then some (sym.irq ⟨v.toNat - 32,by omega⟩)
  else if v = 0x80 then some sym.syscallStub
  else none

/-- Vectors with a stub have a present gate of the kernel's code segment, and the others have none. -/
theorem gate_eq (v : UInt8) : (tables sym gdt idt esp0).gate v =
    some (match stubOf sym v with
      | some h => ⟨h.toNat,kernelCodeSeg,if v = 0x80 then 0xEF else 0x8E⟩
      | none => ⟨0,0,0⟩) := by
  have hentry : (tables sym gdt idt esp0).gate v =
      Gate.decode (syscallInitGate sym (idtInit sym idt) v).bytes := by
    unfold Tables.gate tables
    dsimp only
    rw [idtBytes, entry_flatMap (fun i => by simp [InterruptDescriptor32.bytes]) (show v.toNat < idtEntries from v.toNat_lt)]
    simp
  rw [hentry]
  by_cases hsys : v = 0x80
  · subst hsys
    exact decode_idtSetGate ..
  · have hkeep : syscallInitGate sym (idtInit sym idt) v = idtInit sym idt v := Function.update_of_ne hsys ..
    have hisr : (List.ofFn sym.isr).length = 32 := List.length_ofFn
    have hirq : (List.ofFn sym.irq).length = 16 := List.length_ofFn
    rw [hkeep]
    unfold idtInit stubOf
    by_cases h32 : v.toNat < 32
    · rw [idtSetGates_of_notMem _ (by omega) (by omega), dif_pos h32]
      simp only [if_neg hsys]
      exact decode_idtSetGates _ (by omega) (by rw [List.getElem?_ofFn, dif_pos h32]) (Nat.zero_add _).symm
    · rw [dif_neg h32]
      by_cases h48 : v.toNat < 48
      · rw [dif_pos h48]
        simp only [if_neg hsys]
        exact decode_idtSetGates _ (by omega) (by rw [List.getElem?_ofFn, dif_pos (by omega)]) (Nat.add_sub_cancel' (Nat.not_lt.mp h32)).symm
      · rw [dif_neg h48, idtSetGates_of_notMem _ (by omega) (by omega), idtSetGates_of_notMem _ (by omega) (by omega)]
        simp only [if_neg hsys]
        exact decode_clear _ (Nat.le_refl 256) v.toNat_lt

def segments : List (UInt16 × Descriptor) :=
  [(0x08, ⟨0,2 ^ 20 - 1,0x9A,0xC⟩), (0x10, ⟨0,2 ^ 20 - 1,0x92,0xC⟩), (0x1B, ⟨0,2 ^ 20 - 1,0xFA,0xC⟩),
    (0x23, ⟨0,2 ^ 20 - 1,0xF2,0xC⟩), (0x2B, ⟨sym.tss.toNat,103,0xE9,0⟩)]

theorem descriptor_eq {sel : UInt16} {d : Descriptor} (h : (sel, d) ∈ segments sym) :
    (tables sym gdt idt esp0).descriptor sel = some d := by
  have hentry : ∀ i < 6, entry (tables sym gdt idt esp0).gdt i = some ((tssInit sym (gdtInit gdt) 0x10 0x9FC00).1 i).bytes :=
    fun i hi => entry_flatMap (fun i => by simp [GdtEntry.bytes]) hi
  simp only [segments, List.mem_cons, Prod.mk.injEq, List.not_mem_nil, or_false] at h
  rcases h with ⟨rfl,rfl⟩ | ⟨rfl,rfl⟩ | ⟨rfl,rfl⟩ | ⟨rfl,rfl⟩ | ⟨rfl,rfl⟩
  · exact (congrArg (·.bind Descriptor.decode) (hentry 1 (by decide))).trans (decode_gdtSetGate 0 0xFFFFFFFF 0x9A 0xCF gdt 1)
  · exact (congrArg (·.bind Descriptor.decode) (hentry 2 (by decide))).trans (decode_gdtSetGate 0 0xFFFFFFFF 0x92 0xCF gdt 2)
  · exact (congrArg (·.bind Descriptor.decode) (hentry 3 (by decide))).trans (decode_gdtSetGate 0 0xFFFFFFFF 0xFA 0xCF gdt 3)
  · exact (congrArg (·.bind Descriptor.decode) (hentry 4 (by decide))).trans (decode_gdtSetGate 0 0xFFFFFFFF 0xF2 0xCF gdt 4)
  · exact (congrArg (·.bind Descriptor.decode) (hentry 5 (by decide))).trans (decode_gdtSetGate sym.tss 103 0xE9 0 gdt 5)

theorem tables_esp0 : (tables sym gdt idt esp0).esp0 = esp0 := by
  change UInt32.ofNat (leNat (le32 esp0.toNat)) = esp0
  rw [leNat_le32, Nat.mod_eq_of_lt esp0.toNat_lt, UInt32.ofNat_toNat]

theorem tables_ss0 : (tables sym gdt idt esp0).ss0 = 0x10 := by
  change UInt16.ofNat (leNat [leByte (0x10 : UInt32).toNat 0, leByte (0x10 : UInt32).toNat 1]) = 0x10
  decide

end

/-- Tables as the processor reads them. -/
structure Installed (sym : Symbols) (esp0 : UInt32) (t : Tables) : Prop where
  gate : ∀ v, t.gate v = some (match stubOf sym v with
    | some h => ⟨h.toNat,kernelCodeSeg,if v = 0x80 then 0xEF else 0x8E⟩
    | none => ⟨0,0,0⟩)
  descriptor : ∀ {sel d}, (sel, d) ∈ segments sym → t.descriptor sel = some d
  esp0 : t.esp0 = esp0
  ss0 : t.ss0 = 0x10

theorem tables_installed (sym : Symbols) (gdt : Gdt) (idt : Idt) (esp0 : UInt32) :
    Installed sym esp0 (tables sym gdt idt esp0) :=
  ⟨gate_eq sym gdt idt esp0,descriptor_eq sym gdt idt esp0,tables_esp0 sym gdt idt esp0,tables_ss0 sym gdt idt esp0⟩

end ApPa.Arch

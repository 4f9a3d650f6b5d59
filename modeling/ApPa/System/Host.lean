import ApPa.Exec.Program
import ApPa.Fs.DeviceFrame
import ApPa.Heap.Borrow
import ApPa.System.Run

/-! # Programs from files

`elf_exec` on the one memory that the heap, the page tables and the tasks share with each other, and with a device
that keeps its blocks there. A device is attached when it says which bytes of memory are its own.
-/
namespace ApPa.System
open ByteMem Exec Fs Heap Klibc Memory Tasks Word32

/-! ## Bytes that no walk reads -/

section
variable {k k' : Kernel} {live : List (Fin 64)} {L L' : Frames}

/-- Bytes of the kernel outside its directory. -/
def Private (k : Kernel) (L : Frames) (x : ℕ) : Prop :=
  L (x / pageSize) = some .kernel ∧ x / pageSize ≠ k.paging.kernelDirectory / pageSize

theorem Private.spared {x : ℕ} (h : Private k L x) (hs : KeepsKernel k L k' L') : Private k' L' x :=
  ⟨hs.labels _ h.1,by rw [hs.paging]; exact h.2⟩

theorem Private.not_holdsEntries {x : ℕ} (hx : Private k L x) (h : Owns k live L) : ¬HoldsEntries k live (x / pageSize) := by
  rintro (hdir | ⟨i,hi,htable⟩ | ⟨i,hi,s,_,hframe⟩)
  · exact hx.2 hdir
  · obtain ⟨t,ht,hLt⟩ := h.kernel.table i hi
    rw [ht, Nat.mul_div_cancel _ (by decide)] at htable
    have hlabel := hx.1
    rw [htable, hLt] at hlabel
    cases hlabel
  · have hlabel := hx.1
    rw [h.taskFrame_label hi hframe] at hlabel
    cases hlabel

theorem Owns.write_private (h : Owns k live L) {m : Mem} (hm : ∀ x, ¬Private k L x → m x = k.phys.mem x) :
    Owns { k with phys := ⟨m,k.phys.pmm⟩ } live L :=
  Owns.running h fun x hx => hm x fun hp => hp.not_holdsEntries h hx

end

/-! ## The shared memory -/

/-- The kernel, the variables of the file system and the device behind it. -/
structure Host (δ : Type) where
  kernel : Kernel
  device : δ
  superblock : Superblock
  blockBuf : Block

namespace Host
variable {δ α : Type}

def mem (h : Host δ) : Mem := h.kernel.phys.mem

def setMem (h : Host δ) (m : Mem) : Host δ := { h with kernel := { h.kernel with phys := ⟨m,h.kernel.phys.pmm⟩ } }

def fsState (h : Host δ) : FsState (Mem × δ) := ⟨(h.mem, h.device),h.superblock,h.blockBuf⟩

def withFs (h : Host δ) (s : FsState (Mem × δ)) : Host δ :=
  { h.setMem s.disk.1 with device := s.disk.2, superblock := s.superblock, blockBuf := s.blockBuf }

def fs (h : Host δ) (call : FsState (Mem × δ) → α × FsState (Mem × δ)) : α × Host δ :=
  ((call h.fsState).1, h.withFs (call h.fsState).2)

@[simp] theorem setMem_mem (h : Host δ) (m : Mem) : (h.setMem m).mem = m := rfl
@[simp] theorem withFs_fsState (h : Host δ) (s : FsState (Mem × δ)) : (h.withFs s).fsState = s := rfl

end Host

def elfMaxFileSize : UInt32 := 256 * 1024

section
variable {δ : Type} (dev : BlockDevice (Mem × δ)) (fuel : ℕ) (img : Image)

def releaseBuffer (buf : ℕ) (t : Option (Fin 64)) (h : Host δ) : Option (Option (Fin 64) × Host δ) :=
  (kfree fuel buf h.mem).map fun m => (t, h.setMem m)

/-- What the read stores is stored when it returns. The program is loaded from the bytes at `buf` as they are when the loader is
called. -/
def elfExec (filename taskName : Option (List UInt8)) (argv : Option (ℕ → Arg)) (argc : ℤ) (h : Host δ) :
    Option (Option (Fin 64) × Host δ) :=
  match filename, taskName with
  | some filename, some taskName =>
    match h.fs (fsStat dev filename) with
    | (none, h) => some (none, h)
    | (some entry, h) =>
      if entry.size = 0 ∨ elfMaxFileSize < entry.size then some (none, h)
      else
        match kmalloc fuel entry.size.toNat h.mem with
        | none => none
        | some (buf, m) =>
          let h := h.setMem m
          if buf = 0 then some (none, h)
          else
            let (read, h) := h.fs (fsReadFile dev filename entry.size)
            let h := h.setMem (store h.mem buf read.data)
            if read.ret < 0 ∨ read.ret.toNat < sizeofEhdr then releaseBuffer fuel buf none h
            else
              match elfLoadInternal img h.kernel (fun i => h.mem (add32 buf i)) read.ret.toNat taskName argv argc with
              | none => none
              | some (t, k) => releaseBuffer fuel buf t { h with kernel := k }
  | _, _ => some (none, h)

end

/-! ## Devices in memory -/

/-- A device that does not fail, with the bytes of memory that are its own. -/
structure Attached {δ : Type} (dev : BlockDevice (Mem × δ)) extends Reliable dev where
  region : ℕ → Prop
  contents_congr : ∀ (m m' : Mem) (d : δ), (∀ x, region x → m' x = m x) → contents (m', d) = contents (m, d)
  frames : ∀ m₀ : Mem, dev.Frames fun s => ∀ x, ¬region x → s.1 x = m₀ x

section
variable {δ : Type} {dev : BlockDevice (Mem × δ)} (A : Attached dev)

def Attached.volumeOf (h : Host δ) : Volume := A.volume h.fsState

/-- Queue, frames and files are in order, and the heap and the device have their bytes to themselves. -/
structure Orderly (h : Host δ) (live : List (Fin 64)) (L : Frames) : Prop where
  sched : SchedOk h.kernel live
  owns : Owns h.kernel live L
  dir : heapEnd ≤ h.kernel.paging.kernelDirectory
  region : ∀ x, A.region x → Private h.kernel L x ∧ ¬InHeap x
  volume : Consistent dev.totalBlocks (A.volumeOf h)

variable {A} {h : Host δ} {live live' : List (Fin 64)} {L L' : Frames}

theorem Orderly.inHeap_private (ho : Orderly A h live L) {x : ℕ} (hx : InHeap x) : Private h.kernel L x := by
  have hframe : 256 ≤ x / pageSize ∧ x / pageSize < 512 := by
    unfold InHeap heapStart heapEnd at hx
    simp only [pageSize]
    omega
  refine ⟨ho.owns.reserved _ (Or.inl (by omega)),?_⟩
  have hdir := ho.dir
  unfold heapEnd at hdir
  simp only [pageSize] at hframe ⊢
  omega

theorem volumeOf_setMem {m : Mem} (hm : ∀ x, A.region x → m x = h.mem x) : A.volumeOf (h.setMem m) = A.volumeOf h :=
  Volume.ext (A.contents_congr h.mem m h.device hm) rfl

namespace Orderly

theorem write_heap (ho : Orderly A h live L) {m : Mem} (hm : ∀ x, ¬InHeap x → m x = h.mem x) :
    Orderly A (h.setMem m) live L ∧ A.volumeOf (h.setMem m) = A.volumeOf h := by
  have hvol : A.volumeOf (h.setMem m) = A.volumeOf h := volumeOf_setMem fun x hx => hm x (ho.region x hx).2
  refine ⟨⟨ho.sched.withPhys _,Owns.write_private ho.owns fun x hx => hm x fun hin => hx (ho.inHeap_private hin),ho.dir,
    ho.region,?_⟩,hvol⟩
  rw [hvol]
  exact ho.volume

theorem with_fs (ho : Orderly A h live L) {s : FsState (Mem × δ)} (hm : ∀ x, ¬A.region x → s.disk.1 x = h.mem x)
    (hvol : Consistent dev.totalBlocks (A.volume s)) : Orderly A (h.withFs s) live L := by
  refine ⟨ho.sched.withPhys _,Owns.write_private ho.owns fun x hx => hm x fun hr => hx (ho.region x hr).1,ho.dir,
    ho.region,?_⟩
  rwa [Attached.volumeOf, Host.withFs_fsState]

theorem with_kernel (ho : Orderly A h live L) {k : Kernel} (hs : SchedOk k live') (hown : Owns k live' L')
    (hsp : KeepsKernel h.kernel L k L') :
    Orderly A { h with kernel := k } live' L' ∧ A.volumeOf { h with kernel := k } = A.volumeOf h := by
  have hvol : A.volumeOf { h with kernel := k } = A.volumeOf h :=
    Volume.ext (A.contents_congr h.mem k.phys.mem h.device fun x hx => hsp.mem x (ho.region x hx).1.1) rfl
  refine ⟨⟨hs,hown,?_,fun x hx => ⟨(ho.region x hx).1.spared hsp,(ho.region x hx).2⟩,?_⟩,hvol⟩
  · rw [hsp.paging]
    exact ho.dir
  · rw [hvol]
    exact ho.volume

theorem fs_frame (ho : Orderly A h live L) (call : Call) (x : ℕ) (hx : ¬A.region x) :
    (Fs.exec dev call h.fsState).2.disk.1 x = h.mem x :=
  (A.exec_frames (A.frames h.mem) call ho.volume).mpr (fun _ _ => rfl) x hx

theorem heap_of_fs (ho : Orderly A h live L) {bs : List Blk} (hheap : HeapOk h.mem bs) (call : Call) :
    HeapOk (Fs.exec dev call h.fsState).2.disk.1 bs :=
  hheap.congr fun x hx => ho.fs_frame call x fun hr => (ho.region x hr).2 hx

end Orderly

end

/-! ## The ways `elf_exec` ends -/

def freeHeap : List Blk := [⟨heapSize,true⟩]

theorem fits_freeHeap {size : ℕ} (hsize : size ≤ 0x40000) : ∃ b ∈ freeHeap, Suits (Heap.need size) b := by
  refine ⟨_,List.mem_singleton_self _,rfl,?_⟩
  change Heap.need size ≤ 0x100000
  unfold Heap.need
  omega

section
variable {δ : Type} {dev : BlockDevice (Mem × δ)} {A : Attached dev} {h h₁ : Host δ} {live : List (Fin 64)} {L : Frames}
  {fuel buf : ℕ} {data filename taskName : List UInt8}

/-- The file is in the buffer, and the rest of the machine is as it was. The buffer can be given back as long as the heap
is left alone. -/
structure Buffered (A : Attached dev) (fuel : ℕ) (h : Host δ) (live : List (Fin 64)) (L : Frames) (data : List UInt8)
    (buf : ℕ) (h₁ : Host δ) : Prop where
  orderly : Orderly A h₁ live L
  kernel : h₁.kernel = { h.kernel with phys := ⟨h₁.mem,h.kernel.phys.pmm⟩ }
  volume : A.volumeOf h₁ = A.volumeOf h
  bytes : ∀ i < data.length, h₁.mem (add32 buf i) = fileOf data i
  release : ∀ m, (∀ x, InHeap x → m x = h₁.mem x) →
    ∃ m', kfree fuel buf m = some m' ∧ HeapOk m' freeHeap ∧ ∀ x, ¬InHeap x → m' x = m x

theorem Buffered.releaseBuffer {live' : List (Fin 64)} {L' : Frames} {k : Kernel} (hb : Buffered A fuel h live L data buf h₁)
    (t : Option (Fin 64)) (hs : SchedOk k live') (hown : Owns k live' L') (hsp : KeepsKernel h₁.kernel L k L') :
    ∃ m, releaseBuffer fuel buf t { h₁ with kernel := k } = some (t, Host.setMem { h₁ with kernel := k } m) ∧
      (∀ x, ¬InHeap x → m x = k.phys.mem x) ∧ Orderly A (Host.setMem { h₁ with kernel := k } m) live' L' ∧
      HeapOk m freeHeap ∧ A.volumeOf (Host.setMem { h₁ with kernel := k } m) = A.volumeOf h := by
  obtain ⟨hor,hvol⟩ := hb.orderly.with_kernel hs hown hsp
  obtain ⟨m,hfree,hheap,hout⟩ := hb.release k.phys.mem fun x hx => hsp.mem x (hb.orderly.inHeap_private hx).1
  obtain ⟨hor',hvol'⟩ := hor.write_heap hout
  refine ⟨m,?_,hout,hor',hheap,hvol'.trans (hvol.trans hb.volume)⟩
  exact congrArg (Option.map fun m => (t, Host.setMem { h₁ with kernel := k } m)) hfree

/-- The state after `elf_exec`. A task is started only from a file that passes `elf_validate`. -/
structure Executed (A : Attached dev) (h : Host δ) (live : List (Fin 64)) (filename : List UInt8) (res : Option (Fin 64))
    (h' : Host δ) : Prop where
  orderly : ∃ L, Orderly A h' (live ++ res.toList) L
  heap : HeapOk h'.mem freeHeap
  volume : A.volumeOf h' = A.volumeOf h
  source : res ≠ none → ∃ data, (A.volumeOf h).nodes.find (cstr filename) = some (.file data) ∧
    elfValidate (some (fileOf data)) data.length = 0

section
variable (ho : Orderly A h live L)
include ho

theorem fs_stat (filename : List UInt8) :
    ∃ e h₁, h.fs (fsStat dev filename) = (e, h₁) ∧ Orderly A h₁ live L ∧ A.volumeOf h₁ = A.volumeOf h ∧
      (∀ x, ¬A.region x → h₁.mem x = h.mem x) ∧ h₁.kernel = { h.kernel with phys := ⟨h₁.mem,h.kernel.phys.pmm⟩ } ∧
      match (A.volumeOf h).nodes.find (cstr filename) with
      | none => e = none
      | some node => ∃ e', e = some e' ∧ e'.size.toNat = node.size := by
  obtain ⟨hvol,-,hspec⟩ := A.stat_refines h.fsState ho.volume.sound filename
  have hframe := ho.fs_frame (.stat filename)
  refine ⟨_,_,rfl,ho.with_fs hframe ?_,hvol,hframe,rfl,?_⟩
  · exact (congrArg (Consistent dev.totalBlocks) hvol).mpr ho.volume
  · rw [Attached.volumeOf]
    cases hfind : (A.volume h.fsState).nodes.find (cstr filename) with
    | none =>
      rw [hfind] at hspec
      exact Reply.entry.inj hspec
    | some node =>
      rw [hfind] at hspec
      obtain ⟨e,he,hd⟩ := hspec
      exact ⟨e,Reply.entry.inj he,hd.size_eq⟩

theorem fs_readFile {size : UInt32} (hfind : (A.volumeOf h).nodes.find (cstr filename) = some (.file data))
    (hsize : size.toNat = data.length) :
    ∃ h₁, h.fs (fsReadFile dev filename size) = (.full data, h₁) ∧ Orderly A h₁ live L ∧ A.volumeOf h₁ = A.volumeOf h ∧
      (∀ x, ¬A.region x → h₁.mem x = h.mem x) ∧ h₁.kernel = { h.kernel with phys := ⟨h₁.mem,h.kernel.phys.pmm⟩ } := by
  obtain ⟨hvol,hread⟩ := A.fsReadFile_names h.fsState ho.volume.sound filename size
  have hframe := ho.fs_frame (.read filename size)
  rw [Attached.volumeOf] at hfind
  rw [hfind] at hread
  dsimp only at hread
  rw [hsize, List.take_length] at hread
  refine ⟨_,Prod.ext hread rfl,ho.with_fs hframe ?_,hvol,hframe,rfl⟩
  exact (congrArg (Consistent dev.totalBlocks) hvol).mpr ho.volume

theorem elfExec_buffers (hheap : HeapOk h.mem freeHeap) (hfuel : 0x100000 < fuel) (img : Image)
    (hfind : (A.volumeOf h).nodes.find (cstr filename) = some (.file data)) (hpos : data ≠ [])
    (hmax : data.length ≤ 0x40000) (taskName : List UInt8) (argv : Option (ℕ → Arg)) (argc : ℤ) :
    ∃ buf h₁, Buffered A fuel h live L data buf h₁ ∧
      elfExec dev fuel img (some filename) (some taskName) argv argc h =
        if data.length < sizeofEhdr then System.releaseBuffer fuel buf none h₁
        else
          match elfLoadInternal img h₁.kernel (fun i => h₁.mem (add32 buf i)) data.length taskName argv argc with
          | none => none
          | some (t, k) => System.releaseBuffer fuel buf t { h₁ with kernel := k } := by
  obtain ⟨e,h₁,hstat,ho₁,hvol₁,hframe₁,hk₁,he⟩ := fs_stat ho filename
  rw [hfind] at he
  obtain ⟨e,rfl,hsize⟩ := he
  have hlen : e.size.toNat = data.length := hsize
  have hdata : data.length ≠ 0 := fun hz => hpos (List.eq_nil_of_length_eq_zero hz)
  have haccept : ¬(e.size = 0 ∨ elfMaxFileSize < e.size) := by
    rintro (hz | hgt)
    · rw [hz] at hlen
      exact hdata hlen.symm
    · have hmax' : elfMaxFileSize.toNat = 0x40000 := by decide
      rw [UInt32.lt_iff_toNat_lt] at hgt
      omega
  have hheap₁ : HeapOk h₁.mem freeHeap := hheap.congr fun x hx => hframe₁ x fun hr => (ho.region x hr).2 hx
  obtain ⟨buf,m,hmalloc,hlow,hhigh,hout,hback⟩ := hheap₁.borrow (show e.size.toNat ≠ 0 by omega) (by omega) hfuel
    (fits_freeHeap (by omega))
  obtain ⟨ho₂,hvol₂⟩ := ho₁.write_heap hout
  have hfind₂ : (A.volumeOf (h₁.setMem m)).nodes.find (cstr filename) = some (.file data) := by
    rw [hvol₂, hvol₁, hfind]
  obtain ⟨h₃,hread,ho₃,hvol₃,hframe₃,hk₃⟩ := fs_readFile ho₂ hfind₂ hlen
  -- the bytes go to the buffer, which is in the heap
  have hin : ∀ x, buf ≤ x → x < buf + data.length → InHeap x := fun x h₁ h₂ => ⟨by omega,by omega⟩
  have hstore : ∀ x, ¬InHeap x → store h₃.mem buf data x = h₃.mem x := by
    intro x hx
    by_cases hlt : x < buf
    · exact store_apply_of_lt _ hlt
    · refine store_apply_of_ge ?_
      by_contra hge
      exact hx (hin x (by omega) (by omega))
  obtain ⟨ho₄,hvol₄⟩ := ho₃.write_heap hstore
  refine ⟨buf,h₃.setMem (store h₃.mem buf data),⟨ho₄,?_,?_,fun i hi => ?_,fun m' hm' => hback m' ?_⟩,?_⟩
  · simp only [Host.setMem, hk₃, hk₁]
    rfl
  · rw [hvol₄, hvol₃, hvol₂, hvol₁]
  · have hend : heapEnd = 0x200000 := rfl
    rw [add32_of_lt (by omega), Host.setMem_mem, fileOf, List.getD_eq_getElem _ _ hi]
    exact store_apply_add _ _ hi
  · intro x hx hx'
    rw [hm' x hx, Host.setMem_mem]
    have hsame : store h₃.mem buf data x = h₃.mem x := by
      rcases hx' with hlt | hge
      · exact store_apply_of_lt _ hlt
      · exact store_apply_of_ge (by omega)
    rw [hsame]
    exact hframe₃ x fun hr => (ho.region x hr).2 hx
  · have hbuf : buf ≠ 0 := by omega
    have hret : (ReadResult.full data).ret = data.length := rfl
    simp only [elfExec, hstat, if_neg haccept, hmalloc, if_neg hbuf, hread, hret, Int.natCast_nonneg, not_lt_of_ge, false_or,
      Int.toNat_natCast]
    rfl

theorem elfExec_loads (hheap : HeapOk h.mem freeHeap) (hfuel : 0x100000 < fuel) (img : Image)
    (hfind : (A.volumeOf h).nodes.find (cstr filename) = some (.file data)) (hpos : data ≠ [])
    (hmax : data.length ≤ 0x40000) (taskName : List UInt8) {argv : Option (ℕ → Arg)} {argc : ℤ}
    (hargs : ∀ m a, setupUserStackArgs m a argv argc ≠ none) :
    ∃ res h', elfExec dev fuel img (some filename) (some taskName) argv argc h = some (res, h') ∧
      Executed A h live filename res h' := by
  obtain ⟨buf,h₁,hb,hcall⟩ := elfExec_buffers ho hheap hfuel img hfind hpos hmax taskName argv argc
  rw [hcall]
  by_cases hshort : data.length < sizeofEhdr
  · rw [if_pos hshort]
    obtain ⟨m,hrel,-,ho',hheap',hvol'⟩ := hb.releaseBuffer none hb.orderly.sched hb.orderly.owns (KeepsKernel.refl _ L)
    refine ⟨none,_,hrel,⟨L,?_⟩,hheap',hvol',fun hne => absurd rfl hne⟩
    rwa [Option.toList_none, List.append_nil]
  · rw [if_neg hshort]
    obtain ⟨res,k,hload⟩ := elfLoadInternal_returns img hb.orderly.sched (fun i => h₁.mem (add32 buf i)) data.length
      taskName hargs
    obtain ⟨L',hacc⟩ := (elfLoadInternal_creation hb.orderly.sched hb.orderly.owns hload).accounted hb.orderly.owns
    obtain ⟨m,hrel,-,ho',hheap',hvol'⟩ := hb.releaseBuffer res (elfLoadInternal_ok hb.orderly.sched hload).ok hacc.owns
      hacc.toKeepsKernel
    rw [hload]
    refine ⟨res,_,hrel,⟨L',ho'⟩,hheap',hvol',fun hne => ⟨data,hfind,?_⟩⟩
    rw [← elfValidate_congr hb.bytes (by omega)]
    by_contra hbad
    rw [elfLoadInternal, if_pos hbad] at hload
    exact hne (Prod.mk.inj (Option.some.inj hload)).1.symm

/-- Whatever the name stands for, `elf_exec` returns with everything in order. -/
theorem elfExec_returns (hheap : HeapOk h.mem freeHeap) (hfuel : 0x100000 < fuel) (img : Image)
    (filename taskName : List UInt8) {argv : Option (ℕ → Arg)} {argc : ℤ}
    (hargs : ∀ m a, setupUserStackArgs m a argv argc ≠ none) :
    ∃ res h', elfExec dev fuel img (some filename) (some taskName) argv argc h = some (res, h') ∧
      Executed A h live filename res h' := by
  obtain ⟨e,h₁,hstat,ho₁,hvol₁,hframe₁,-,he⟩ := fs_stat ho filename
  have hheap₁ : HeapOk h₁.mem freeHeap := hheap.congr fun x hx => hframe₁ x fun hr => (ho.region x hr).2 hx
  have hrefused : Executed A h live filename none h₁ := by
    refine ⟨⟨L,?_⟩,hheap₁,hvol₁,fun hne => absurd rfl hne⟩
    rwa [Option.toList_none, List.append_nil]
  have hsized : ∀ e', e = some e' → e'.size = 0 ∨ elfMaxFileSize < e'.size →
      elfExec dev fuel img (some filename) (some taskName) argv argc h = some (none, h₁) := by
    rintro e' rfl hbad
    simp only [elfExec, hstat, if_pos hbad]
  cases hfind : (A.volumeOf h).nodes.find (cstr filename) with
  | none =>
    rw [hfind] at he
    subst he
    exact ⟨none,h₁,by simp only [elfExec, hstat],hrefused⟩
  | some node =>
    rw [hfind] at he
    obtain ⟨e',rfl,hsize⟩ := he
    cases node with
    | dir => exact ⟨none,h₁,hsized e' rfl (Or.inl (UInt32.toNat_inj.mp hsize)),hrefused⟩
    | file data =>
      have hlen : e'.size.toNat = data.length := hsize
      by_cases hnil : data = []
      · rw [hnil] at hlen
        exact ⟨none,h₁,hsized e' rfl (Or.inl (UInt32.toNat_inj.mp hlen)),hrefused⟩
      by_cases hbig : 0x40000 < data.length
      · refine ⟨none,h₁,hsized e' rfl (Or.inr ?_),hrefused⟩
        rw [UInt32.lt_iff_toNat_lt, hlen]
        exact hbig
      · exact elfExec_loads ho hheap hfuel img hfind hnil (by omega) taskName hargs

/-- A well-formed program that is stored is started, with its arguments, where there is room for it. -/
theorem elfExec_starts (hheap : HeapOk h.mem freeHeap) (hfuel : 0x100000 < fuel) (img : Image)
    (hfind : (A.volumeOf h).nodes.find (cstr filename) = some (.file data)) (hmax : data.length ≤ 0x40000)
    (hwf : WellFormed (fileOf data) data.length)
    (hroom : h.kernel.phys.pmm.usedFrames.toNat + Exec.need (wantedPages (fileOf data) data.length) + 3 ≤ totalFrames)
    (hslot : allocTcb h.kernel ≠ none) (taskName : List UInt8) {argv : ℕ → Arg} {n : ℕ} (hn : 1 ≤ n) (h64 : n ≤ 64)
    (hfit : frameBytes argv n ≤ argvMaxTotal) :
    ∃ i h' L', elfExec dev fuel img (some filename) (some taskName) (some argv) n h = some (some i, h') ∧ i ∉ live ∧
      Orderly A h' (live ++ [i]) L' ∧ HeapOk h'.mem freeHeap ∧ A.volumeOf h' = A.volumeOf h ∧
      Started img h'.mem (h'.kernel.tasks (.slot i)) (fileOf data) argv n := by
  have hlong : ¬data.length < sizeofEhdr := by
    intro hlt
    have hvalid := hwf.valid
    rw [elfValidate, if_pos hlt] at hvalid
    cases hvalid
  have hnil : data ≠ [] := fun hd => hlong (by rw [hd]; decide)
  obtain ⟨buf,h₁,hb,hcall⟩ := elfExec_buffers ho hheap hfuel img hfind hnil hmax taskName (some argv) n
  have hpmm : h₁.kernel.phys.pmm = h.kernel.phys.pmm := congrArg (fun k => k.phys.pmm) hb.kernel
  have htcb : allocTcb h₁.kernel = allocTcb h.kernel := by rw [hb.kernel]; rfl
  rw [← hpmm] at hroom
  rw [← htcb] at hslot
  obtain ⟨i,k,hload,hi,hstarted⟩ := elfLoadInternal_starts img hb.orderly.sched hb.orderly.owns hwf (by omega) hroom
    hslot taskName hn h64 hfit
  obtain ⟨L',hacc⟩ := (elfLoadInternal_creation hb.orderly.sched hb.orderly.owns hload).accounted hb.orderly.owns
  obtain ⟨m,hrel,hout,ho',hheap',hvol'⟩ := hb.releaseBuffer (some i) (elfLoadInternal_ok hb.orderly.sched hload).ok hacc.owns
    hacc.toKeepsKernel
  refine ⟨i,_,L',?_,hi,ho',hheap',hvol',?_⟩
  · rw [hcall, if_neg hlong, hwf.elfLoadInternal_congr hb.bytes (by omega), hload]
    exact hrel
  -- the heap is no memory of the task
  · have hmem : i ∈ live ++ (some i).toList := List.mem_append_right _ (List.mem_singleton_self i)
    refine hstarted.congr hwf hn (hacc.owns.task i hmem) fun x s hs => hout x fun hin => ?_
    have hlabel := (ho'.inHeap_private hin).1
    rw [hs] at hlabel
    cases hlabel

end

end

end ApPa.System

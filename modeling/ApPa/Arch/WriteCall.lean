import ApPa.Arch.Syscall
import ApPa.Drivers.Console
import ApPa.Task.Run

/-! # What SYS_WRITE prints

The buffer is cut into chunks of 128 bytes, and each chunk is printed as a string. A NUL byte ends the
string, so it drops the rest of its chunk, although the bytes are counted as written.
-/
namespace ApPa.Arch
open ByteMem Drivers Klibc Loop Memory Tasks

def chunk (bytes : List UInt8) (j : ℕ) : List UInt8 := (bytes.drop (128 * j)).take 128

def chunks (bytes : List UInt8) : List (List UInt8) := (List.range ((bytes.length + 127) / 128)).map (chunk bytes)

section
variable {m : Mem} {dir : ℕ} {buf len : UInt32} {bytes : List UInt8}

theorem copyIn_slice {src : UInt32} {n : ℕ} (h : copyIn m dir src n = .ok bytes) {a c : ℕ} (hac : a + c ≤ n) :
    copyIn m dir (src + UInt32.ofNat a) c = .ok ((bytes.drop a).take c) := by
  obtain ⟨hlen,hget⟩ := copyIn_get h
  have hread : ∀ i < c, readVirt m dir (src + UInt32.ofNat a + UInt32.ofNat i) = bytes[a + i]? := fun i hi => by
    rw [UInt32.add_assoc, ← UInt32.ofNat_add]
    exact hget _ (by omega)
  have hmapped : ∀ i < c, readVirt m dir (src + UInt32.ofNat a + UInt32.ofNat i) ≠ none := fun i hi => by
    rw [hread i hi, List.getElem?_eq_getElem (by omega)]
    exact Option.some_ne_none _
  obtain ⟨kbuf,hk⟩ := copyIn_ok hmapped
  obtain ⟨hklen,hkget⟩ := copyIn_get hk
  rw [hk]
  congr 1
  refine List.ext_getElem? fun i => ?_
  rw [List.getElem?_take, List.getElem?_drop]
  split
  · rename_i hi
    rw [← hkget i hi, hread i hi]
  · rename_i hi
    exact List.getElem?_eq_none (by omega)

/-- The size of the chunk that is printed when `j` chunks have been. -/
theorem chunkSize_eq {written : UInt32} {j : ℕ} (hw : written.toNat = min (128 * j) len.toNat) (hlt : written < len) :
    (chunkSize len written).toNat = min 128 (len.toNat - 128 * j) ∧ 128 * j + (chunkSize len written).toNat ≤ len.toNat := by
  rw [UInt32.lt_iff_toNat_lt] at hlt
  have hsub : (len - written).toNat = len.toNat - written.toNat :=
    UInt32.toNat_sub_of_le _ _ (UInt32.le_iff_toNat_le.mpr (Nat.le_of_lt hlt))
  unfold chunkSize
  split
  · rename_i hc
    rw [UInt32.lt_iff_toNat_lt, hsub] at hc
    rw [show (UInt32.toNat 128) = 128 from rfl] at hc ⊢
    omega
  · rename_i hc
    rw [UInt32.lt_iff_toNat_lt, hsub] at hc
    rw [show (UInt32.toNat 128) = 128 from rfl] at hc
    rw [hsub]
    omega

def Printed (bytes : List UInt8) (s : UInt32 × List UInt8) : Prop :=
  ∃ j, j ≤ (bytes.length + 127) / 128 ∧ s.1.toNat = min (128 * j) bytes.length ∧
    s.2 = (List.range j).flatMap fun i => cstr (chunk bytes i)

theorem writeStep_printed (h : copyIn m dir buf len.toNat = .ok bytes) {s : UInt32 × List UInt8} (hs : Printed bytes s) :
    (∃ s', writeStep m dir buf len s = .inl s' ∧ Printed bytes s' ∧ len.toNat - s'.1.toNat < len.toNat - s.1.toNat) ∨
      ∃ r, writeStep m dir buf len s = .inr r ∧ r = .ok (len,(chunks bytes).flatMap cstr) := by
  obtain ⟨j,hj,hw,hout⟩ := hs
  have hlen := (copyIn_get h).1
  rw [hlen] at hj hw
  unfold writeStep
  by_cases hlt : s.1 < len
  · obtain ⟨hsize,hle⟩ := chunkSize_eq hw hlt
    have hpos := (chunkSize_le hlt).1
    have hsum := toNat_add_chunkSize hlt
    have hat : s.1 = UInt32.ofNat (128 * j) := by
      rw [← UInt32.ofNat_toNat (x := s.1), hw, Nat.min_eq_left (by omega)]
    have hcopy : copyIn m dir (buf + s.1) (chunkSize len s.1).toNat = .ok (chunk bytes j) := by
      rw [hat, copyIn_slice h (by rw [← hat]; exact hle), ← hat, hsize, chunk, ← List.take_take,
        List.take_of_length_le (i := len.toNat - 128 * j)]
      rw [List.length_drop, hlen]
    rw [if_pos hlt]
    dsimp only
    rw [hcopy]
    refine .inl ⟨_,rfl,⟨j + 1,?_,?_,?_⟩,?_⟩
    · omega
    · dsimp only
      omega
    · dsimp only
      rw [hout, List.range_succ, List.flatMap_append, List.flatMap_singleton, kprintText]
    · dsimp only
      omega
  · rw [UInt32.lt_iff_toNat_lt] at hlt
    rw [if_neg (by rwa [UInt32.lt_iff_toNat_lt])]
    refine .inr ⟨_,rfl,congrArg Except.ok (Prod.ext (UInt32.toNat_inj.mp (by dsimp only; omega)) ?_)⟩
    dsimp only
    rw [hout, chunks, List.flatMap_map, hlen, show j = (len.toNat + 127) / 128 by omega]

theorem writeLoop_eq (h : copyIn m dir buf len.toNat = .ok bytes) :
    writeLoop m dir buf len = some (.ok (len,(chunks bytes).flatMap cstr)) := by
  obtain ⟨r,hr,rfl⟩ := writeLoop_spec (Printed bytes) (fun r => r = .ok (len,(chunks bytes).flatMap cstr))
    ⟨0,Nat.zero_le _,(Nat.zero_min _).symm,rfl⟩ fun s hs => writeStep_printed h hs
  exact hr

end

/-! ## The bytes that arrive -/

theorem flatMap_chunk (bytes : List UInt8) (j : ℕ) : (List.range j).flatMap (chunk bytes) = bytes.take (128 * j) := by
  induction j with
  | zero => rfl
  | succ j ih => rw [List.range_succ, List.flatMap_append, List.flatMap_singleton, ih, Nat.mul_succ, List.take_add, chunk]

theorem flatten_chunks (bytes : List UInt8) : (chunks bytes).flatten = bytes := by
  rw [chunks, ← List.flatMap_def, flatMap_chunk]
  exact List.take_of_length_le (by omega)

theorem zero_notMem_flatMap_cstr (kbufs : List (List UInt8)) : 0 ∉ kbufs.flatMap cstr := fun h => by
  obtain ⟨kbuf,_,hmem⟩ := List.mem_flatMap.mp h
  exact zero_notMem_cstr kbuf hmem

theorem flatMap_cstr_iff (bytes : List UInt8) : (chunks bytes).flatMap cstr = bytes ↔ 0 ∉ bytes := by
  constructor
  · intro h h0
    rw [← h] at h0
    exact zero_notMem_flatMap_cstr _ h0
  · intro h0
    have hcstr : ∀ kbuf ∈ chunks bytes, cstr kbuf = kbuf := fun kbuf hk =>
      cstr_of_notMem fun hmem => h0 (flatten_chunks bytes ▸ List.mem_flatten_of_mem hk hmem)
    rw [List.flatMap_def, List.map_congr_left hcstr, List.map_id', flatten_chunks]

theorem readVirt_ne_none {m : Mem} {dir : ℕ} {v : UInt32} (h : Accessible m dir v.toNat) : readVirt m dir v ≠ none := by
  obtain ⟨e,he,-⟩ := h
  rw [readVirt, Memory.translate, he]
  exact Option.some_ne_none _

/-- An accepted buffer is counted as written to its end. -/
theorem sysWriteHandler_eq (env : Env) (fuel : ℕ) {k : Kernel} {regs : Registers} {bytes : List UInt8}
    (hv : validateUserPtr regs.ebx regs.ecx = 0)
    (hbytes : copyIn k.phys.mem k.cpu.cr3 regs.ebx regs.ecx.toNat = .ok bytes) :
    sysWriteHandler env fuel k regs = .ok (k, regs.ecx, (chunks bytes).flatMap cstr) := by
  unfold sysWriteHandler
  dsimp only
  by_cases hz : regs.ecx = 0
  · have hlen := (copyIn_get hbytes).1
    rw [hz, UInt32.toNat_zero, List.length_eq_zero_iff] at hlen
    rw [if_pos hz, hz, hlen]
    rfl
  · rw [if_neg hz, if_neg (not_not.mpr hv), writeLoop_eq hbytes]

/-- `SYS_WRITE` with a buffer that the task can read prints the chunks of the buffer, one after the other, and on
a screen that is the same as one string. The output is the buffer, and its length the count that is returned,
exactly when the buffer holds no NUL. -/
theorem sysWrite_delivers_iff (env : Env) (fuel : ℕ) (k : Kernel) (regs : Registers)
    (hv : validateUserPtr regs.ebx regs.ecx = 0)
    (hread : ∀ v, regs.ebx.toNat ≤ v → v < regs.ebx.toNat + regs.ecx.toNat → Accessible k.phys.mem k.cpu.cr3 v) :
    ∃ bytes ret out, copyIn k.phys.mem k.cpu.cr3 regs.ebx regs.ecx.toNat = .ok bytes ∧
      sysWriteHandler env fuel k regs = .ok (k, ret, out) ∧
      (∀ s : Screen, (chunks bytes).foldl Screen.kprint s = s.kprint out) ∧
      (out = bytes ∧ ret.toNat = out.length ↔ 0 ∉ bytes) := by
  obtain ⟨hlt,-,-⟩ := validateUserPtr_eq_zero.mp hv
  obtain ⟨bytes,hbytes⟩ := copyIn_ok fun i hi => readVirt_ne_none (hread (regs.ebx + UInt32.ofNat i).toNat
    (by rw [toNat_add_ofNat hlt hi]; omega) (by rw [toNat_add_ofNat hlt hi]; omega))
  refine ⟨bytes,_,_,hbytes,sysWriteHandler_eq env fuel hv hbytes,fun s => ?_,?_⟩
  · rw [foldl_kprint, Screen.kprint_eq, cstr_of_notMem (zero_notMem_flatMap_cstr _)]
  · rw [← flatMap_cstr_iff, ← (copyIn_get hbytes).1]
    exact ⟨fun h => h.1,fun h => ⟨h,congrArg List.length h.symm⟩⟩

/-- A task whose directory at `0x1000` leads every page to the frame at `0x3000`, which holds `text`. -/
def onePage (text : List UInt8) : Kernel :=
  let mem : Mem := fun x =>
    if x / pageSize = 1 then [0x07, 0x20].getD (x % 4) 0
    else if x / pageSize = 2 then [0x07, 0x30].getD (x % 4) 0
    else text.getD (x - 0x3000) 0
  { idleKernel with phys := ⟨mem,idleKernel.phys.pmm⟩, cpu := { idleKernel.cpu with cr3 := 0x1000 } }

def writeRegs (len : UInt32) : Registers := ⟨0x5000,len,1,0x80,0,0x1B⟩
def aloneEnv : Env := ⟨fun _ => 0,fun _ _ k => k⟩

/-- Two chunks of printable characters. -/
def twoChunks : List UInt8 := (List.range 150).map fun i => UInt8.ofNat (33 + i % 64)

theorem twoChunks_accessible {v : ℕ} (hlo : 0x5000 ≤ v) (hhi : v < 0x6000) :
    Accessible (onePage twoChunks).phys.mem (onePage twoChunks).cpu.cr3 v := by
  have hdir : pageDirIndex v = pageDirIndex 0x5000 := by
    rw [pageDirIndex_eq, pageDirIndex_eq]
    omega
  have htable : pageTableIndex v = pageTableIndex 0x5000 := by
    rw [pageTableIndex_eq, pageTableIndex_eq]
    omega
  refine ⟨(0x2007, 0x3007),?_,by decide,by decide⟩
  rw [walk, hdir, htable]
  decide +kernel

theorem sysWrite_delivers_chunks : ∃ ret : UInt32,
    sysWriteHandler aloneEnv 0 (onePage twoChunks) (writeRegs 150) = .ok (onePage twoChunks, ret, twoChunks) ∧ ret.toNat = 150 := by
  have hcopy : copyIn (onePage twoChunks).phys.mem 0x1000 0x5000 150 = .ok twoChunks := by decide +kernel
  obtain ⟨bytes,ret,out,hbytes,hcall,-,hiff⟩ :=
    sysWrite_delivers_iff aloneEnv 0 (onePage twoChunks) (writeRegs 150) (by decide) fun v hlo hhi =>
      twoChunks_accessible hlo (Nat.lt_trans hhi (by decide))
  obtain rfl : twoChunks = bytes := Except.ok.inj (hcopy.symm.trans hbytes)
  obtain ⟨rfl,hret⟩ := hiff.mpr (by decide +kernel)
  exact ⟨ret,hcall,hret⟩

/-- Of the buffer `a`, NUL, `b` only the first byte is printed, and three are reported. -/
theorem sysWrite_drops_after_nul : validateUserPtr 0x5000 3 = 0 ∧
    copyIn (onePage [0x61, 0, 0x62]).phys.mem 0x1000 0x5000 3 = .ok [0x61, 0, 0x62] ∧
    sysWriteHandler aloneEnv 0 (onePage [0x61, 0, 0x62]) (writeRegs 3) = .ok (onePage [0x61, 0, 0x62], 3, [0x61]) := by
  have hv : validateUserPtr (writeRegs 3).ebx (writeRegs 3).ecx = 0 := by decide
  have hcopy : copyIn (onePage [0x61, 0, 0x62]).phys.mem 0x1000 0x5000 3 = .ok [0x61, 0, 0x62] := by decide +kernel
  refine ⟨hv,hcopy,(sysWriteHandler_eq aloneEnv 0 hv hcopy).trans ?_⟩
  rw [show (chunks [0x61, 0, 0x62]).flatMap cstr = [0x61] by decide]
  rfl

end ApPa.Arch

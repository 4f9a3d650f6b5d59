import ApPa.Fs.Edits
import ApPa.Fs.Faults

/-! # Which writes find room, and how many blocks they take

The allocator looks at three things: the free count, a run of unused blocks and the reach
of its 128-byte map. On a consistent volume the first two agree with the directory, so a
write is refused for lack of room alone as long as the map reaches the whole data region.
The number of blocks is computed in 32 bits and wraps to zero for the last 511 sizes. A file
of such a size occupies blocks that the allocator takes to be free.
-/
namespace ApPa.Fs
open Klibc RunSearch

/-- No live file refers to block `b` of the data region. -/
def Volume.unreferenced (v : Volume) (b : ℕ) : Prop :=
  ∀ i < 32, (v.entry i).type = fsTypeFile → b ∉ (v.entry i).extent

def Volume.region (v : Volume) : ℕ := v.superblock.totalBlocks.toNat - v.superblock.dataStartBlock.toNat

section
variable {total : UInt32} {v : Volume}

theorem Formatted.region_eq (hf : Formatted total v.superblock) : v.region = total.toNat - 3 := by
  rw [Volume.region, hf.total_eq, hf.dataStart]
  rfl

theorem Sound.unreferenced_iff (hs : Sound total v) (b : ℕ) : v.unreferenced b ↔ v.unused b := by
  refine forall₂_congr fun i hi => ?_
  by_cases ht : (v.entry i).type = fsTypeFile
  · rw [FsEntry.mem_extent ht (hs.dir.small i hi)]
    exact ⟨fun h => h ht,fun h _ => h⟩
  · have hz : (v.entry i).blockCount = 0 := by rw [FsEntry.blockCount, if_neg ht]
    exact ⟨fun _ => FsEntry.not_covers_of_blockCount hz b,fun _ h => absurd h ht⟩

theorem Consistent.no_run (hc : Consistent total v) (hreach : extentLimit total = total.toNat - 3) {n : UInt32}
    (h : NoRoom total v n) {b : ℕ} (hb : b + n.toNat ≤ total.toNat - 3) : ¬∀ k < n.toNat, v.unused (b + k) := by
  intro hrun
  rcases h with hfree | hno
  · have hle := hc.sound.dir.sum_blockCount_add_le hb hrun
    have hsum := hc.free
    rw [UInt32.lt_iff_toNat_lt] at hfree
    omega
  · exact hno b (by omega) hrun

end

variable {σ : Type} {dev : BlockDevice σ} (r : Reliable dev)

/-- In the given state a write to an existing file fails only if no run of free blocks is
long enough, and otherwise takes the lowest one. -/
def Reliable.Complete (s : FsState σ) : Prop :=
  ∀ name data : List UInt8, 0 < data.length → data.length < 2 ^ 24 →
    (∃ i < 32, ((r.volume s).entry i).type = fsTypeFile ∧ ((r.volume s).entry i).title = cstr name) →
    ((fsWriteFile dev name data (UInt32.ofNat data.length) s).1 ≠ 0 →
      ∀ b, b + (data.length + 511) / 512 ≤ (r.volume s).region →
        ¬∀ k < (data.length + 511) / 512, (r.volume s).unreferenced (b + k)) ∧
    ((fsWriteFile dev name data (UInt32.ofNat data.length) s).1 = 0 →
      ∃ i < 32, ∃ e, (r.volume (fsWriteFile dev name data (UInt32.ofNat data.length) s).2).entry i = e ∧
        e.type = fsTypeFile ∧ e.title = cstr name ∧
        FirstRun (r.volume s).unreferenced ((data.length + 511) / 512) (r.volume s).region e.startBlock.toNat)

namespace Reliable

theorem ofNat_length_toNat {data : List UInt8} (h : data.length < 2 ^ 24) :
    (UInt32.ofNat data.length).toNat = data.length := by
  rw [UInt32.toNat_ofNat']
  omega

theorem complete_of_reach {s : FsState σ} (hc : Consistent dev.totalBlocks (r.volume s))
    (hreach : extentLimit dev.totalBlocks = dev.totalBlocks.toNat - 3) : r.Complete s := by
  intro name data _ hlt hfile
  have hlen := ofNat_length_toNat hlt
  have hn : (blocksFor (UInt32.ofNat data.length)).toNat = (data.length + 511) / 512 := by
    rw [blocksFor_toNat _ (by omega), hlen]
  have hreg : (r.volume s).region = dev.totalBlocks.toNat - 3 := hc.formatted.region_eq
  rw [hreg, ← hn]
  have hun : ∀ b, (r.volume s).unreferenced b ↔ (r.volume s).unused b := hc.sound.unreferenced_iff
  obtain ⟨s',⟨he,_,hno⟩ | ⟨i,hi,start,fb,hfi,ht,hfirst,he,hv,_⟩⟩ :=
    r.fsWriteFile_spec s hc name data (UInt32.ofNat data.length) hlen (by omega)
  · rw [he]
    refine ⟨fun _ b hb => ?_,fun h => absurd (show (-1 : ℤ) = 0 from h) (by decide)⟩
    rcases hno with hno | hno
    · obtain ⟨i,hi,hfi,ht⟩ := hfile
      exact absurd ht (hno i hi hfi)
    · simp only [hun]
      exact hc.no_run hreach hno hb
  · rw [he]
    refine ⟨fun h => absurd rfl h,fun _ => ⟨i,hi,_,rfl,?_⟩⟩
    have hst : start.toUInt16.toNat = start.toNat := by
      have h1 := hfirst.fits
      have h2 := extentLimit_le dev.totalBlocks
      exact toUInt16_toNat (by omega)
    have hent : (r.volume s').entry i =
        { (r.volume s).entry i with startBlock := start.toUInt16, size := UInt32.ofNat data.length } := by
      rw [hv, Volume.flush_entry, Volume.storeFile_entry _ _ _ _ _ hi, if_pos rfl]
    rw [hent]
    refine ⟨hfi,ht,?_⟩
    change FirstRun _ _ _ start.toUInt16.toNat
    rw [hst, ← hreach]
    exact hfirst.congr fun b _ => (hun b).symm

theorem create_on_empty {s : FsState σ} (hc : Consistent dev.totalBlocks (r.volume s))
    (hempty : (r.volume s).nodes = NameMap.empty) (name : List UInt8) (h1 : 1 ≤ (cstr name).length)
    (h23 : (cstr name).length ≤ 23) :
    ∃ s', exec dev (.create name fsTypeFile) s = (.status 0, s') ∧ Consistent dev.totalBlocks (r.volume s') ∧
      (∃ i < 32, ((r.volume s').entry i).type = fsTypeFile ∧ ((r.volume s').entry i).title = cstr name) ∧
      ∀ b, (r.volume s').unreferenced b := by
  obtain ⟨hc',hspec⟩ := r.exec_refines (.create name fsTypeFile) s hc
  have haccept : NameMap.empty.Accepts name fsTypeFile :=
    ⟨h1,h23,Or.inl rfl,rfl,by simp [NameMap.names, NameMap.empty]⟩
  rw [hempty] at hspec
  rcases hspec with ⟨_,hreply,hnodes⟩ | ⟨hno,_⟩
  swap
  · exact absurd haccept hno
  refine ⟨_,Prod.ext hreply rfl,hc',?_⟩
  set w := r.volume (exec dev (.create name fsTypeFile) s).2
  have hfind : ∀ i < 32, (w.entry i).live → (w.entry i).title = cstr name ∧ w.node (w.entry i) = .file [] := by
    intro i hi hl
    have h := (Volume.find_eq_some hc'.dir).mpr ⟨i,hi,hl,rfl,rfl⟩
    rw [hnodes] at h
    by_cases hname : (w.entry i).title = cstr name
    · rw [hname, NameMap.find_insert_self] at h
      exact ⟨hname,(Option.some.inj h).symm⟩
    · rw [NameMap.find_insert_of_ne _ _ hname] at h
      cases h
  constructor
  · have h := NameMap.find_insert_self NameMap.empty (cstr name) (Node.ofType fsTypeFile)
    rw [← hnodes] at h
    obtain ⟨i,hi,hl,ht,hnode⟩ := (Volume.find_eq_some hc'.dir).mp h
    refine ⟨i,hi,?_,ht⟩
    have hd := (Volume.describes_node hc'.dir hi hl).type_eq
    rw [(hfind i hi hl).2] at hd
    exact hd
  · intro b i hi ht hb
    have hd := (Volume.describes_node hc'.dir hi (live_of_file ht)).size_eq
    rw [(hfind i hi (live_of_file ht)).2] at hd
    have hz : (w.entry i).size.toNat = 0 := hd
    rw [FsEntry.extent, hz] at hb
    simp at hb

theorem store_on_empty {s : FsState σ} (hc : Consistent dev.totalBlocks (r.volume s))
    (hempty : (r.volume s).nodes = NameMap.empty) (hreach : extentLimit dev.totalBlocks = dev.totalBlocks.toNat - 3)
    {name data : List UInt8} (h1 : 1 ≤ (cstr name).length) (h23 : (cstr name).length ≤ 23) (hpos : 0 < data.length)
    (hlt : data.length < 2 ^ 24) (hroom : (data.length + 511) / 512 ≤ dev.totalBlocks.toNat - 3) :
    ∃ s₁ s₂, exec dev (.create name fsTypeFile) s = (.status 0, s₁) ∧ exec dev (.write name data hlt) s₁ = (.status 0, s₂) ∧
      Consistent dev.totalBlocks (r.volume s₂) ∧ (r.volume s₂).nodes.find (cstr name) = some (.file data) := by
  obtain ⟨s₁,hcreate,hc₁,hfile,hall⟩ := r.create_on_empty hc hempty name h1 h23
  obtain ⟨hc₂,hspec⟩ := r.exec_refines (.write name data hlt) s₁ hc₁
  suffices hstatus : (exec dev (.write name data hlt) s₁).1 = .status 0 by
    refine ⟨s₁,_,hcreate,Prod.ext hstatus rfl,hc₂,?_⟩
    rcases hspec with ⟨-,-,hnodes⟩ | ⟨hreply,-⟩
    · rw [hnodes]
      exact NameMap.find_insert_self ..
    · rw [hstatus] at hreply
      cases hreply
  have hregion : (r.volume s₁).region = dev.totalBlocks.toNat - 3 := hc₁.formatted.region_eq
  have hcomplete := (r.complete_of_reach hc₁ hreach name data hpos hlt hfile).1
  change Reply.status (fsWriteFile dev name data (UInt32.ofNat data.length) s₁).1 = .status 0
  by_contra hne
  refine hcomplete (fun h => hne (congrArg Reply.status h)) 0 ?_ fun k _ => hall _
  rw [hregion]
  omega

/-- Beyond 1024 data blocks the map ends before the region does: on an otherwise empty
device a file of 1025 blocks is refused. -/
theorem write_refused_beyond_map (hbig : 1027 < dev.totalBlocks.toNat) {s : FsState σ} (hu : r.Unformatted s) :
    ∃ s₀, fsInit dev s = (0, s₀) ∧ ∃ s₁, exec dev (.create [0x61] fsTypeFile) s₀ = (.status 0, s₁) ∧
      (∃ i < 32, ((r.volume s₁).entry i).type = fsTypeFile ∧ ((r.volume s₁).entry i).title = [0x61]) ∧
      (∀ b, (r.volume s₁).unreferenced b) ∧ 1025 ≤ (r.volume s₁).region ∧
      ∀ data : List UInt8, data.length = 1025 * 512 →
        (fsWriteFile dev [0x61] data (UInt32.ofNat data.length) s₁).1 = -1 := by
  obtain ⟨s₀,he,hc,hempty⟩ := r.fsInit_unformatted s (by omega) hu
  obtain ⟨s₁,hs₁,hc₁,hfile,hall⟩ := r.create_on_empty hc (nodes_eq_empty hempty) [0x61] (by decide) (by decide)
  have hreg : (r.volume s₁).region = dev.totalBlocks.toNat - 3 := hc₁.formatted.region_eq
  refine ⟨s₀,he,s₁,hs₁,hfile,hall,by omega,fun data hlen => ?_⟩
  have hofNat : (UInt32.ofNat data.length).toNat = data.length := ofNat_length_toNat (by omega)
  obtain ⟨s',⟨hw,_⟩ | ⟨i,_,start,_,_,_,hfirst,_⟩⟩ :=
    r.fsWriteFile_spec s₁ hc₁ [0x61] data (UInt32.ofNat data.length) hofNat (by omega)
  · rw [hw]
  · have hfits := hfirst.fits
    rw [blocksFor_toNat _ (by omega), hofNat, hlen] at hfits
    have := extentLimit_le dev.totalBlocks
    omega

/-- Where no write has had one of the last 511 sizes, every reachable state of a device is complete exactly when its data region
has no more than 1024 blocks. -/
theorem run_complete_iff (h3 : 3 ≤ dev.totalBlocks.toNat) (s : FsState σ) (hu : r.Unformatted s) :
    ∃ s₀, fsInit dev s = (0, s₀) ∧
      ((∀ requests : List Request, (∀ q ∈ requests, q.Sized) →
        r.Complete (Machine.run (Request.apply dev) requests s₀).2) ↔ dev.totalBlocks.toNat ≤ 1027) := by
  obtain ⟨s₀,he,hc,_⟩ := r.fsInit_unformatted s h3 hu
  refine ⟨s₀,he,fun hall => ?_,fun hle requests hsized => ?_⟩
  · by_contra hbig
    obtain ⟨s₀',he',s₁,hs₁,hfile,hfree,hreg,hrefuse⟩ := r.write_refused_beyond_map (by omega) hu
    rw [he] at he'
    cases he'
    have hlen : (List.replicate (1025 * 512) (0 : UInt8)).length = 1025 * 512 := List.length_replicate
    have hcomp := hall [.edit (.create [0x61] fsTypeFile)] fun q hq => by rw [List.mem_singleton.mp hq]; trivial
    change r.Complete (exec dev (.create [0x61] fsTypeFile) s₀).2 at hcomp
    rw [hs₁] at hcomp
    have hno := (hcomp [0x61] (List.replicate (1025 * 512) 0) (by rw [hlen]; decide) (by rw [hlen]; decide) hfile).1
      (by rw [hrefuse _ hlen]; decide) 0 (by rw [hlen]; omega)
    exact hno fun k _ => hfree _
  · exact r.complete_of_reach (r.run_apply_consistent hc requests hsized) (by unfold extentLimit; omega)

end Reliable

/-- A file of 600 bytes is written, read and overwritten on a device of 16 blocks. -/
def overwriteRequests : List Request :=
  [.edit (.create [0x61] fsTypeFile), .edit (.write [0x61] (List.replicate 600 1) 600 (by rw [List.length_replicate]; rfl)),
   .read [0x61] 600, .edit (.write [0x61] (List.replicate 700 2) 700 (by rw [List.length_replicate]; rfl))]

/-- On that device every write that fits is accepted. -/
theorem run_complete_sixteen : ∃ s₀, fsInit (ramDevice 16) blankState = (0, s₀) ∧
    (ramReliable 16).Complete (Machine.run (Request.apply (ramDevice 16)) overwriteRequests s₀).2 := by
  obtain ⟨s₀,hinit,hcomplete⟩ := (ramReliable 16).run_complete_iff (by decide) blankState (blank_unformatted 16)
  refine ⟨s₀,hinit,hcomplete.mpr (by decide) overwriteRequests ?_⟩
  simp only [overwriteRequests, List.forall_mem_cons]
  exact ⟨trivial,show 600 ≤ 2 ^ 32 - 512 by decide,trivial,show 700 ≤ 2 ^ 32 - 512 by decide,fun _ h => nomatch h⟩

/-- A file of 2^32 - 1 bytes, for which no block is allocated, and another file. -/
def swollenRequests : List Request :=
  [.edit (.create [0x61] fsTypeFile),
   .edit (.write [0x61] (List.replicate 0xFFFFFFFF 0) 0xFFFFFFFF (by rw [List.length_replicate]; rfl)),
   .edit (.create [0x62] fsTypeFile)]

def swollenState : FsState (ℕ → Block) :=
  (Machine.run (Request.apply (ramDevice 16)) swollenRequests (fsInit (ramDevice 16) blankState).2).2

theorem swollenState_entry : (((ramReliable 16).volume swollenState).entry 0).type = fsTypeFile ∧
    (((ramReliable 16).volume swollenState).entry 0).startBlock = 0 ∧
    (((ramReliable 16).volume swollenState).entry 0).size = 0xFFFFFFFF ∧
    (((ramReliable 16).volume swollenState).entry 1).type = fsTypeFile ∧
    (((ramReliable 16).volume swollenState).entry 1).title = [0x62] ∧ ((ramReliable 16).volume swollenState).region = 13 ∧
    (fsWriteFile (ramDevice 16) [0x62] [1] 1 swollenState).1 = 0 := by
  decide +kernel

/-- The large file refers to every block of the region, and the other one gets one of them. -/
theorem swollenState_incomplete : ¬(ramReliable 16).Complete swollenState := by
  obtain ⟨htype,hstart,hsize,htype',htitle,hregion,hwrite⟩ := swollenState_entry
  intro hcomplete
  obtain ⟨i,hi,e,-,-,-,hfirst⟩ := (hcomplete [0x62] [1] (by decide) (by decide) ⟨1,by decide,htype',htitle⟩).2 hwrite
  have hfits := hfirst.fits
  rw [hregion] at hfits
  refine hfirst.run 0 (by decide) 0 (by decide) htype ?_
  rw [FsEntry.extent, hstart, hsize, Finset.mem_Ico]
  change 0 ≤ _ ∧ _ < 0 + (0xFFFFFFFF + 511) / 512
  omega

/-- On a disk of 4 MB a file of 1025 blocks is refused although all 8189 data blocks are free, and on one of 16 blocks a file
is put where another one is after a write of 2^32 - 1 bytes. -/
theorem run_incomplete : (∃ s₀, fsInit (ramDevice 8192) blankState = (0, s₀) ∧
    ∃ s₁, (Machine.run (Request.apply (ramDevice 8192)) [.edit (.create [0x61] fsTypeFile)] s₀).2 = s₁ ∧
      (fsWriteFile (ramDevice 8192) [0x61] (List.replicate (1025 * 512) 7)
        (UInt32.ofNat (List.replicate (1025 * 512) (7 : UInt8)).length) s₁).1 = -1 ∧
      (∃ i < 32, (((ramReliable 8192).volume s₁).entry i).type = fsTypeFile ∧
        (((ramReliable 8192).volume s₁).entry i).title = [0x61]) ∧
      1025 ≤ ((ramReliable 8192).volume s₁).region ∧ ∀ b, ((ramReliable 8192).volume s₁).unreferenced b) ∧
    ∃ s₀, fsInit (ramDevice 16) blankState = (0, s₀) ∧
      ¬(ramReliable 16).Complete (Machine.run (Request.apply (ramDevice 16)) swollenRequests s₀).2 := by
  constructor
  · obtain ⟨s₀,he,s₁,hs₁,hfile,hfree,hreg,hrefuse⟩ :=
      (ramReliable 8192).write_refused_beyond_map (by decide) (blank_unformatted 8192)
    exact ⟨s₀,he,s₁,congrArg Prod.snd hs₁,hrefuse _ List.length_replicate,hfile,hreg,hfree⟩
  · obtain ⟨s₀,he,-⟩ := (ramReliable 16).fsInit_unformatted blankState (by decide) (blank_unformatted 16)
    have hincomplete := swollenState_incomplete
    rw [swollenState, he] at hincomplete
    exact ⟨s₀,he,hincomplete⟩

/-! ## Block counts -/

/-- Blocks of a file of the given size, without wrap-around. -/
def ceilBlocks (size : UInt32) : ℕ := (size.toNat + 511) / 512

theorem blocksFor_exact_iff (size : UInt32) : (blocksFor size).toNat = ceilBlocks size ↔ size.toNat ≤ 2 ^ 32 - 512 := by
  have hlt := size.toNat_lt
  rw [blocksFor_toNat_eq, ceilBlocks]
  by_cases h : size.toNat ≤ 2 ^ 32 - 512
  · rw [Nat.mod_eq_of_lt (by omega)]
    exact ⟨fun _ => h,fun _ => rfl⟩
  · rw [Nat.mod_eq_sub_mod (by omega), Nat.mod_eq_of_lt (by omega)]
    exact ⟨fun heq => by omega,fun hle => absurd hle h⟩

namespace FsEntry

/-- The block counts that `fs_alloc_blocks`, `fs_read_file` and `fs_delete` use for an entry. -/
def markedCount (e : FsEntry) : ℕ := (blocksFor e.size).toNat
def readCount (e : FsEntry) (maxSize : UInt32) : ℕ :=
  (blocksFor (if e.size > maxSize then maxSize else e.size)).toNat
def freedCount (e : FsEntry) : UInt32 := if e.type = fsTypeFile ∧ e.size > 0 then blocksFor e.size else 0

end FsEntry

theorem markEntry_count {e : FsEntry} (h : e.type = fsTypeFile) (dataBlocks : UInt32) (used : BitTable.Table 8) :
    markEntry dataBlocks e used = markBlocks e.startBlock.toUInt32 dataBlocks e.markedCount 0 used := by
  rw [markEntry, if_neg (by rw [h]; decide), if_neg (by rw [h]; decide), FsEntry.markedCount]

section
variable {σ : Type} (dev : BlockDevice σ) {s s' : FsState σ} {e : FsEntry} {name : List UInt8} {i : ℕ}

theorem fsReadFile_count (hfind : fsFindEntry dev name s = (some (e,i), s')) (h : e.type = fsTypeFile) (maxSize : UInt32) :
    let toRead := if e.size > maxSize then maxSize else e.size
    let loop := fsReadBlocks dev e.startBlock.toUInt32 (e.readCount maxSize) 0 toRead s'
    fsReadFile dev name maxSize s = (⟨if loop.1.1 then toRead.toInt32.toInt else -1,loop.1.2⟩, loop.2) := by
  rw [fsReadFile, hfind]
  exact if_neg (not_not.mpr h)

theorem fsDelete_count (hfind : fsFindEntry dev name s = (some (e,i), s')) (h : e.type = fsTypeFile) :
    fsDelete dev name s = match fsWriteEntry dev i FsEntry.zero s' with
      | (false, s) => (-1, s)
      | (true, s) => (0, (fsFlushSuperblock dev { s with
          superblock := { s.superblock with freeBlocks := s.superblock.freeBlocks + e.freedCount } }).2) := by
  unfold fsDelete
  rw [hfind]
  dsimp only
  rw [if_neg (show ¬e.type = fsTypeDir by rw [h]; decide)]
  rfl

end

def Disk.dataWrites (d : Disk) : ℕ := (d.history.filter fun w => 3 ≤ w.1).length

theorem Disk.dataWrites_put_of_ge (d : Disk) {b : ℕ} (blk : Block) (hb : 3 ≤ b) :
    (d.put b blk).dataWrites = d.dataWrites + 1 := by
  simp [Disk.dataWrites, Disk.put, hb]

theorem Disk.dataWrites_put_of_lt (d : Disk) {b : ℕ} (blk : Block) (hb : b < 3) :
    (d.put b blk).dataWrites = d.dataWrites := by
  simp [Disk.dataWrites, Disk.put, hb]

theorem Quiet.dataWrites {s s' : FsState Disk} (h : Quiet s s') : s'.disk.dataWrites = s.disk.dataWrites := by
  obtain ⟨n,hn⟩ := h.disk
  rw [hn]
  rfl

section
variable {total : UInt32} {read write : ℕ → Bool} {s s' : FsState Disk}

theorem fsWriteBlocks_dataWrites (hf : Formatted total s.superblock) {start : UInt32} {n i : ℕ} {src : List UInt8}
    {remaining : UInt32} (hroom : 3 + start.toNat + i + n < 2 ^ 32)
    (h : fsWriteBlocks (disk total ⟨read,write⟩) start n i src remaining s = (true, s')) :
    s'.superblock = s.superblock ∧ s'.disk.dataWrites = s.disk.dataWrites + n := by
  induction n generalizing i src remaining s with
  | zero =>
    cases h
    exact ⟨rfl,rfl⟩
  | succ n ih =>
    have habs := dataBlock_toNat (i := i) hf start (by omega)
    obtain ⟨s1,hsb1,⟨blk,src',remaining',hd1,he⟩ | ⟨_,_,he⟩⟩ :=
      fsWriteBlocks_turn total ⟨read,write⟩ start n i src remaining s
    · rw [he] at h
      obtain ⟨hsb,hcount⟩ := ih (by rw [hsb1]; exact hf) (by omega) h
      refine ⟨hsb.trans hsb1,?_⟩
      rw [hcount, hd1, habs, Disk.dataWrites_put_of_ge _ _ (by omega)]
      omega
    · rw [he] at h
      cases h

theorem flush_dataWrites (total : UInt32) (faults : Faults) (s : FsState Disk) :
    (fsFlushSuperblock (disk total faults) s).2.disk.dataWrites = s.disk.dataWrites := by
  rcases writeBlock_disk total faults 0 s.superblock.encode s with h | ⟨_,h⟩
  · rw [fsFlushSuperblock, h]
    exact Disk.dataWrites_put_of_lt _ _ (by decide)
  · rw [fsFlushSuperblock, h]
    rfl

/-- A write that reports success has written as many data blocks as the code computed. -/
theorem fsWriteFile_dataWrites (hf : Formatted total s.superblock) {name data : List UInt8} {size : UInt32}
    (h : fsWriteFile (disk total ⟨read,write⟩) name data size s = (0, s')) :
    s'.disk.dataWrites = s.disk.dataWrites + (blocksFor size).toNat := by
  have hneg : ∀ {t t' : FsState Disk}, ((-1 : ℤ), t) = (0, t') → False := by
    intro t t' he
    exact absurd (show (-1 : ℤ) = 0 from congrArg Prod.fst he) (by decide)
  unfold fsWriteFile at h
  obtain ⟨s1,hsb1,⟨i,hi,he1,hd1,_⟩ | ⟨he1,_⟩⟩ := fsFindEntry_disk read write s hf name
  swap
  · rw [he1] at h
    exact (hneg h).elim
  rw [he1] at h
  dsimp only at h
  by_cases htype : (s.volume.entry i).type ≠ fsTypeFile
  · rw [if_pos htype] at h
    exact (hneg h).elim
  rw [if_neg htype] at h
  obtain ⟨start,s2,he2,hq2,hfit⟩ := writeAlloc_quiet read write s1 (by rw [hsb1]; exact hf) (blocksFor size)
  rw [he2] at h
  dsimp only at h
  by_cases hsp : blocksFor size > 0 ∧ start = noSpace
  · rw [if_pos hsp] at h
    exact (hneg h).elim
  rw [if_neg hsp] at h
  have hroom := hfit.resolve_left hsp
  cases hw : fsWriteBlocks (disk total ⟨read,write⟩) start (blocksFor size).toNat 0 data size s2 with
  | mk ok s3 =>
    rw [hw] at h
    cases ok with
    | false => exact (hneg h).elim
    | true =>
      have hsb2' : s2.superblock = s.superblock := hq2.superblock.trans hsb1
      obtain ⟨hsb3,hcount⟩ := fsWriteBlocks_dataWrites (by rw [hsb2']; exact hf) (by omega) hw
      have hf3 : Formatted total s3.superblock := by rw [hsb3, hsb2']; exact hf
      dsimp only at h
      obtain ⟨ok,s4,he4,hsb4,_,hput,_⟩ := fsWriteEntry_disk read write s3 hf3 hi
        { s.volume.entry i with startBlock := start.toUInt16, size }
      rw [he4] at h
      cases ok with
      | false => exact (hneg h).elim
      | true =>
        dsimp only at h
        obtain ⟨used,s5,he5,hq5⟩ := fsCountUsed_quiet read write s4 (by rw [hsb4]; exact hf3)
        rw [he5] at h
        dsimp only at h
        have hlast : s'.disk.dataWrites = s5.disk.dataWrites := by rw [← (Prod.mk.inj h).2, flush_dataWrites]
        have hentry : s4.disk.dataWrites = s3.disk.dataWrites := by
          rw [hput rfl, Disk.dataWrites_put_of_lt _ _ (by omega)]
          rfl
        rw [hlast, hq5.dataWrites, hentry, hcount, hq2.dataWrites, hd1]
        rfl

/-- A successful write has written exactly the blocks its size needs, and every count of an
entry's blocks is exact, if and only if the size is at most 2^32 - 512. -/
theorem fsWriteFile_backed_iff (hf : Formatted total s.superblock) {name data : List UInt8} {size : UInt32}
    (h : fsWriteFile (disk total ⟨read,write⟩) name data size s = (0, s')) :
    (s'.disk.dataWrites = s.disk.dataWrites + ceilBlocks size ↔ size.toNat ≤ 2 ^ 32 - 512) ∧
      ∀ e : FsEntry, e.type = fsTypeFile →
        ((e.markedCount = ceilBlocks e.size ∧ (∀ maxSize, e.size ≤ maxSize → e.readCount maxSize = ceilBlocks e.size) ∧
            e.freedCount.toNat = ceilBlocks e.size) ↔ e.size.toNat ≤ 2 ^ 32 - 512) := by
  constructor
  · rw [fsWriteFile_dataWrites hf h, Nat.add_left_cancel_iff, blocksFor_exact_iff]
  · intro e ht
    rw [← blocksFor_exact_iff]
    refine ⟨fun hcounts => hcounts.1,fun hexact => ⟨hexact,fun maxSize hle => ?_,?_⟩⟩
    · rw [FsEntry.readCount, if_neg (UInt32.not_lt.mpr hle)]
      exact hexact
    · rw [FsEntry.freedCount]
      by_cases hz : e.size > 0
      · rw [if_pos ⟨ht,hz⟩]
        exact hexact
      · have hzero : e.size = 0 := by
          rw [gt_iff_lt, UInt32.lt_iff_toNat_lt] at hz
          rw [← UInt32.toNat_inj]
          simpa using hz
        rw [if_neg fun hc => hz hc.2, hzero]
        rfl

end

/-- A disk of eight blocks with one empty file. -/
def oneFile : FsState Disk :=
  (fsCreate (disk 8 .none) [0x61] fsTypeFile
    (fsInit (disk 8 .none) ⟨Disk.new fun _ => Block.zero,freshSuperblock 0,Block.zero⟩).2).2

theorem oneFile_formatted : Formatted 8 oneFile.superblock :=
  ⟨by decide +kernel,by decide +kernel,by decide +kernel,by decide +kernel,by decide⟩

/-- Three bytes are written to it. -/
theorem fsWriteFile_backed_three :
    ((fsWriteFile (disk 8 .none) [0x61] [1,2,3] 3 oneFile).2.disk.dataWrites = oneFile.disk.dataWrites + ceilBlocks 3 ↔
        (3 : UInt32).toNat ≤ 2 ^ 32 - 512) ∧
      ∀ e : FsEntry, e.type = fsTypeFile →
        ((e.markedCount = ceilBlocks e.size ∧ (∀ maxSize, e.size ≤ maxSize → e.readCount maxSize = ceilBlocks e.size) ∧
            e.freedCount.toNat = ceilBlocks e.size) ↔ e.size.toNat ≤ 2 ^ 32 - 512) := by
  have h : (fsWriteFile (disk 8 .none) [0x61] [1,2,3] 3 oneFile).1 = 0 := by decide +kernel
  generalize hr : fsWriteFile (disk 8 .none) [0x61] [1,2,3] 3 oneFile = r at h
  rcases r with ⟨code,s'⟩
  cases h
  exact fsWriteFile_backed_iff oneFile_formatted hr

/-- The same disk after a write of 2^32 - 1 bytes. -/
def swollenFile : FsState Disk := (fsWriteFile (disk 8 .none) [0x61] [] 0xFFFFFFFF oneFile).2

/-- The write succeeds, writes no block and leaves an entry that every routine takes to
have no blocks. -/
theorem fsWriteFile_unbacked :
    (fsWriteFile (disk 8 .none) [0x61] [] 0xFFFFFFFF oneFile).1 = 0 ∧
      swollenFile.disk.dataWrites = oneFile.disk.dataWrites ∧ ceilBlocks 0xFFFFFFFF = 2 ^ 23 ∧
      (swollenFile.volume.entry 0).type = fsTypeFile ∧ (swollenFile.volume.entry 0).size = 0xFFFFFFFF ∧
      (swollenFile.volume.entry 0).markedCount = 0 ∧ (swollenFile.volume.entry 0).readCount 0xFFFFFFFF = 0 ∧
      (swollenFile.volume.entry 0).freedCount = 0 := by
  decide +kernel

end ApPa.Fs

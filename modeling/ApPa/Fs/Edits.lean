import ApPa.Fs.Refinement

/-! # Calls with buffers of any size

A write may be given a size up to 2^32 - 1. One that needs more blocks than the map of the allocator has is refused, and one of
the last 511 sizes is taken to need no block at all. Up to there every call keeps the volume consistent.
-/
namespace ApPa.Fs
open Klibc

/-- A call that changes the disk; the buffer of a write has the size given. -/
inductive Edit where
  | create (name : List UInt8) (type : UInt8)
  | write (name data : List UInt8) (size : UInt32) (fits : size.toNat = data.length)
  | delete (name : List UInt8)

/-- Any call of the file system. -/
inductive Request where
  | edit (e : Edit)
  | read (name : List UInt8) (maxSize : UInt32)
  | stat (name : List UInt8)
  | list (max : ℕ)

namespace Edit

def name : Edit → List UInt8
  | create name _ => name
  | write name _ _ _ => name
  | delete name => name

/-- The count of blocks of a write does not wrap around. -/
def Sized : Edit → Prop
  | write _ _ size _ => size.toNat ≤ 2 ^ 32 - 512
  | _ => True

end Edit

def Request.Sized : Request → Prop
  | edit e => e.Sized
  | _ => True

section
variable {σ : Type} (dev : BlockDevice σ)

def Edit.apply : Edit → FsState σ → ℤ × FsState σ
  | create name type, s => fsCreate dev name type s
  | write name data size _, s => fsWriteFile dev name data size s
  | delete name, s => fsDelete dev name s

def Request.apply : Request → FsState σ → Reply × FsState σ
  | edit e, s => (.status (e.apply dev s).1, (e.apply dev s).2)
  | read name maxSize, s => exec dev (.read name maxSize) s
  | stat name, s => exec dev (.stat name) s
  | list max, s => exec dev (.list max) s

end

namespace Reliable
variable {σ : Type} {dev : BlockDevice σ} (r : Reliable dev) {s : FsState σ}

/-- A write of more blocks than the allocator's map has changes nothing. -/
theorem fsWriteFile_large (hc : Consistent dev.totalBlocks (r.volume s)) (name data : List UInt8) {size : UInt32}
    (hsize : 1024 < (blocksFor size).toNat) : r.volume (fsWriteFile dev name data size s).2 = r.volume s := by
  have hf : Formatted dev.totalBlocks s.superblock := hc.formatted
  unfold fsWriteFile
  obtain ⟨s1,hv1,⟨i,hi,he,_⟩ | ⟨he,_⟩⟩ := r.fsFindEntry_spec s hf name
  swap
  · rw [he]
    exact hv1
  rw [he]
  dsimp only
  by_cases htype : ((r.volume s).entry i).type ≠ fsTypeFile
  · rw [if_pos htype]
    exact hv1
  rw [if_neg htype]
  have hsb1 : s1.superblock = s.superblock := congrArg Volume.superblock hv1
  obtain ⟨start,s2,he2,hv2,⟨hsp,_⟩ | ⟨_,hfirst⟩⟩ := r.writeAlloc_spec s1 (by rw [hsb1]; exact hf)
    (by rw [hv1]; exact hc.smallEntries) (blocksFor size)
  · rw [he2]
    dsimp only
    rw [if_pos hsp]
    exact hv2.trans hv1
  · have hfits := hfirst.fits
    have hlim := extentLimit_le dev.totalBlocks
    omega

theorem write_consistent (hc : Consistent dev.totalBlocks (r.volume s)) (name : List UInt8) {data : List UInt8} {size : UInt32}
    (hlen : size.toNat = data.length) (hsized : size.toNat ≤ 2 ^ 32 - 512) :
    Consistent dev.totalBlocks (r.volume (fsWriteFile dev name data size s).2) := by
  by_cases hsmall : size.toNat < 2 ^ 24
  · obtain ⟨s',⟨he,hv,_⟩ | ⟨i,hi,start,fb,_,_,_,he,_,hc'⟩⟩ := r.fsWriteFile_spec s hc name data size hlen hsmall
    · rw [he, hv]
      exact hc
    · rw [he]
      exact hc'
  · rw [r.fsWriteFile_large hc]
    · exact hc
    · rw [blocksFor_toNat_eq]
      omega

theorem apply_consistent (hc : Consistent dev.totalBlocks (r.volume s)) {q : Request} (hq : q.Sized) :
    Consistent dev.totalBlocks (r.volume (q.apply dev s).2) := by
  cases q with
  | edit e =>
    cases e with
    | create name type => exact (r.exec_refines (.create name type) s hc).1
    | write name data size fits => exact r.write_consistent hc name fits hq
    | delete name => exact (r.exec_refines (.delete name) s hc).1
  | read name maxSize => exact (r.exec_refines (.read name maxSize) s hc).1
  | stat name => exact (r.exec_refines (.stat name) s hc).1
  | list max => exact (r.exec_refines (.list max) s hc).1

theorem run_apply_consistent (hc : Consistent dev.totalBlocks (r.volume s)) (requests : List Request)
    (hsized : ∀ q ∈ requests, q.Sized) :
    Consistent dev.totalBlocks (r.volume (Machine.run (Request.apply dev) requests s).2) :=
  Machine.run_invariant_mem (fun s => Consistent dev.totalBlocks (r.volume s)) requests
    (fun q hq _ h => r.apply_consistent h (hsized q hq)) hc

end Reliable

end ApPa.Fs

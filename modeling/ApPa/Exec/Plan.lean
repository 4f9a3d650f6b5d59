import ApPa.Exec.Elf
import ApPa.Memory.Directory

/-! # The pages a file asks for

Which pages the loader visits, and in which order, is determined by the file and its size
alone. A load works through this plan until memory runs out.
-/
namespace ApPa.Exec
open ByteMem LittleEndian Memory Word32

inductive Verdict where
  | skip
  | reject
  | load
  deriving DecidableEq, Repr

/-- What the checks of `load_segments` say about a program header. -/
def verdict (size : ℕ) (ph : Phdr) : Verdict :=
  if ph.type ≠ ptLoad then .skip
  else if ph.memsz = 0 then .skip
  else if ph.memsz < ph.filesz then .reject
  else if size < add32 ph.offset ph.filesz then .reject
  else if ph.vaddr < kernelPdeCount * 4 * 1024 * 1024 then .reject
  else .load

def segPages (ph : Phdr) : List ℕ :=
  (List.range ((segEnd ph - segStart ph) / pageSize)).map fun k => segStart ph + k * pageSize

/-- The pages of the headers `i, …, i + n - 1` up to the first that is rejected, and whether
there is no such header. -/
def plan (f : File) (size i : ℕ) : ℕ → Bool × List (Phdr × ℕ)
  | 0 => (true, [])
  | n + 1 =>
    let ph := phdrAt f i
    match verdict size ph with
    | .reject => (false, [])
    | .skip => plan f size (i + 1) n
    | .load => ((plan f size (i + 1) n).1, (segPages ph).map (ph, ·) ++ (plan f size (i + 1) n).2)

/-- Load one page after the other; `false` when memory runs out. -/
def loadAll (f : File) (dir : ℕ) (p : Phys) : List (Phdr × ℕ) → Bool × Phys
  | [] => (true, p)
  | (ph, vpage) :: pages =>
    let (phys, p) := p.allocPage
    if phys = 0 then (false, p)
    else
      let p := { p with mem := fillPage f ph p.mem phys vpage }
      loadAll f dir (pagingMapPageIn p dir vpage phys (segFlags ph)) pages

theorem loadAll_append (f : File) (dir : ℕ) (p : Phys) (l l' : List (Phdr × ℕ)) :
    loadAll f dir p (l ++ l') =
      if (loadAll f dir p l).1 then loadAll f dir (loadAll f dir p l).2 l' else (false, (loadAll f dir p l).2) := by
  induction l generalizing p with
  | nil => rfl
  | cons x l ih =>
    obtain ⟨ph,vpage⟩ := x
    simp only [List.cons_append, loadAll]
    by_cases hz : p.allocPage.1 = 0
    · simp only [hz, ↓reduceIte]
      rfl
    · simp only [hz, ↓reduceIte]
      exact ih _

theorem loadPages_eq (f : File) (ph : Phdr) (dir n : ℕ) (p : Phys) (vpage : ℕ) :
    loadPages f ph dir p vpage n =
      loadAll f dir p ((List.range n).map fun k => (ph, vpage + k * pageSize)) := by
  induction n generalizing p vpage with
  | zero => rfl
  | succ n ih =>
    rw [List.range_succ_eq_map, List.map_cons, List.map_map]
    simp only [loadPages, loadAll, Nat.zero_mul, Nat.add_zero]
    split
    · rfl
    · rw [ih]
      congr 1
      refine List.map_congr_left fun k _ => ?_
      simp only [Function.comp_apply, Nat.succ_eq_add_one, Nat.add_mul, Nat.one_mul]
      congr 1
      omega

theorem loadSegment_eq (f : File) (size dir : ℕ) (p : Phys) (ph : Phdr) :
    loadSegment f size dir p ph =
      match verdict size ph with
      | .skip => (true, p)
      | .reject => (false, p)
      | .load => loadAll f dir p ((segPages ph).map (ph, ·)) := by
  unfold loadSegment verdict
  split
  · rfl
  split
  · rfl
  split
  · rfl
  split
  · rfl
  split
  · rfl
  · rw [loadPages_eq, segPages, List.map_map]
    rfl

/-- A load follows its plan. -/
theorem loadSegments_eq (f : File) (size dir n : ℕ) (p : Phys) (i : ℕ) :
    loadSegments f size dir p i n =
      ((plan f size i n).1 && (loadAll f dir p (plan f size i n).2).1, (loadAll f dir p (plan f size i n).2).2) := by
  induction n generalizing p i with
  | zero => rfl
  | succ n ih =>
    rw [loadSegments, loadSegment_eq, plan]
    cases hv : verdict size (phdrAt f i) with
    | skip =>
      dsimp only
      exact ih p (i + 1)
    | reject => rfl
    | load =>
      dsimp only
      rw [loadAll_append]
      cases hl : loadAll f dir p ((segPages (phdrAt f i)).map (phdrAt f i, ·)) with
      | mk ok p' =>
        cases ok with
        | false => simp
        | true => simpa using ih p' (i + 1)

theorem mem_segPages {ph : Phdr} {v : ℕ} (h : v ∈ segPages ph) (hv : ph.vaddr < 2 ^ 32) :
    pageSize ∣ v ∧ segStart ph ≤ v ∧ v + pageSize ≤ segEnd ph := by
  obtain ⟨k,hk,rfl⟩ := List.mem_map.mp h
  rw [List.mem_range] at hk
  have hs : segStart ph = ph.vaddr / pageSize * pageSize := land_frame hv
  have he : segEnd ph = add32 (add32 ph.vaddr ph.memsz) (pageSize - 1) / pageSize * pageSize :=
    land_frame (Nat.mod_lt _ (by decide))
  rw [hs] at hk ⊢
  rw [he] at hk ⊢
  refine ⟨⟨ph.vaddr / pageSize + k,?_⟩,Nat.le_add_right _ _,?_⟩
  · rw [Nat.mul_add, Nat.mul_comm pageSize, Nat.mul_comm pageSize]
  · simp only [pageSize] at *
    omega

theorem copyRange_eq (ph : Phdr) (v : ℕ) :
    copyRange ph v =
      if max v ph.vaddr < min (add32 ph.vaddr ph.filesz) (add32 v pageSize) then
        some (max v ph.vaddr - v, add32 ph.offset (max v ph.vaddr - ph.vaddr),
          min (add32 ph.vaddr ph.filesz) (add32 v pageSize) - max v ph.vaddr)
      else none := by
  have hmax : (if v < ph.vaddr then ph.vaddr else v) = max v ph.vaddr := by
    split <;> omega
  have hmin : (if add32 ph.vaddr ph.filesz < add32 v pageSize then add32 ph.vaddr ph.filesz else add32 v pageSize) =
      min (add32 ph.vaddr ph.filesz) (add32 v pageSize) := by
    split <;> omega
  rw [copyRange, hmax, hmin]

theorem copyRange_eq_some {ph : Phdr} {v dst off len : ℕ} (h : copyRange ph v = some (dst, off, len)) :
    max v ph.vaddr < min (add32 ph.vaddr ph.filesz) (add32 v pageSize) ∧ dst = max v ph.vaddr - v ∧
      off = add32 ph.offset (max v ph.vaddr - ph.vaddr) ∧
      len = min (add32 ph.vaddr ph.filesz) (add32 v pageSize) - max v ph.vaddr := by
  rw [copyRange_eq] at h
  by_cases hlt : max v ph.vaddr < min (add32 ph.vaddr ph.filesz) (add32 v pageSize)
  · rw [if_pos hlt, Option.some.injEq, Prod.mk.injEq, Prod.mk.injEq] at h
    exact ⟨hlt,h.1.symm,h.2.1.symm,h.2.2.symm⟩
  · rw [if_neg hlt] at h
    cases h

theorem word_lt (f : File) (off : ℕ) : word f off < 2 ^ 32 := by
  have h := leNat_lt (bytesAt f off 4)
  rwa [bytesAt, List.length_map, List.length_range] at h

theorem segEnd_lt (ph : Phdr) : segEnd ph < 2 ^ 32 :=
  Nat.lt_of_le_of_lt Nat.and_le_right (by decide)

/-- A planned page is a page above the kernel range, and it is one of a header that passed
the checks. -/
structure Planned (size : ℕ) (x : Phdr × ℕ) : Prop where
  load : verdict size x.1 = .load
  page : x.2 ∈ segPages x.1
  vaddr_lt : x.1.vaddr < 2 ^ 32

theorem plan_planned {f : File} {size i n : ℕ} {x : Phdr × ℕ} (h : x ∈ (plan f size i n).2) : Planned size x := by
  induction n generalizing i with
  | zero => cases h
  | succ n ih =>
    rw [plan] at h
    cases hv : verdict size (phdrAt f i) with
    | skip =>
      rw [hv] at h
      exact ih h
    | reject =>
      rw [hv] at h
      cases h
    | load =>
      rw [hv] at h
      rcases List.mem_append.mp h with h | h
      · obtain ⟨v,hv',rfl⟩ := List.mem_map.mp h
        exact ⟨hv,hv',word_lt f _⟩
      · exact ih h

namespace Planned
variable {size : ℕ} {x : Phdr × ℕ}

theorem vaddr_ge (h : Planned size x) : 0x1000000 ≤ x.1.vaddr := by
  have hv := h.load
  unfold verdict at hv
  by_contra hlt
  have hlt' : x.1.vaddr < kernelPdeCount * 4 * 1024 * 1024 := Nat.not_le.mp hlt
  rw [if_pos hlt'] at hv
  split at hv
  · cases hv
  split at hv
  · cases hv
  split at hv
  · cases hv
  split at hv
  · cases hv
  · cases hv

theorem bounds (h : Planned size x) : pageSize ∣ x.2 ∧ 0x1000000 ≤ x.2 ∧ x.2 + pageSize < 2 ^ 32 := by
  obtain ⟨hdvd,hlo,hhi⟩ := mem_segPages h.page h.vaddr_lt
  have hge := h.vaddr_ge
  have hs : segStart x.1 = x.1.vaddr / pageSize * pageSize := land_frame h.vaddr_lt
  have hlt := segEnd_lt x.1
  refine ⟨hdvd,?_,?_⟩
  · rw [hs] at hlo
    simp only [pageSize] at *
    omega
  · omega

end Planned

/-! ## Files with given headers -/

def phdrBytes (ph : Phdr) : List UInt8 :=
  le32 ph.type ++ le32 ph.offset ++ le32 ph.vaddr ++ le32 ph.vaddr ++ le32 ph.filesz ++ le32 ph.memsz ++ le32 ph.flags ++
    le32 pageSize

def elfBytes (entry phoff phnum : ℕ) (phs : List Phdr) : List UInt8 :=
  [0x7F, 0x45, 0x4C, 0x46, 1, 1, 1, 0, 0, 0, 0, 0, 0, 0, 0, 0] ++ le16 2 ++ le16 3 ++ le32 1 ++ le32 entry ++ le32 phoff ++
    le32 0 ++ le32 0 ++ le16 sizeofEhdr ++ le16 sizeofPhdr ++ le16 phnum ++ le16 0 ++ le16 0 ++ le16 0 ++
    phs.flatMap phdrBytes

/-- A file with the given program headers after the file header, and zeroes behind them. -/
def elfFile (entry phoff phnum : ℕ) (phs : List Phdr) : File := fun a => (elfBytes entry phoff phnum phs).getD a 0

end ApPa.Exec

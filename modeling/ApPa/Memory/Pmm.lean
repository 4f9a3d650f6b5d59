import ApPa.Lib.BitTable
import ApPa.Lib.RunSearch
import Mathlib.Data.List.Basic
import Mathlib.Data.UInt

/-! # The physical memory manager

`pmm.c`: one bit per 4 KB frame, packed into 32-bit words. The bitmap is kept apart from
the byte memory it lives in; nothing else writes that memory.
-/
namespace ApPa.Memory
open BitTable

def pageSize : ℕ := 4096
def totalFrames : ℕ := 4096
def bitmapSize : ℕ := (totalFrames + 31) / 32
def pmmBitmapAddress : ℕ := 0x200000

/-- The pages that can be handed out. -/
def pmmPoolStart : ℕ := 0x201000
def pmmPoolEnd : ℕ := 0xF00000

/-- What `free_page` reports when it refuses an address. -/
inductive FreeError where
  | notAligned (addr : ℕ)
  | outOfRange (frame : ℕ)
  | doubleFree (addr : ℕ)
  deriving DecidableEq, Repr

/-- State of the manager, with the refusals reported so far. -/
structure Pmm where
  bitmap : Table 32
  usedFrames : UInt32
  errors : List FreeError

namespace Pmm

def setFrame (p : Pmm) (frame : ℕ) : Pmm :=
  { p with bitmap := setBit p.bitmap frame, usedFrames := p.usedFrames + 1 }
def clearFrame (p : Pmm) (frame : ℕ) : Pmm :=
  { p with bitmap := clearBit p.bitmap frame, usedFrames := p.usedFrames - 1 }
def testFrame (p : Pmm) (frame : ℕ) : Bool := testBit p.bitmap frame

def setFrames (p : Pmm) (frame : ℕ) : ℕ → Pmm
  | 0 => p
  | n + 1 => (p.setFrame frame).setFrames (frame + 1) n

/-- First clear bit of a word that is not all ones. -/
def firstFreeBit (word : BitVec 32) : Option ℕ :=
  (List.range 32).find? fun j => (word &&& (1#32 <<< j)) = 0#32

def firstFreeFrame (p : Pmm) : ℕ :=
  ((List.range bitmapSize).findSome? fun i =>
    if p.bitmap i ≠ 0xFFFFFFFF#32 then (firstFreeBit (p.bitmap i)).map (i * 32 + ·) else none).getD totalFrames

def markReservedRegions (p : Pmm) : Pmm :=
  let p := p.setFrames 0 256
  let p := p.setFrames 256 256
  let p := p.setFrames (pmmBitmapAddress / pageSize) (bitmapSize * 4 / pageSize + 1)
  p.setFrames 3840 256

def init (p : Pmm) : Pmm := markReservedRegions { p with bitmap := fun _ => 0, usedFrames := 0 }

/-- The address of the frame taken, 0 when there is none. -/
def allocPage (p : Pmm) : ℕ × Pmm :=
  let frame := p.firstFreeFrame
  if frame = totalFrames then (0, p) else (frame * pageSize, p.setFrame frame)

def allocPages (p : Pmm) (count : ℕ) : ℕ × Pmm :=
  if count = 0 then (0, p)
  else if count = 1 then p.allocPage
  else
    match RunSearch.scan (fun frame => !p.testFrame frame) count totalFrames 0 0 0 with
    | some start => (start * pageSize, p.setFrames start count)
    | none => (0, p)

def freePage (p : Pmm) (addr : ℕ) : Pmm :=
  if addr % pageSize ≠ 0 then { p with errors := .notAligned addr :: p.errors }
  else if totalFrames ≤ addr / pageSize then { p with errors := .outOfRange (addr / pageSize) :: p.errors }
  else if !p.testFrame (addr / pageSize) then { p with errors := .doubleFree addr :: p.errors }
  else p.clearFrame (addr / pageSize)

def getTotalMemory : UInt32 := UInt32.ofNat totalFrames * UInt32.ofNat pageSize
def getUsedMemory (p : Pmm) : UInt32 := p.usedFrames * UInt32.ofNat pageSize
def getFreeMemory (p : Pmm) : UInt32 := (UInt32.ofNat totalFrames - p.usedFrames) * UInt32.ofNat pageSize

@[simp] theorem testFrame_setFrame (p : Pmm) (i j : ℕ) :
    (p.setFrame i).testFrame j = (decide (i = j) || p.testFrame j) := testBit_setBit (by decide) _ _ _

@[simp] theorem testFrame_clearFrame (p : Pmm) (i j : ℕ) :
    (p.clearFrame i).testFrame j = (!decide (i = j) && p.testFrame j) := testBit_clearBit (by decide) _ _ _

theorem testFrame_setFrames (p : Pmm) (i n j : ℕ) :
    (p.setFrames i n).testFrame j = (decide (i ≤ j ∧ j < i + n) || p.testFrame j) := by
  induction n generalizing p i with
  | zero => simp [setFrames]
  | succ n ih =>
    rw [setFrames, ih, testFrame_setFrame, ← Bool.or_assoc]
    congr 1
    rw [Bool.eq_iff_iff]
    simp only [Bool.or_eq_true, decide_eq_true_eq]
    omega

theorem errors_setFrames (p : Pmm) (i n : ℕ) : (p.setFrames i n).errors = p.errors := by
  induction n generalizing p i with
  | zero => rfl
  | succ n ih => exact ih _ _

theorem firstFreeBit_eq_some {word : BitVec 32} {j : ℕ} (h : firstFreeBit word = some j) :
    j < 32 ∧ word.getLsbD j = false ∧ ∀ i < j, word.getLsbD i = true := by
  obtain ⟨hj,hmem,hbefore⟩ := List.find?_range_eq_some.mp h
  have hlt : j < 32 := List.mem_range.mp hmem
  refine ⟨hlt,?_,fun i hi => ?_⟩
  · rw [← and_mask_ne_zero word hlt]
    simpa using hj
  · rw [← and_mask_ne_zero word (Nat.lt_trans hi hlt)]
    simpa using hbefore i hi

theorem firstFreeBit_ne_none {word : BitVec 32} (h : word ≠ 0xFFFFFFFF#32) : firstFreeBit word ≠ none := by
  intro hnone
  apply h
  apply BitVec.eq_of_getLsbD_eq
  intro j hj
  have hbit : ¬decide ((word &&& (1#32 <<< j)) = 0#32) = true :=
    List.find?_eq_none.mp hnone j (List.mem_range.mpr hj)
  rw [← and_mask_ne_zero word hj, show (0xFFFFFFFF#32 : BitVec 32) = BitVec.allOnes 32 from rfl,
    BitVec.getLsbD_allOnes]
  simpa [hj] using hbit

theorem testFrame_word (p : Pmm) (i : ℕ) {j : ℕ} (hj : j < 32) :
    p.testFrame (i * 32 + j) = (p.bitmap i).getLsbD j := by
  rw [testFrame, testBit_eq (by decide), show (i * 32 + j) / 32 = i by omega, show (i * 32 + j) % 32 = j by omega]

/-- A word in which the search finds nothing has all its frames in use. -/
theorem testFrame_of_skipped (p : Pmm) {f : ℕ}
    (h : (if p.bitmap (f / 32) ≠ 0xFFFFFFFF#32 then (firstFreeBit (p.bitmap (f / 32))).map (f / 32 * 32 + ·) else none) = none) :
    p.testFrame f = true := by
  by_cases hones : p.bitmap (f / 32) = 0xFFFFFFFF#32
  · rw [show f = f / 32 * 32 + f % 32 by omega, testFrame_word p _ (Nat.mod_lt f (by decide)), hones,
      show (0xFFFFFFFF#32 : BitVec 32) = BitVec.allOnes 32 from rfl, BitVec.getLsbD_allOnes]
    simpa using Nat.mod_lt f (by decide)
  · rw [if_pos hones, Option.map_eq_none_iff] at h
    exact absurd h (firstFreeBit_ne_none hones)

/-- The word-skipping search finds the first free frame, when there is one. -/
theorem firstFreeFrame_spec (p : Pmm) : (∀ f < p.firstFreeFrame, p.testFrame f = true) ∧
    (p.firstFreeFrame = totalFrames ∨ p.firstFreeFrame < totalFrames ∧ p.testFrame p.firstFreeFrame = false) := by
  unfold firstFreeFrame
  cases hf : (List.range bitmapSize).findSome? (fun i =>
    if p.bitmap i ≠ 0xFFFFFFFF#32 then (firstFreeBit (p.bitmap i)).map (i * 32 + ·) else none) with
  | none =>
    refine ⟨fun f hlt => p.testFrame_of_skipped (List.findSome?_eq_none_iff.mp hf (f / 32) (List.mem_range.mpr ?_)),Or.inl rfl⟩
    rw [Option.getD_none, totalFrames] at hlt
    simp only [bitmapSize, totalFrames]
    omega
  | some f =>
    obtain ⟨i,hi,hword,hskipped⟩ := RunSearch.findSome?_range hf
    simp only [bitmapSize, totalFrames] at hi
    rw [Option.getD_some]
    split at hword
    · obtain ⟨j,hj,rfl⟩ := Option.map_eq_some_iff.mp hword
      obtain ⟨hlt,hbit,hbefore⟩ := firstFreeBit_eq_some hj
      refine ⟨fun g hg => ?_,Or.inr ⟨?_,?_⟩⟩
      · by_cases hgi : g / 32 < i
        · exact p.testFrame_of_skipped (hskipped _ hgi)
        · rw [show g = i * 32 + (g - i * 32) by omega, testFrame_word p i (by omega)]
          exact hbefore _ (by omega)
      · rw [totalFrames]
        omega
      · rw [testFrame_word p i hlt, hbit]
    · cases hword

theorem allocPage_spec (p : Pmm) :
    (∃ f < totalFrames, p.testFrame f = false ∧ (∀ g < f, p.testFrame g = true) ∧ p.allocPage = (f * pageSize, p.setFrame f)) ∨
      (p.allocPage = (0, p) ∧ ∀ f < totalFrames, p.testFrame f = true) := by
  unfold allocPage
  obtain ⟨hbefore,heq | ⟨hlt,hfree⟩⟩ := p.firstFreeFrame_spec
  · exact Or.inr ⟨if_pos heq,heq ▸ hbefore⟩
  · exact Or.inl ⟨_,hlt,hfree,hbefore,if_neg (Nat.ne_of_lt hlt)⟩

theorem allocPage_at {p : Pmm} {t : ℕ} (hfree : p.testFrame t = false) (ht : t < totalFrames)
    (hbefore : ∀ f < t, p.testFrame f = true) : p.allocPage = (t * pageSize, p.setFrame t) := by
  rcases p.allocPage_spec with ⟨f,_,hf,hfirst,he⟩ | ⟨_,hall⟩
  · rcases Nat.lt_trichotomy f t with hlt | rfl | hgt
    · exact absurd (hf.symm.trans (hbefore f hlt)) Bool.false_ne_true
    · exact he
    · exact absurd (hfree.symm.trans (hfirst t hgt)) Bool.false_ne_true
  · exact absurd (hfree.symm.trans (hall t ht)) Bool.false_ne_true

theorem scan_frames (p : Pmm) {count : ℕ} (hc : 0 < count) :
    (∃ s, RunSearch.scan (fun frame => !p.testFrame frame) count totalFrames 0 0 0 = some s ∧
      RunSearch.FirstRun (p.testFrame · = false) count totalFrames s) ∨
    (RunSearch.scan (fun frame => !p.testFrame frame) count totalFrames 0 0 0 = none ∧
      ∀ s, s + count ≤ totalFrames → ¬∀ k < count, p.testFrame (s + k) = false) := by
  have hscan := RunSearch.scan_first (n := totalFrames) (RunSearch.passed_zero (fun frame => !p.testFrame frame) hc)
    (RunSearch.counted_zero _ 0 0)
  simpa only [Nat.zero_add, Bool.not_eq_true'] using hscan

theorem allocPages_first (p : Pmm) {count : ℕ} (hc : 0 < count) :
    (∃ s, RunSearch.FirstRun (p.testFrame · = false) count totalFrames s ∧
      p.allocPages count = (s * pageSize, p.setFrames s count)) ∨
    (p.allocPages count = (0, p) ∧ ∀ s, s + count ≤ totalFrames → ¬∀ k < count, p.testFrame (s + k) = false) := by
  unfold allocPages
  rw [if_neg (Nat.ne_of_gt hc)]
  by_cases h1 : count = 1
  · subst h1
    rw [if_pos rfl]
    rcases p.allocPage_spec with ⟨f,hf,hfree,hbefore,he⟩ | ⟨he,hall⟩
    · refine Or.inl ⟨f,⟨hf,fun k hk => ?_,fun g hg hrun => ?_⟩,he⟩
      · rwa [Nat.lt_one_iff.mp hk]
      · exact Bool.false_ne_true ((hrun 0 Nat.one_pos).symm.trans (hbefore g hg))
    · exact Or.inr ⟨he,fun s hs hrun => Bool.false_ne_true ((hrun 0 Nat.one_pos).symm.trans (hall s hs))⟩
  · rw [if_neg h1]
    rcases p.scan_frames hc with ⟨s,hs,hfirst⟩ | ⟨hs,hno⟩
    · exact Or.inl ⟨s,hfirst,by rw [hs]⟩
    · exact Or.inr ⟨by rw [hs],hno⟩

theorem freePage_of_used {p : Pmm} {f : ℕ} (hf : f < totalFrames) (hused : p.testFrame f = true) :
    p.freePage (f * pageSize) = p.clearFrame f := by
  have hdiv : f * pageSize / pageSize = f := Nat.mul_div_cancel f (by decide)
  have hmod : f * pageSize % pageSize = 0 := Nat.mul_mod_left f pageSize
  unfold freePage
  rw [if_neg (not_not.mpr hmod), hdiv, if_neg (Nat.not_le.mpr hf), if_neg (by simp [hused])]

theorem freePage_spec (p : Pmm) (addr : ℕ) :
    (addr % pageSize = 0 ∧ addr / pageSize < totalFrames ∧ p.testFrame (addr / pageSize) = true ∧
      p.freePage addr = p.clearFrame (addr / pageSize)) ∨
    (¬(addr % pageSize = 0 ∧ addr / pageSize < totalFrames ∧ p.testFrame (addr / pageSize) = true) ∧
      (p.freePage addr).bitmap = p.bitmap ∧ (p.freePage addr).usedFrames = p.usedFrames) := by
  unfold freePage
  by_cases ha : addr % pageSize = 0
  · rw [if_neg (not_not.mpr ha)]
    by_cases hr : addr / pageSize < totalFrames
    · rw [if_neg (Nat.not_le.mpr hr)]
      by_cases hu : p.testFrame (addr / pageSize) = true
      · rw [if_neg (by simp [hu])]
        exact Or.inl ⟨ha,hr,hu,rfl⟩
      · rw [if_pos (by simpa using hu)]
        exact Or.inr ⟨fun h => hu h.2.2,rfl,rfl⟩
    · rw [if_pos (Nat.not_lt.mp hr)]
      exact Or.inr ⟨fun h => hr h.2.1,rfl,rfl⟩
  · rw [if_pos ha]
    exact Or.inr ⟨fun h => ha h.1,rfl,rfl⟩

def Fewer (p' p : Pmm) : Prop := ∀ f, p'.testFrame f = true → p.testFrame f = true

theorem Fewer.refl (p : Pmm) : Fewer p p := fun _ h => h

theorem Fewer.trans {p₁ p₂ p₃ : Pmm} (h : Fewer p₁ p₂) (h' : Fewer p₂ p₃) : Fewer p₁ p₃ := fun f hf => h' f (h f hf)

theorem freePage_fewer (p : Pmm) (addr : ℕ) : Fewer (p.freePage addr) p := by
  intro f hf
  rcases p.freePage_spec addr with ⟨_,_,_,he⟩ | ⟨_,hmap,_⟩
  · rw [he, testFrame_clearFrame, Bool.and_eq_true] at hf
    exact hf.2
  · rwa [testFrame, hmap] at hf

theorem foldl_fewer {α : Type*} {g : Pmm → α → Pmm} (hg : ∀ p a, Fewer (g p a) p) (l : List α) (p : Pmm) :
    Fewer (l.foldl g p) p := by
  induction l generalizing p with
  | nil => exact Fewer.refl p
  | cons a l ih => exact (ih (g p a)).trans (hg p a)

theorem testFrame_freePage_self (p : Pmm) {f : ℕ} (hf : f < totalFrames) : (p.freePage (f * pageSize)).testFrame f = false := by
  cases hused : p.testFrame f with
  | true =>
    rw [freePage_of_used hf hused]
    simp
  | false =>
    by_contra hstill
    rw [Bool.not_eq_false] at hstill
    rw [p.freePage_fewer _ f hstill] at hused
    cases hused

theorem testFrame_init (p : Pmm) (f : ℕ) :
    p.init.testFrame f = decide (f < 513 ∨ 3840 ≤ f ∧ f < 4096) := by
  simp only [init, markReservedRegions, testFrame_setFrames]
  have hzero : ({ p with bitmap := fun _ => 0, usedFrames := 0 } : Pmm).testFrame f = false := by
    simp [testFrame, testBit]
  rw [hzero, Bool.or_false, Bool.eq_iff_iff]
  simp only [Bool.or_eq_true, decide_eq_true_eq]
  simp only [pmmBitmapAddress, pageSize, bitmapSize, totalFrames]
  omega

theorem usedFrames_setFrames (p : Pmm) (i n : ℕ) : (p.setFrames i n).usedFrames = p.usedFrames + UInt32.ofNat n := by
  induction n generalizing p i with
  | zero => simp [setFrames]
  | succ n ih =>
    rw [setFrames, ih, UInt32.ofNat_add]
    change p.usedFrames + 1 + _ = _
    rw [UInt32.add_assoc, UInt32.add_comm 1]
    rfl

theorem usedFrames_init (p : Pmm) : p.init.usedFrames = 769 := by
  simp only [init, markReservedRegions, usedFrames_setFrames]
  decide

theorem errors_init (p : Pmm) : p.init.errors = p.errors := by
  simp only [init, markReservedRegions, errors_setFrames]

-- its value is a term of 769 updates
attribute [irreducible] init

end Pmm

end ApPa.Memory

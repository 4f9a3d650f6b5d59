import ApPa.Heap.Kmalloc
import Mathlib.Data.List.Chain
import Mathlib.Algebra.BigOperators.Group.List.Basic

/-! # The heap as a list of blocks

Blocks that tile a region are a list of sizes and flags. Memory represents such a list
when each header, found by adding up the sizes before it, holds the block's size and
flag. One replacement lemma serves splitting, marking and merging.
-/
namespace ApPa.Heap
open ByteMem

structure Blk where
  size : ℕ
  free : Bool
  deriving DecidableEq, Repr

def span (bs : List Blk) : ℕ := (bs.map Blk.size).sum

@[simp] theorem span_nil : span [] = 0 := rfl
@[simp] theorem span_cons (b : Blk) (bs : List Blk) : span (b :: bs) = b.size + span bs := by
  simp [span]
@[simp] theorem span_append (xs ys : List Blk) : span (xs ++ ys) = span xs + span ys := by
  simp [span]

/-- The header at `a` describes the block `b`. -/
structure Header (m : Mem) (a : ℕ) (b : Blk) : Prop where
  size_eq : blockSize m a = b.size
  free_eq : isFree m a = b.free.toNat

/-- Walking from `a` by the stored sizes visits exactly `bs` and ends at `e`. -/
def Tiled (m : Mem) : ℕ → List Blk → ℕ → Prop
  | a, [], e => a = e
  | a, b :: bs, e => Header m a b ∧ Tiled m (a + b.size) bs e

/-- Sizes of heap blocks: a multiple of four that leaves room behind the header. -/
structure Blk.Ok (b : Blk) : Prop where
  aligned : 4 ∣ b.size
  twelve_le : 12 ≤ b.size

/-- No two neighbours are both free. -/
def Coalesced (bs : List Blk) : Prop := bs.IsChain (fun b c => ¬(b.free = true ∧ c.free = true))

theorem isFree_ne_zero {m : Mem} {a : ℕ} {b : Blk} (h : Header m a b) : isFree m a ≠ 0 ↔ b.free = true := by
  rw [h.free_eq]
  cases b.free <;> simp

theorem Tiled.end_eq {m : Mem} {a e : ℕ} {bs : List Blk} (h : Tiled m a bs e) : e = a + span bs := by
  induction bs generalizing a with
  | nil =>
    have he : a = e := h
    simp [he]
  | cons b bs ih =>
    have := ih h.2
    rw [span_cons]
    omega

theorem tiled_append {m : Mem} {a e : ℕ} {xs ys : List Blk} :
    Tiled m a (xs ++ ys) e ↔ Tiled m a xs (a + span xs) ∧ Tiled m (a + span xs) ys e := by
  induction xs generalizing a with
  | nil => simp [Tiled]
  | cons b bs ih =>
    rw [List.cons_append, Tiled, Tiled, ih, span_cons, Nat.add_assoc, and_assoc]

theorem Header.congr {m m' : Mem} {a : ℕ} {b : Blk} (h : Header m a b)
    (heq : ∀ x, a ≤ x → x < a + 8 → m' x = m x) : Header m' a b where
  size_eq := by
    rw [← h.size_eq]
    exact read32_congr fun x h1 h2 => heq x h1 (by omega)
  free_eq := by
    rw [← h.free_eq]
    exact read32_congr fun x h1 h2 => heq x (by omega) (by omega)

theorem Tiled.congr {m m' : Mem} {a e : ℕ} {bs : List Blk} (h : Tiled m a bs e) (hok : ∀ b ∈ bs, b.Ok)
    (heq : ∀ x, a ≤ x → x < e → m' x = m x) : Tiled m' a bs e := by
  induction bs generalizing a with
  | nil => exact h
  | cons b bs ih =>
    have hb := (hok b List.mem_cons_self).twelve_le
    have hend := h.2.end_eq
    refine ⟨h.1.congr fun x h1 h2 => heq x h1 (by omega),?_⟩
    exact ih h.2 (fun c hc => hok c (List.mem_cons_of_mem _ hc)) (fun x h1 h2 => heq x (by omega) h2)

/-- Rewriting the memory of some consecutive blocks so that it tiles the same stretch with
other blocks replaces just those blocks. -/
theorem Tiled.replace {m m' : Mem} {a e : ℕ} {pre new post : List Blk} (old : List Blk)
    (h : Tiled m a (pre ++ (old ++ post)) e) (hpre : ∀ b ∈ pre, b.Ok) (hpost : ∀ b ∈ post, b.Ok)
    (hnew : Tiled m' (a + span pre) new (a + span pre + span old))
    (heq : ∀ x, x < a + span pre ∨ a + span pre + span old ≤ x → m' x = m x) :
    Tiled m' a (pre ++ (new ++ post)) e := by
  rw [tiled_append, tiled_append] at h ⊢
  obtain ⟨h1,_,h3⟩ := h
  have hspan : a + span pre + span new = a + span pre + span old := hnew.end_eq.symm
  rw [hspan]
  refine ⟨h1.congr hpre fun x _ hx => heq x (Or.inl hx),hnew,?_⟩
  exact h3.congr hpost fun x hx _ => heq x (Or.inr hx)

theorem Tiled.header {m : Mem} {a e : ℕ} {pre post : List Blk} {b : Blk}
    (h : Tiled m a (pre ++ b :: post) e) : Header m (a + span pre) b := (tiled_append.mp h).2.1

theorem Tiled.block_le {m : Mem} {a e : ℕ} {pre post : List Blk} {b : Blk}
    (h : Tiled m a (pre ++ b :: post) e) : a + span pre + b.size + span post = e := by
  have := h.end_eq
  simp only [span_append, span_cons] at this
  omega

theorem header_setSize {m : Mem} {a : ℕ} {b : Blk} (h : Header m a b) {n : ℕ} (hn : n < 2 ^ 32) :
    Header (setSize m a n) a { b with size := n } where
  size_eq := by
    unfold blockSize setSize
    rw [read32_write32_self, Nat.mod_eq_of_lt hn]
  free_eq := by
    rw [← h.free_eq]
    exact read32_write32_of_disjoint n (Or.inr (Nat.le_refl _))

theorem header_setFree {m : Mem} {a : ℕ} {b : Blk} (h : Header m a b) (flag : Bool) :
    Header (setFree m a flag.toNat) a { b with free := flag } where
  size_eq := by
    rw [← h.size_eq]
    exact read32_write32_of_disjoint _ (Or.inl (Nat.le_refl _))
  free_eq := by
    unfold isFree setFree
    rw [read32_write32_self]
    cases flag <;> rfl

theorem setSize_apply {m : Mem} {a n x : ℕ} (h : x < a ∨ a + 8 ≤ x) : setSize m a n x = m x :=
  write32_apply (by omega)

theorem setFree_apply {m : Mem} {a n x : ℕ} (h : x < a ∨ a + 8 ≤ x) : setFree m a n x = m x :=
  write32_apply (by omega)

end ApPa.Heap

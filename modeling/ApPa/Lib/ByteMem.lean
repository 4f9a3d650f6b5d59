import ApPa.Lib.LittleEndian

/-! # Byte-addressed memory

Memory is a function from addresses to bytes. Runs of bytes are loaded and stored as
lists, 32-bit words in little-endian order.
-/
namespace ApPa.ByteMem
open LittleEndian

abbrev Mem := ℕ → UInt8

def load (m : Mem) (a n : ℕ) : List UInt8 := (List.range n).map (fun i => m (a + i))

def store (m : Mem) (a : ℕ) (bytes : List UInt8) : Mem := fun x =>
  if a ≤ x then bytes.getD (x - a) (m x) else m x

def read32 (m : Mem) (a : ℕ) : ℕ := leNat (load m a 4)
def write32 (m : Mem) (a v : ℕ) : Mem := store m a (le32 v)

def fill (m : Mem) (a n : ℕ) (v : UInt8) : Mem := fun x => if a ≤ x ∧ x < a + n then v else m x

def storeWords (m : Mem) (a : ℕ) (f : ℕ → ℕ) : ℕ → Mem
  | 0 => m
  | n + 1 => write32 (storeWords m a f n) (a + 4 * n) (f n)

@[simp] theorem load_length (m : Mem) (a n : ℕ) : (load m a n).length = n := by
  simp [load]

theorem load_congr {m m' : Mem} {a n : ℕ} (h : ∀ x, a ≤ x → x < a + n → m x = m' x) :
    load m a n = load m' a n := by
  apply List.map_congr_left
  intro i hi
  exact h _ (Nat.le_add_right _ _) (Nat.add_lt_add_left (List.mem_range.mp hi) _)

theorem store_apply_of_lt {m : Mem} {a x : ℕ} (bytes : List UInt8) (h : x < a) :
    store m a bytes x = m x := if_neg (Nat.not_le.mpr h)

theorem store_apply_of_ge {m : Mem} {a x : ℕ} {bytes : List UInt8} (h : a + bytes.length ≤ x) :
    store m a bytes x = m x := by
  rw [store, if_pos (by omega), List.getD_eq_getElem?_getD, List.getElem?_eq_none (by omega), Option.getD_none]

theorem store_apply_add (m : Mem) (a : ℕ) {bytes : List UInt8} {i : ℕ} (h : i < bytes.length) :
    store m a bytes (a + i) = bytes[i] := by
  rw [store, if_pos (Nat.le_add_right _ _), Nat.add_sub_cancel_left, List.getD_eq_getElem?_getD,
    List.getElem?_eq_getElem h, Option.getD_some]

theorem load_store_self (m : Mem) (a : ℕ) (bytes : List UInt8) :
    load (store m a bytes) a bytes.length = bytes := by
  apply List.ext_getElem
  · exact load_length _ _ _
  · intro i h1 h2
    simp only [load, List.getElem_map, List.getElem_range]
    exact store_apply_add m a h2

theorem read32_congr {m m' : Mem} {a : ℕ} (h : ∀ x, a ≤ x → x < a + 4 → m x = m' x) :
    read32 m a = read32 m' a := by
  rw [read32, read32, load_congr h]

theorem read32_lt (m : Mem) (a : ℕ) : read32 m a < 2 ^ 32 := by
  have h := leNat_lt (load m a 4)
  rwa [load_length] at h

theorem write32_apply {m : Mem} {a v x : ℕ} (h : x < a ∨ a + 4 ≤ x) : write32 m a v x = m x := by
  cases h with
  | inl h => exact store_apply_of_lt _ h
  | inr h => exact store_apply_of_ge (by rw [le32_length]; exact h)

@[simp] theorem read32_write32_self (m : Mem) (a v : ℕ) : read32 (write32 m a v) a = v % 2 ^ 32 := by
  have h := load_store_self m a (le32 v)
  rw [le32_length] at h
  rw [read32, write32, h, leNat_le32]

theorem read32_write32_of_disjoint {m : Mem} {a b : ℕ} (v : ℕ) (h : b + 4 ≤ a ∨ a + 4 ≤ b) :
    read32 (write32 m a v) b = read32 m b :=
  read32_congr fun _ _ _ => write32_apply (by omega)

theorem fill_apply {m : Mem} {a n x : ℕ} {v : UInt8} (h : x < a ∨ a + n ≤ x) : fill m a n v x = m x :=
  if_neg (by omega)

theorem read32_fill {m : Mem} {a n b : ℕ} (ha : a ≤ b) (hb : b + 4 ≤ a + n) : read32 (fill m a n 0) b = 0 := by
  have hz : ∀ x, b ≤ x → x < b + 4 → fill m a n 0 x = 0 := fun x h1 h2 => if_pos ⟨by omega,by omega⟩
  have hzero : read32 (fill m a n 0) b = read32 (fun _ => 0) b := read32_congr hz
  exact hzero

theorem storeWords_apply {m : Mem} {a : ℕ} (f : ℕ → ℕ) {n x : ℕ} (h : x < a ∨ a + 4 * n ≤ x) :
    storeWords m a f n x = m x := by
  induction n with
  | zero => rfl
  | succ n ih => rw [storeWords, write32_apply (by omega), ih (by omega)]

theorem read32_storeWords (m : Mem) (a : ℕ) (f : ℕ → ℕ) {n j : ℕ} (hj : j < n) :
    read32 (storeWords m a f n) (a + 4 * j) = f j % 2 ^ 32 := by
  induction n with
  | zero => exact absurd hj (Nat.not_lt_zero _)
  | succ n ih =>
    rw [storeWords]
    by_cases hjn : j = n
    · rw [hjn, read32_write32_self]
    · rw [read32_write32_of_disjoint _ (by omega), ih (by omega)]

theorem read32_copy (m : Mem) {dst src n k : ℕ} (hk : k + 4 ≤ n) :
    read32 (store m dst (load m src n)) (dst + k) = read32 m (src + k) := by
  unfold read32 load
  congr 1
  apply List.map_congr_left
  intro i hi
  have hi' : i < 4 := List.mem_range.mp hi
  rw [Nat.add_assoc, store_apply_add m dst (by simp; omega)]
  simp [Nat.add_assoc]

end ApPa.ByteMem

import Mathlib.Tactic.Common
import Mathlib.Logic.Function.Basic

/-! # Tables of bits packed into fixed-width words

Bit `i` lives in word `i / w` at offset `i % w`. Setting and clearing one bit are
the usual read-modify-write operations with a one-bit mask.
-/
namespace ApPa.BitTable
variable {w : ℕ}

abbrev Table (w : ℕ) := ℕ → BitVec w

def testBit (t : Table w) (i : ℕ) : Bool := (t (i / w) &&& (1#w <<< (i % w))) != 0#w
def setBit (t : Table w) (i : ℕ) : Table w :=
  Function.update t (i / w) (t (i / w) ||| (1#w <<< (i % w)))
def clearBit (t : Table w) (i : ℕ) : Table w :=
  Function.update t (i / w) (t (i / w) &&& ~~~(1#w <<< (i % w)))

theorem twoPow_ne_zero {k : ℕ} (hk : k < w) : BitVec.twoPow w k ≠ 0#w :=
  fun h => by simpa [hk] using congrArg (BitVec.getLsbD · k) h

theorem and_mask_ne_zero (x : BitVec w) {k : ℕ} (hk : k < w) :
    ((x &&& (1#w <<< k)) != 0#w) = x.getLsbD k := by
  have hz := twoPow_ne_zero hk
  rw [← BitVec.twoPow_eq, BitVec.and_twoPow]
  split <;> rename_i hx
  · rw [hx]
    exact bne_iff_ne.mpr hz
  · rw [Bool.not_eq_true] at hx
    simp [hx]

theorem testBit_eq (hw : 0 < w) (t : Table w) (i : ℕ) :
    testBit t i = (t (i / w)).getLsbD (i % w) := and_mask_ne_zero _ (Nat.mod_lt i hw)

private theorem same_word {i j : ℕ} (h : i / w = j / w) : i % w = j % w ↔ i = j := by
  constructor
  · intro hm
    rw [← Nat.div_add_mod i w, ← Nat.div_add_mod j w, h, hm]
  · rintro rfl
    rfl

theorem testBit_update (hw : 0 < w) (t : Table w) (k : ℕ) (x : BitVec w) (j : ℕ) :
    testBit (Function.update t k x) j = if k = j / w then x.getLsbD (j % w) else testBit t j := by
  rw [testBit_eq hw, testBit_eq hw]
  split
  · rename_i h
    rw [h, Function.update_self]
  · rename_i h
    rw [Function.update_of_ne (Ne.symm h)]

theorem testBit_setBit (hw : 0 < w) (t : Table w) (i j : ℕ) :
    testBit (setBit t i) j = (decide (i = j) || testBit t j) := by
  rw [setBit, testBit_update hw]
  split
  · rename_i h
    rw [BitVec.getLsbD_or, ← BitVec.twoPow_eq, BitVec.getLsbD_twoPow, Bool.or_comm, h, ← testBit_eq hw]
    simp [Nat.mod_lt i hw, same_word h]
  · rename_i h
    have hne : i ≠ j := fun he => h (by rw [he])
    simp [hne]

theorem testBit_clearBit (hw : 0 < w) (t : Table w) (i j : ℕ) :
    testBit (clearBit t i) j = (!decide (i = j) && testBit t j) := by
  rw [clearBit, testBit_update hw]
  split
  · rename_i h
    rw [BitVec.getLsbD_and, BitVec.getLsbD_not, ← BitVec.twoPow_eq, BitVec.getLsbD_twoPow, Bool.and_comm, h, ← testBit_eq hw]
    simp [Nat.mod_lt i hw, Nat.mod_lt j hw, same_word h]
  · rename_i h
    have hne : i ≠ j := fun he => h (by rw [he])
    simp [hne]

theorem ext_testBit (hw : 0 < w) {t u : Table w} (h : ∀ i, testBit t i = testBit u i) : t = u := by
  funext k
  apply BitVec.eq_of_getLsbD_eq
  intro i hi
  have hk := h (w * k + i)
  rw [testBit_eq hw, testBit_eq hw, Nat.mul_add_div hw, Nat.mul_add_mod, Nat.div_eq_of_lt hi,
    Nat.mod_eq_of_lt hi, Nat.add_zero] at hk
  exact hk

end ApPa.BitTable

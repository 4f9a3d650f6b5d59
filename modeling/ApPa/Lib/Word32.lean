import Mathlib.Data.Nat.Bitwise
import Mathlib.Tactic.Common

/-! # Unsigned 32-bit arithmetic on natural numbers

Addresses and sizes are natural numbers; sums and differences wrap at `2 ^ 32`. Masks
that cut a word at bit 12 are quotients and remainders by 4096.
-/
namespace ApPa.Word32

def add32 (a b : ℕ) : ℕ := (a + b) % 2 ^ 32
def sub32 (a b : ℕ) : ℕ := (a + 2 ^ 32 - b) % 2 ^ 32

theorem add32_of_lt {a b : ℕ} (h : a + b < 2 ^ 32) : add32 a b = a + b := Nat.mod_eq_of_lt h

theorem sub32_of_le {a b : ℕ} (hb : b ≤ a) (ha : a < 2 ^ 32) : sub32 a b = a - b := by
  unfold sub32
  omega

theorem land_4095 (x : ℕ) : x &&& 0xFFF = x % 4096 := Nat.and_two_pow_sub_one_eq_mod x 12

theorem land_frame {x : ℕ} (hx : x < 2 ^ 32) : x &&& 0xFFFFF000 = x / 4096 * 4096 := by
  have hmask : 0xFFFFF000 = (2 ^ 20 - 1) * 2 ^ 12 := by decide
  rw [hmask, show (4096 : ℕ) = 2 ^ 12 from rfl]
  apply Nat.eq_of_testBit_eq
  intro i
  rw [Nat.testBit_and, Nat.testBit_mul_two_pow, Nat.testBit_mul_two_pow, Nat.testBit_two_pow_sub_one,
    Nat.testBit_div_two_pow]
  by_cases hi : 12 ≤ i
  · rw [Nat.sub_add_cancel hi]
    by_cases hlt : i < 32
    · simp [hi, show i - 12 < 20 by omega]
    · have hz : x.testBit i = false :=
        Nat.testBit_lt_two_pow (Nat.lt_of_lt_of_le hx (Nat.pow_le_pow_right (by decide) (by omega)))
      simp [hz]
  · simp [hi]

theorem lor_low {p f : ℕ} (hp : 4096 ∣ p) (hf : f < 4096) : p ||| f = p + f := by
  obtain ⟨k,rfl⟩ := hp
  exact (Nat.two_pow_add_eq_or_of_lt (i := 12) hf k).symm

end ApPa.Word32

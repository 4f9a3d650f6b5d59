import Mathlib.Data.List.Basic
import Mathlib.Logic.Function.Basic

/-! # The newest entries of a log

A ring of `n` cells into which entries are written one after the other. It holds the last `n` of them;
read from the oldest one on, they come in the order in which they were written.
-/
namespace ApPa.RingLog

variable {α : Type*} {n : ℕ} {buf : ℕ → α} {l : List α}

/-- Entry `j` of the log is in cell `j % n` if it is one of the last `n`. -/
def Keeps (n : ℕ) (buf : ℕ → α) (l : List α) : Prop :=
  ∀ j (h : j < l.length), l.length ≤ j + n → buf (j % n) = l[j]

theorem keeps_nil (n : ℕ) (buf : ℕ → α) : Keeps n buf [] := fun j h => absurd h (Nat.not_lt_zero j)

/-- Entries less than `n` apart are in different cells. -/
theorem mod_ne_of_near {j k : ℕ} (hlt : j < k) (hnear : k < j + n) : j % n ≠ k % n := fun h => by
  have hdvd : n ∣ k - j := Nat.dvd_of_mod_eq_zero (Nat.sub_mod_eq_zero_of_mod_eq h.symm)
  have hle := Nat.le_of_dvd (Nat.sub_pos_of_lt hlt) hdvd
  omega

theorem Keeps.push (h : Keeps n buf l) (a : α) : Keeps n (Function.update buf (l.length % n) a) (l ++ [a]) := by
  intro j hj hnear
  rw [List.length_append, List.length_singleton] at hj hnear
  rcases Nat.lt_succ_iff_lt_or_eq.mp hj with hlt | rfl
  · rw [Function.update_of_ne (mod_ne_of_near hlt (by omega)), List.getElem_append_left hlt]
    exact h j hlt (by omega)
  · rw [Function.update_self, List.getElem_append_right (Nat.le_refl _)]
    simp

/-- Where the oldest entry is when `len` have been written. -/
def oldest (n len : ℕ) : ℕ := if len ≤ n then 0 else len % n

theorem Keeps.read (h : Keeps n buf l) {i : ℕ} (hi : i < min l.length n) :
    buf ((oldest n l.length + i) % n) = l[l.length - min l.length n + i] := by
  have hindex : (oldest n l.length + i) % n = (l.length - min l.length n + i) % n := by
    unfold oldest
    split
    · rename_i hle
      rw [Nat.min_eq_left hle, Nat.sub_self]
    · rename_i hle
      rw [Nat.min_eq_right (by omega), Nat.mod_add_mod,
        show l.length + i = l.length - n + i + n by omega, Nat.add_mod_right]
  rw [hindex]
  exact h _ _ (by omega)

end ApPa.RingLog

import Mathlib.Data.List.Induction
import Mathlib.Data.Nat.Digits.Lemmas

/-! # Writing numerals

A number is written by taking off its last digit until nothing is left, which gives the
digits in the wrong order, and then turning the string around in place. The first loop
computes the digits of the number, the second one reverses a list.
-/
namespace ApPa.Numeral

/-- Digits of a number, the last one first. -/
def digitsLoop (base : ℕ) : ℕ → ℕ → List ℕ
  | 0, _ => []
  | fuel + 1, value => if value ≠ 0 then value % base :: digitsLoop base fuel (value / base) else []

theorem digitsLoop_eq {base : ℕ} (hbase : 1 < base) {fuel value : ℕ} (h : value < base ^ fuel) :
    digitsLoop base fuel value = Nat.digits base value := by
  induction fuel generalizing value with
  | zero =>
    obtain rfl : value = 0 := by simpa using h
    rw [Nat.digits_zero]
    rfl
  | succ fuel ih =>
    rw [digitsLoop]
    by_cases hv : value = 0
    · rw [hv, Nat.digits_zero]
      rfl
    · rw [if_pos hv, Nat.digits_eq_cons_digits_div hbase hv, ih]
      rw [Nat.pow_succ] at h
      exact Nat.div_lt_of_lt_mul (by rwa [Nat.mul_comm])

variable {α : Type*} (d : α)

def swap (l : List α) (i j : ℕ) : List α := (l.set i (l.getD j d)).set j (l.getD i d)

/-- Turn the elements from `first` to `last` around. -/
def reverseLoop : ℕ → ℕ → ℕ → List α → List α
  | 0, _, _, l => l
  | fuel + 1, first, last, l => if first < last then reverseLoop fuel (first + 1) (last - 1) (swap d l first last) else l

theorem swap_ends (l r m : List α) (x y : α) :
    swap d (l ++ x :: (m ++ y :: r)) l.length (l.length + (m.length + 1)) = l ++ y :: (m ++ x :: r) := by
  have hx : (l ++ x :: (m ++ y :: r)).getD l.length d = x := by simp
  have hy : (l ++ x :: (m ++ y :: r)).getD (l.length + (m.length + 1)) d = y := by simp
  rw [swap, hx, hy]
  simp

theorem reverseLoop_eq (mid : List α) : ∀ (l r : List α) (fuel : ℕ), mid.length ≤ fuel →
    reverseLoop d fuel l.length (l.length + mid.length - 1) (l ++ (mid ++ r)) = l ++ (mid.reverse ++ r) := by
  induction mid using List.bidirectionalRec with
  | nil =>
    intro l r fuel _
    cases fuel with
    | zero => rfl
    | succ fuel => exact if_neg (by simp)
  | singleton x =>
    intro l r fuel _
    cases fuel with
    | zero => rfl
    | succ fuel => exact if_neg (by simp)
  | cons_append x m y ih =>
    intro l r fuel hfuel
    obtain ⟨fuel,rfl⟩ : ∃ n, fuel = n + 1 := ⟨fuel - 1,by simp at hfuel; omega⟩
    have hlast : l.length + (x :: (m ++ [y])).length - 1 = l.length + (m.length + 1) := by simp
    have hswap : swap d (l ++ (x :: (m ++ [y]) ++ r)) l.length (l.length + (m.length + 1)) = (l ++ [y]) ++ (m ++ x :: r) := by
      have hends := swap_ends d l r m x y
      simpa using hends
    rw [hlast, reverseLoop, if_pos (by omega), hswap]
    have hnext := ih (l ++ [y]) (x :: r) fuel (by simp at hfuel; omega)
    rw [List.length_append, List.length_singleton] at hnext
    rw [show l.length + (m.length + 1) - 1 = l.length + 1 + m.length - 1 by omega, hnext]
    simp

theorem reverse_eq (l : List α) : reverseLoop d l.length 0 (l.length - 1) l = l.reverse := by
  have h := reverseLoop_eq d l [] [] l.length (Nat.le_refl _)
  simpa using h

/-- The loop that counts to the middle makes the same exchanges. -/
theorem foldl_swap_from (n : ℕ) : ∀ (k first fuel : ℕ) (l : List α), first + k = n / 2 → k ≤ fuel →
    (List.range' first k).foldl (fun l j => swap d l j (n - 1 - j)) l = reverseLoop d fuel first (n - 1 - first) l := by
  intro k
  induction k with
  | zero =>
    intro first fuel l hk _
    cases fuel with
    | zero => rfl
    | succ fuel => exact (if_neg (by omega)).symm
  | succ k ih =>
    intro first fuel l hk hfuel
    obtain ⟨fuel,rfl⟩ : ∃ m, fuel = m + 1 := ⟨fuel - 1,by omega⟩
    have hnext := ih (first + 1) fuel (swap d l first (n - 1 - first)) (by omega) (by omega)
    rw [List.range'_succ, List.foldl_cons, hnext, reverseLoop, if_pos (by omega), Nat.sub_sub (n - 1) first 1]

theorem foldl_swap_eq (l : List α) :
    (List.range (l.length / 2)).foldl (fun l' j => swap d l' j (l.length - 1 - j)) l = l.reverse := by
  rw [List.range_eq_range', foldl_swap_from d l.length (l.length / 2) 0 l.length l (Nat.zero_add _) (Nat.div_le_self _ _)]
  exact reverse_eq d l

/-- The number that digits stand for, the first one first. -/
def positional (base : ℕ) (digits : List ℕ) : ℕ := digits.foldl (fun v d => v * base + d) 0

theorem positional_reverse_digits (base n : ℕ) : positional base (Nat.digits base n).reverse = n := by
  have hvalue := Nat.ofDigits_digits base n
  rw [Nat.ofDigits_eq_foldr] at hvalue
  rw [positional, List.foldl_reverse]
  simpa only [Nat.cast_id, Nat.add_comm, Nat.mul_comm] using hvalue

end ApPa.Numeral

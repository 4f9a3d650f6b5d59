import Mathlib.Tactic.Linarith
import Mathlib.Data.List.Basic

/-! # NUL-terminated strings of the kernel C library

A character pointer is the list of bytes it points at. Every routine stops at the
first NUL, and the end of the list reads as one.
-/
namespace ApPa.Klibc

def ascii (s : String) : List UInt8 := s.toList.map Char.toUInt8

def cstr (s : List UInt8) : List UInt8 := s.takeWhile (fun c => c ≠ 0)

/-- The text that has gone to the screen, when `kprint` has added a message. -/
def kprintText (screen message : List UInt8) : List UInt8 := screen ++ cstr message

def strlen : List UInt8 → ℕ
  | [] => 0
  | c :: s => if c ≠ 0 then strlen s + 1 else 0

def strcmp : List UInt8 → List UInt8 → ℤ
  | [], [] => 0
  | [], d :: _ => -(d.toNat : ℤ)
  | c :: _, [] => c.toNat
  | c :: s1, d :: s2 => if c ≠ 0 ∧ c = d then strcmp s1 s2 else c.toNat - d.toNat

def strncmp : List UInt8 → List UInt8 → ℕ → ℤ
  | _, _, 0 => 0
  | [], [], _ + 1 => 0
  | [], d :: _, _ + 1 => -(d.toNat : ℤ)
  | c :: _, [], _ + 1 => c.toNat
  | c :: s1, d :: s2, n + 1 => if c ≠ 0 ∧ c = d then strncmp s1 s2 n else c.toNat - d.toNat

/-- The bytes `strncpy` stores: the source up to its NUL, then NULs. -/
def strncpyBytes : List UInt8 → ℕ → List UInt8
  | _, 0 => []
  | [], n + 1 => 0 :: strncpyBytes [] n
  | c :: s, n + 1 => if c ≠ 0 then c :: strncpyBytes s n else 0 :: strncpyBytes [] n

def strncpy (dest src : List UInt8) (n : ℕ) : List UInt8 := strncpyBytes src n ++ dest.drop n

@[simp] theorem cstr_nil : cstr [] = [] := rfl
theorem cstr_cons (c : UInt8) (s : List UInt8) :
    cstr (c :: s) = if c ≠ 0 then c :: cstr s else [] := by
  simp [cstr, List.takeWhile_cons]

theorem cstr_append_zero {s : List UInt8} (h : 0 ∉ s) (rest : List UInt8) : cstr (s ++ 0 :: rest) = s := by
  induction s with
  | nil => simp [cstr_cons]
  | cons c s ih =>
    rw [List.mem_cons, not_or] at h
    rw [List.cons_append, cstr_cons, if_pos (Ne.symm h.1), ih h.2]

theorem cstr_of_notMem {s : List UInt8} (h : 0 ∉ s) : cstr s = s := by
  induction s with
  | nil => rfl
  | cons c s ih =>
    rw [List.mem_cons, not_or] at h
    rw [cstr_cons, if_pos (Ne.symm h.1), ih h.2]

theorem zero_notMem_cstr (s : List UInt8) : 0 ∉ cstr s := by
  induction s with
  | nil => exact List.not_mem_nil
  | cons c s ih =>
    rw [cstr_cons]
    split
    · rename_i hc
      exact fun h => (List.mem_cons.mp h).elim (fun h => hc h.symm) ih
    · exact List.not_mem_nil

theorem cstr_prefix_self (s : List UInt8) : cstr s <+: s := List.takeWhile_prefix _

@[simp] theorem strlen_eq (s : List UInt8) : strlen s = (cstr s).length := by
  induction s with
  | nil => rfl
  | cons c s ih =>
    rw [strlen, cstr_cons, ih]
    split <;> simp

theorem toNat_sub_eq_zero {c d : UInt8} : (c.toNat : ℤ) - d.toNat = 0 ↔ c = d := by
  rw [sub_eq_zero, Nat.cast_inj, UInt8.toNat_inj]

theorem toNat_cast_eq_zero {c : UInt8} : (c.toNat : ℤ) = 0 ↔ c = 0 := by
  rw [Nat.cast_eq_zero, ← UInt8.toNat_inj]
  rfl

theorem strncmp_eq_zero_iff (s1 s2 : List UInt8) (n : ℕ) :
    strncmp s1 s2 n = 0 ↔ (cstr s1).take n = (cstr s2).take n := by
  induction n generalizing s1 s2 with
  | zero => simp [strncmp]
  | succ n ih =>
    cases s1 with
    | nil =>
      cases s2 with
      | nil => simp [strncmp]
      | cons d s2 =>
        rw [strncmp, neg_eq_zero, toNat_cast_eq_zero, cstr_cons]
        by_cases hd : d = 0 <;> simp [hd]
    | cons c s1 =>
      cases s2 with
      | nil =>
        rw [strncmp, toNat_cast_eq_zero, cstr_cons]
        by_cases hc : c = 0 <;> simp [hc]
      | cons d s2 =>
        rw [strncmp, cstr_cons, cstr_cons]
        by_cases hc : c = 0
        · subst hc
          simp only [ne_eq, not_true_eq_false, false_and, if_false]
          rw [toNat_sub_eq_zero, eq_comm]
          by_cases hd : d = 0 <;> simp [hd]
        · by_cases he : c = d
          · subst he
            simp [hc, ih]
          · rw [if_neg (fun h => he h.2), toNat_sub_eq_zero]
            by_cases hd : d = 0 <;> simp [hc, hd, he]

theorem strcmp_eq_strncmp {s1 : List UInt8} {n : ℕ} (h : s1.length < n) (s2 : List UInt8) : strcmp s1 s2 = strncmp s1 s2 n := by
  obtain ⟨n,rfl⟩ := Nat.exists_eq_succ_of_ne_zero (Nat.ne_of_gt (Nat.zero_lt_of_lt h))
  induction s1 generalizing n s2 with
  | nil => cases s2 <;> rfl
  | cons c s1 ih =>
    cases s2 with
    | nil => rfl
    | cons d s2 =>
      obtain ⟨n,rfl⟩ := Nat.exists_eq_succ_of_ne_zero (Nat.ne_of_gt (Nat.zero_lt_of_lt (Nat.lt_of_succ_lt_succ h)))
      rw [strcmp, strncmp, ih s2 n (Nat.lt_of_succ_lt_succ h)]

theorem strcmp_eq_zero_iff (s1 s2 : List UInt8) : strcmp s1 s2 = 0 ↔ cstr s1 = cstr s2 := by
  have h1 : s1.length < s1.length + s2.length + 1 := by omega
  have h2 : s2.length ≤ s1.length + s2.length + 1 := by omega
  rw [strcmp_eq_strncmp h1, strncmp_eq_zero_iff, List.take_of_length_le ((cstr_prefix_self s1).length_le.trans h1.le),
    List.take_of_length_le ((cstr_prefix_self s2).length_le.trans h2)]

@[simp] theorem strncpyBytes_length (s : List UInt8) (n : ℕ) : (strncpyBytes s n).length = n := by
  induction n generalizing s with
  | zero => simp [strncpyBytes]
  | succ n ih =>
    cases s with
    | nil => simp [strncpyBytes, ih]
    | cons c s =>
      rw [strncpyBytes]
      split <;> simp [ih]

theorem getD_eq_cstr_getD (s : List UInt8) {n : ℕ} (hn : n ≤ (cstr s).length) :
    s.getD n 0 = (cstr s).getD n 0 := by
  induction s generalizing n with
  | nil => rfl
  | cons c s ih =>
    rw [cstr_cons] at hn ⊢
    by_cases hc : c = 0
    · subst hc
      obtain rfl : n = 0 := by simpa using hn
      rfl
    · rw [if_pos hc] at hn ⊢
      cases n with
      | zero => rfl
      | succ n => exact ih (by simpa using hn)

theorem cstr_append_nul (s : List UInt8) : cstr (s ++ [0]) = cstr s := by
  induction s with
  | nil => rfl
  | cons c s ih => rw [List.cons_append, cstr_cons, cstr_cons, ih]

/-- A copied string reads back as the front of the source that there was room for. -/
theorem cstr_strncpyBytes_zero (s : List UInt8) (n : ℕ) (rest : List UInt8) :
    cstr (strncpyBytes s n ++ 0 :: rest) = (cstr s).take n := by
  induction n generalizing s with
  | zero => simp [strncpyBytes, cstr_cons]
  | succ n ih =>
    cases s with
    | nil => simp [strncpyBytes, cstr_cons]
    | cons c s =>
      rw [strncpyBytes]
      by_cases hc : c = 0
      · simp [hc, cstr_cons]
      · rw [if_pos hc, List.cons_append, cstr_cons, if_pos hc, cstr_cons, if_pos hc, List.take_succ_cons, ih]

theorem cstr_strncpyBytes (s : List UInt8) (n : ℕ) (rest : List UInt8) (hs : (cstr s).length ≤ n)
    (hr : rest.head? = some 0) : cstr (strncpyBytes s n ++ rest) = cstr s := by
  obtain ⟨rest,rfl⟩ := List.head?_eq_some_iff.mp hr
  rw [cstr_strncpyBytes_zero, List.take_of_length_le hs]

end ApPa.Klibc

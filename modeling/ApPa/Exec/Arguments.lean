import ApPa.Exec.Elf
import Mathlib.Tactic.Common

/-! # Arguments on the user stack

`setup_user_stack_args` checks a 32-bit sum against the size of the stack page. Whenever
it returns, that sum has not wrapped and everything it wrote lies in the page.
-/
namespace ApPa.Exec
open ByteMem Memory Tasks Word32

variable {argv : ℕ → Arg}

/-- Bytes of the first `n` arguments with their NULs. -/
def argBytes (argv : ℕ → Arg) : ℕ → ℕ
  | 0 => 0
  | n + 1 => argBytes argv n + ((argv n).1.length + 1)

theorem totalStr_eq (argv : ℕ → Arg) (n : ℕ) : totalStr argv n = argBytes argv n % 2 ^ 32 := by
  induction n with
  | zero => rfl
  | succ n ih =>
    rw [totalStr, ih, argBytes, add32]
    omega

theorem le_argBytes (argv : ℕ → Arg) (n : ℕ) : n ≤ argBytes argv n := by
  induction n with
  | zero => exact Nat.le_refl _
  | succ n ih =>
    rw [argBytes]
    omega

theorem argBytes_eq_sum {l : List (List UInt8)} (h : ∀ i < l.length, (argv i).1 = l.getD i []) {n : ℕ}
    (hn : n ≤ l.length) : argBytes argv n = ((l.take n).map List.length).sum + n := by
  induction n with
  | zero => rfl
  | succ n ih =>
    rw [argBytes, ih (Nat.le_of_succ_le hn), h n hn, List.getD_eq_getElem _ _ hn, List.take_succ_eq_append_getElem hn,
      List.map_append, List.sum_append]
    simp only [List.map_cons, List.map_nil, List.sum_cons, List.sum_nil]
    omega

/-- The check of `setup_user_stack_args` lets the arguments pass. -/
def Passes (argv : ℕ → Arg) (n : ℕ) : Prop :=
  add32 (totalStr argv n) ((n + 1 + 1 + 1) * 4 % 2 ^ 32) ≤ argvMaxTotal

instance (argv : ℕ → Arg) (n : ℕ) : Decidable (Passes argv n) := Nat.decLe _ _

/-- The bytes on the stack, without wrapping around: strings, pointers, sentinel and header. -/
def frameBytes (argv : ℕ → Arg) (n : ℕ) : ℕ := argBytes argv n + (n + 3) * 4

theorem Passes.of_fits {n : ℕ} (h : frameBytes argv n ≤ argvMaxTotal) : Passes argv n := by
  unfold frameBytes at h
  have hle : argvMaxTotal = 3840 := rfl
  rw [Passes, totalStr_eq, add32]
  omega

theorem frameBytes_le {l : List (List UInt8)} (h : ∀ i < l.length, (argv i).1 = l.getD i []) (hlen : l.length ≤ 16)
    (hsum : (l.map List.length).sum ≤ 255) : frameBytes argv l.length ≤ argvMaxTotal := by
  have hbytes := argBytes_eq_sum h (Nat.le_refl _)
  rw [List.take_length] at hbytes
  have hmax : argvMaxTotal = 3840 := rfl
  rw [frameBytes, hbytes]
  omega

theorem copyStrings_spec {n : ℕ} {m m' : Mem} {cursor c : ℕ} {addrs : List ℕ}
    (h : copyStrings argv m cursor n = some (m', c, addrs)) :
    c + argBytes argv n = cursor ∧ addrs.length = n ∧ ∀ x, x < c ∨ cursor ≤ x → m' x = m x := by
  induction n generalizing m cursor addrs with
  | zero =>
    simp only [copyStrings, Option.some.injEq, Prod.mk.injEq] at h
    obtain ⟨rfl,rfl,rfl⟩ := h
    exact ⟨rfl,rfl,fun _ _ => rfl⟩
  | succ n ih =>
    rw [copyStrings] at h
    split at h
    · cases h
    · rename_i hge
      split at h
      · cases h
      · rename_i m₁ c₁ addrs₁ hrec
        simp only [Option.some.injEq, Prod.mk.injEq] at h
        obtain ⟨rfl,rfl,rfl⟩ := h
        obtain ⟨hsum,hlen,hmem⟩ := ih hrec
        refine ⟨?_,by simp [hlen],fun x hx => ?_⟩
        · rw [argBytes]
          omega
        · rw [hmem x (by omega)]
          rcases hx with hx | hx
          · exact store_apply_of_lt _ (by omega)
          · refine store_apply_of_ge ?_
            simp only [List.length_append, List.length_cons, List.length_nil]
            omega

/-- The strings were copied downwards from the end of a page, so their size is bounded by its
address and the sum of the check has not wrapped. -/
theorem Passes.fits {n a c : ℕ} {m m' : Mem} {addrs : List ℕ} (hpass : Passes argv n) (ha : a < totalFrames)
    (hcopy : copyStrings argv m (a * pageSize + pageSize) n = some (m', c, addrs)) :
    frameBytes argv n ≤ argvMaxTotal := by
  have hsum : c + argBytes argv n = a * 4096 + 4096 := (copyStrings_spec hcopy).1
  have hn := le_argBytes argv n
  have hmax : argvMaxTotal = 3840 := rfl
  have ha' : a < 4096 := ha
  clear hcopy
  rw [Passes, totalStr_eq, add32] at hpass
  unfold frameBytes
  omega

theorem setupUserStackArgs_apply {m m' : Mem} {a esp x : ℕ} {argv : Option (ℕ → Arg)} {argc : ℤ}
    (h : setupUserStackArgs m (a * pageSize) argv argc = some (esp, m')) (ha : a < totalFrames)
    (hx : x / pageSize ≠ a) : m' x = m x := by
  unfold setupUserStackArgs at h
  cases argv with
  | none =>
    simp only [Option.some.injEq, Prod.mk.injEq] at h
    rw [h.2]
  | some argv =>
    dsimp only at h
    split at h
    · simp only [Option.some.injEq, Prod.mk.injEq] at h
      rw [h.2]
    split at h
    · simp only [Option.some.injEq, Prod.mk.injEq] at h
      rw [h.2]
    rename_i hcheck
    split at h
    · cases h
    split at h
    · cases h
    rename_i m₁ c addrs hcopy
    split at h
    · cases h
    rename_i hroom
    obtain ⟨hsum,hlen,hmem⟩ := copyStrings_spec hcopy
    simp only [Option.some.injEq, Prod.mk.injEq] at h
    rw [← h.2]
    have hfit : argBytes argv argc.toNat + (argc.toNat + 3) * 4 ≤ 3840 :=
      Passes.fits (Nat.not_lt.mp hcheck) ha hcopy
    have hpush : (0 :: (addrs.map (stackVirt (a * pageSize + pageSize))).reverse).length = argc.toNat + 1 := by
      simp [hlen]
    simp only [pageSize] at *
    rw [push_apply, push_apply, hmem x]
    · omega
    · rw [hpush]
      omega
    · rw [hpush]
      omega
    · rw [push_snd, hpush]
      simp only [List.length_cons, List.length_nil]
      omega
    · rw [push_snd, hpush]
      simp only [List.length_cons, List.length_nil]
      omega

end ApPa.Exec

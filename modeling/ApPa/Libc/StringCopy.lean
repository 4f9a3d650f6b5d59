import ApPa.Klibc.CString
import ApPa.Lib.ByteMem
import Mathlib.Logic.Function.Basic

/-! # The two versions of strncpy

Both are loops over the bytes from `dst` and from `src` on. The kernel's first loop stops in front of the NUL
of the source, and the second one fills what is left of the `n` bytes. The first loop of the user's library
stores the NUL before it stops, and `n` still counts that byte when the second loop begins.
-/
namespace ApPa.Klibc
open ByteMem

/-- `for (i = 0; i < n && src[i] != '\0'; i++) dest[i] = src[i];` with `left` bytes from `i` up to `n`. -/
def copyFor (src : Mem) : ℕ → ℕ → Mem → ℕ × Mem
  | 0, i, dest => (i, dest)
  | left + 1, i, dest => if src i ≠ 0 then copyFor src left (i + 1) (Function.update dest i (src i)) else (i, dest)

/-- `for (; i < n; i++) dest[i] = '\0';` with `left` bytes from `i` up to `n`, and `while (n--) *d++ = '\0';`. -/
def padLoop : ℕ → ℕ → Mem → Mem
  | 0, _, dest => dest
  | left + 1, i, dest => padLoop left (i + 1) (Function.update dest i 0)

/-- `strncpy` of the kernel on memory. -/
def strncpyMem (dest src : Mem) (n : ℕ) : Mem :=
  let (i, dest) := copyFor src n 0 dest
  padLoop (n - i) i dest

/-- The source up to its NUL, and NULs from there on. -/
def copied (src : Mem) (i : ℕ) : UInt8 := if ∀ j ≤ i, src j ≠ 0 then src i else 0

/-- A scan of `n` bytes ends at `k`. -/
structure Stop (src : Mem) (n k : ℕ) : Prop where
  le : k ≤ n
  front : ∀ j < k, src j ≠ 0
  nul : k < n → src k = 0

theorem Stop.eq_iff {src : Mem} {n k : ℕ} (h : Stop src n k) : k = n ↔ ∀ i < n, src i ≠ 0 := by
  constructor
  · rintro rfl
    exact h.front
  · intro hall
    by_contra hne
    have hlt : k < n := Nat.lt_of_le_of_ne h.le hne
    exact hall k hlt (h.nul hlt)

theorem Stop.copied_eq {src : Mem} {n k : ℕ} (h : Stop src n k) {x : ℕ} (hx : x < n) :
    copied src x = if x < k then src x else 0 := by
  unfold copied
  by_cases hk : x < k
  · rw [if_pos hk, if_pos fun j hj => h.front j (by omega)]
  · rw [if_neg hk, if_neg fun hall => hall k (Nat.le_of_not_lt hk) (h.nul (by omega))]

section
variable (src : Mem)

theorem copyFor_eq (left : ℕ) {i : ℕ} (h : ∀ j < i, src j ≠ 0) (dest : Mem) : ∃ k, i ≤ k ∧ Stop src (i + left) k ∧
    copyFor src left i dest = (k, fun x => if i ≤ x ∧ x < k then src x else dest x) := by
  have hnone : ∀ (i : ℕ) (dest : Mem), (fun x => if i ≤ x ∧ x < i then src x else dest x) = dest := by
    intro i dest
    funext x
    exact if_neg (by omega)
  induction left generalizing i dest with
  | zero => exact ⟨i,le_rfl,⟨le_rfl,h,fun hlt => absurd hlt (lt_irrefl i)⟩,by rw [hnone, copyFor]⟩
  | succ left ih =>
    rw [copyFor]
    by_cases hi : src i = 0
    · exact ⟨i,le_rfl,⟨Nat.le_add_right _ _,h,fun _ => hi⟩,by rw [if_neg (not_not.mpr hi), hnone]⟩
    · have hfront : ∀ j < i + 1, src j ≠ 0 := fun j hj => by
        rcases Nat.lt_succ_iff_lt_or_eq.mp hj with hlt | rfl
        · exact h j hlt
        · exact hi
      obtain ⟨k,hk,hstop,heq⟩ := ih hfront (Function.update dest i (src i))
      rw [Nat.succ_add_eq_add_succ] at hstop
      refine ⟨k,Nat.le_of_succ_le hk,hstop,?_⟩
      rw [if_pos hi, heq]
      congr 1
      funext x
      by_cases hx : x = i
      · subst hx
        rw [if_neg (by omega), if_pos ⟨le_rfl,by omega⟩, Function.update_self]
      · have hiff : i + 1 ≤ x ∧ x < k ↔ i ≤ x ∧ x < k := by omega
        simp only [hiff, Function.update_of_ne hx]

theorem padLoop_succ (left i : ℕ) (dest : Mem) :
    padLoop (left + 1) i dest = Function.update (padLoop left i dest) (i + left) 0 := by
  induction left generalizing i dest with
  | zero => rfl
  | succ left ih => rw [padLoop, ih, Nat.succ_add_eq_add_succ, ← padLoop]

theorem padLoop_eq (left i : ℕ) (dest : Mem) : padLoop left i dest = fill dest i left 0 := by
  funext x
  induction left with
  | zero => exact (fill_apply (by omega)).symm
  | succ left ih =>
    rw [padLoop_succ]
    by_cases hx : x = i + left
    · rw [hx, Function.update_self, fill, if_pos ⟨by omega,by omega⟩]
    · have hiff : i ≤ x ∧ x < i + left ↔ i ≤ x ∧ x < i + (left + 1) := by omega
      rw [Function.update_of_ne hx, ih]
      simp only [fill, hiff]

/-- Exactly `n` bytes are written, and they are the source up to its NUL and NULs. -/
theorem strncpyMem_apply (dest : Mem) (n x : ℕ) :
    strncpyMem dest src n x = if x < n then copied src x else dest x := by
  obtain ⟨k,-,hstop,heq⟩ := copyFor_eq src n (fun j hj => absurd hj (Nat.not_lt_zero j)) dest
  rw [Nat.zero_add] at hstop
  have hk := hstop.le
  rw [strncpyMem, heq]
  dsimp only
  rw [padLoop_eq, fill]
  by_cases hx : x < n
  · rw [if_pos hx, hstop.copied_eq hx]
    by_cases hxk : x < k
    · rw [if_neg (by omega), if_pos hxk, if_pos ⟨Nat.zero_le x,hxk⟩]
    · rw [if_pos ⟨by omega,by omega⟩, if_neg hxk]
  · rw [if_neg hx, if_neg (by omega), if_neg (by omega)]

end

theorem copied_of_nul {src : Mem} (h : src 0 = 0) (i : ℕ) : copied src i = 0 :=
  if_neg fun hall => hall 0 (Nat.zero_le i) h

theorem copied_zero (src : Mem) : copied src 0 = src 0 := by
  by_cases h : src 0 = 0
  · rw [copied_of_nul h, h]
  · refine if_pos fun j hj => ?_
    rwa [Nat.le_zero.mp hj]

theorem copied_succ (src : Mem) (i : ℕ) :
    copied src (i + 1) = if src 0 ≠ 0 then copied (fun j => src (j + 1)) i else 0 := by
  have hiff : (∀ j ≤ i + 1, src j ≠ 0) ↔ src 0 ≠ 0 ∧ ∀ j ≤ i, src (j + 1) ≠ 0 := by
    constructor
    · exact fun hall => ⟨hall 0 (Nat.zero_le _),fun j hj => hall (j + 1) (Nat.succ_le_succ hj)⟩
    · rintro ⟨hzero,hall⟩ (_ | j) hj
      · exact hzero
      · exact hall j (Nat.le_of_succ_le_succ hj)
  simp only [copied, hiff, ite_and]

theorem strncpyBytes_eq (src : List UInt8) (n : ℕ) :
    strncpyBytes src n = (List.range n).map (copied fun i => src.getD i 0) := by
  induction n generalizing src with
  | zero => rfl
  | succ n ih =>
    have hnil : strncpyBytes [] n = (List.range n).map fun _ => 0 := by
      rw [ih]
      exact List.map_congr_left fun i _ => copied_of_nul rfl i
    rw [List.range_succ_eq_map, List.map_cons, List.map_map, copied_zero]
    cases src with
    | nil =>
      rw [strncpyBytes, hnil]
      exact congrArg _ (List.map_congr_left fun i _ => (copied_of_nul rfl (i + 1)).symm)
    | cons c src =>
      rw [strncpyBytes]
      by_cases hc : c = 0
      · rw [if_neg (not_not.mpr hc), hnil, hc]
        exact congrArg _ (List.map_congr_left fun i _ => (copied_of_nul rfl (i + 1)).symm)
      · rw [if_pos hc, ih]
        exact congrArg _ (List.map_congr_left fun i _ => ((copied_succ _ i).trans (if_pos hc)).symm)

/-- On lists of bytes the loops do what `strncpy` does there. -/
theorem load_strncpyMem (dest src : List UInt8) {n : ℕ} (hn : n ≤ dest.length) :
    load (strncpyMem (fun i => dest.getD i 0) (fun i => src.getD i 0) n) 0 dest.length = strncpy dest src n := by
  rw [strncpy, strncpyBytes_eq]
  apply List.ext_getElem
  · simp only [load_length, List.length_append, List.length_map, List.length_range, List.length_drop]
    omega
  · intro i hi _
    rw [load_length] at hi
    simp only [load, List.getElem_map, List.getElem_range, Nat.zero_add, strncpyMem_apply]
    by_cases hin : i < n
    · rw [if_pos hin, List.getElem_append_left (by simpa using hin), List.getElem_map, List.getElem_range]
    · rw [if_neg hin, List.getElem_append_right (by simpa using hin), List.getElem_drop]
      simp only [List.length_map, List.length_range, Nat.add_sub_cancel' (Nat.le_of_not_lt hin)]
      rw [List.getD_eq_getElem?_getD, List.getElem?_eq_getElem hi, Option.getD_some]

end ApPa.Klibc

namespace ApPa.Libc
open ByteMem Klibc

/-- `while (n && (*d++ = *src++)) n--;`: what is left of `n`, and how far `d` has come. -/
def copyWhile (src : Mem) : ℕ → ℕ → Mem → ℕ × ℕ × Mem
  | 0, d, dst => (0, d, dst)
  | n + 1, d, dst =>
    let dst := Function.update dst d (src d)
    if src d ≠ 0 then copyWhile src n (d + 1) dst else (n + 1, d + 1, dst)

/-- `strncpy` of the user's library. -/
def strncpy (dst src : Mem) (n : ℕ) : Mem :=
  let (n, d, dst) := copyWhile src n 0 dst
  padLoop n d dst

/-- At a NUL the loop has stored one byte more than that of the kernel, and counted the same. -/
theorem copyWhile_eq (src : Mem) (n d : ℕ) (dst : Mem) : copyWhile src n d dst =
    if (copyFor src n d dst).1 = d + n then (0, copyFor src n d dst)
    else (d + n - (copyFor src n d dst).1, (copyFor src n d dst).1 + 1,
      Function.update (copyFor src n d dst).2 (copyFor src n d dst).1 0) := by
  induction n generalizing d dst with
  | zero => exact (if_pos rfl).symm
  | succ n ih =>
    rw [copyWhile, copyFor]
    by_cases hd : src d = 0
    · have hne : d ≠ d + (n + 1) := by omega
      rw [if_neg (not_not.mpr hd), if_neg (not_not.mpr hd), if_neg hne, hd, Nat.add_sub_cancel_left]
    · rw [if_pos hd, if_pos hd, ih, Nat.succ_add_eq_add_succ]

/-- The user's version stores one NUL too many unless the source fills the `n` bytes. -/
theorem strncpy_eq (dst src : Mem) (n : ℕ) : strncpy dst src n =
    if ∀ i < n, src i ≠ 0 then strncpyMem dst src n else Function.update (strncpyMem dst src n) n 0 := by
  obtain ⟨k,-,hstop,heq⟩ := copyFor_eq src n (fun j hj => absurd hj (Nat.not_lt_zero j)) dst
  rw [Nat.zero_add] at hstop
  rw [strncpy, copyWhile_eq, Nat.zero_add, strncpyMem, heq]
  dsimp only
  by_cases hk : k = n
  · rw [if_pos hk, if_pos (hstop.eq_iff.mp hk), hk, Nat.sub_self]
  · have hlast := padLoop_succ (n - k) k fun x => if 0 ≤ x ∧ x < k then src x else dst x
    rw [Nat.add_sub_cancel' hstop.le] at hlast
    rw [if_neg hk, if_neg (mt hstop.eq_iff.mpr hk), ← hlast]
    rfl

/-- The kernel's version keeps to the `n` bytes for all inputs. The user's version leaves the same memory, with
the source up to its NUL and NULs in the `n` bytes and nothing changed behind them, exactly when no NUL is among
the first `n` bytes of the source or the byte behind the `n` bytes is NUL already. -/
theorem strncpy_agrees_iff (dst src : Mem) (n : ℕ) :
    (∀ i, strncpyMem dst src n i = if i < n then copied src i else dst i) ∧
    (strncpy dst src n = strncpyMem dst src n ∧ (∀ i < n, strncpy dst src n i = copied src i) ∧
      (∀ i, n ≤ i → strncpy dst src n i = dst i) ↔ (∀ i < n, src i ≠ 0) ∨ dst n = 0) := by
  have hkernel := strncpyMem_apply src dst n
  have hbehind : strncpyMem dst src n n = dst n := (hkernel n).trans (if_neg (lt_irrefl n))
  refine ⟨hkernel,?_⟩
  constructor
  · rintro ⟨-,-,hkeep⟩
    by_contra hne
    rw [not_or] at hne
    have hlast := hkeep n le_rfl
    rw [strncpy_eq, if_neg hne.1, Function.update_self] at hlast
    exact hne.2 hlast.symm
  · intro h
    have hsame : strncpy dst src n = strncpyMem dst src n := by
      rw [strncpy_eq]
      rcases h with hfull | hzero
      · exact if_pos hfull
      · rw [← hzero, ← hbehind, Function.update_eq_self, ite_self]
    rw [hsame]
    exact ⟨rfl,fun i hi => (hkernel i).trans (if_pos hi),fun i hi => (hkernel i).trans (if_neg (Nat.not_lt.mpr hi))⟩

/-- The string `ab` in a buffer of four bytes. -/
theorem strncpy_overruns :
    load (strncpy (fun _ => 0xFF) (fun i => [97, 98].getD i 0) 4) 0 5 = [97, 98, 0, 0, 0] ∧
    load (strncpyMem (fun _ => 0xFF) (fun i => [97, 98].getD i 0) 4) 0 5 = [97, 98, 0, 0, 0xFF] := by
  decide

end ApPa.Libc

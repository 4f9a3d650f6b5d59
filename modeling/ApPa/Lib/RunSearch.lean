import Mathlib.Tactic.Common

/-! # First-fit search for a run of free positions

The scan visits positions in increasing order and counts how many free ones it
has just seen in a row. It stops as soon as the count reaches the wanted length.
-/
namespace ApPa.RunSearch

/-- `scan free count n b consecutive start` visits `b, …, b + n - 1`. The last
two arguments are the length and the first position of the current run. -/
def scan (free : ℕ → Bool) (count : ℕ) : ℕ → ℕ → ℕ → ℕ → Option ℕ
  | 0, _, _, _ => none
  | n + 1, b, consecutive, start =>
    if free b then
      let start := if consecutive = 0 then b else start
      if consecutive + 1 = count then some start
      else scan free count n (b + 1) (consecutive + 1) start
    else scan free count n (b + 1) 0 start

/-- The run counted so far ends right before the next position to visit. -/
def Counted (free : ℕ → Bool) (b consecutive start : ℕ) : Prop :=
  0 < consecutive → start + consecutive = b ∧ ∀ k < consecutive, free (start + k)

theorem counted_zero (free : ℕ → Bool) (b start : ℕ) : Counted free b 0 start :=
  fun h => absurd h (Nat.lt_irrefl 0)

theorem Counted.extend {free : ℕ → Bool} {b consecutive start : ℕ}
    (h : Counted free b consecutive start) (hb : free b) :
    Counted free (b + 1) (consecutive + 1) (if consecutive = 0 then b else start) := by
  intro _
  by_cases hc : consecutive = 0
  · subst hc
    refine ⟨by simp, ?_⟩
    intro k hk
    obtain rfl : k = 0 := by omega
    simpa using hb
  · obtain ⟨he, hf⟩ := h (by omega)
    rw [if_neg hc]
    refine ⟨by omega, ?_⟩
    intro k hk
    by_cases hk' : k < consecutive
    · exact hf k hk'
    · obtain rfl : k = consecutive := by omega
      rw [he]
      exact hb

/-- `s` is the lowest position from which `count` free positions below `n` follow. -/
structure FirstRun (free : ℕ → Prop) (count n s : ℕ) : Prop where
  fits : s + count ≤ n
  run : ∀ k < count, free (s + k)
  first : ∀ s' < s, ¬∀ k < count, free (s' + k)

/-- The run counted so far has the position before it taken, and no run ends before it. -/
structure Passed (free : ℕ → Bool) (count b consecutive : ℕ) : Prop where
  short : consecutive < count
  le : consecutive ≤ b
  stopped : consecutive < b → free (b - consecutive - 1) = false
  none_before : ∀ s, s + count ≤ b → ¬∀ k < count, free (s + k)

theorem Passed.free {free : ℕ → Bool} {count b consecutive : ℕ} (h : Passed free count b consecutive)
    (hc : consecutive + 1 < count) : Passed free count (b + 1) (consecutive + 1) where
  short := hc
  le := Nat.succ_le_succ h.le
  stopped hlt := by
    rw [Nat.add_sub_add_right]
    exact h.stopped (Nat.lt_of_succ_lt_succ hlt)
  none_before s hs hrun := by
    have hshort := h.short
    have hle := h.le
    by_cases hb : s + count ≤ b
    · exact h.none_before s hb hrun
    · -- a run that ends here starts at or before the taken position
      have hk := hrun (b - consecutive - 1 - s) (by omega)
      rw [Nat.add_sub_cancel' (by omega), h.stopped (by omega)] at hk
      cases hk

theorem Passed.taken {free : ℕ → Bool} {count b consecutive : ℕ} (h : Passed free count b consecutive)
    (hb : free b = false) : Passed free count (b + 1) 0 where
  short := Nat.lt_of_le_of_lt (Nat.zero_le _) h.short
  le := Nat.zero_le _
  stopped _ := hb
  none_before s hs hrun := by
    by_cases hsb : s + count ≤ b
    · exact h.none_before s hsb hrun
    · have hshort := h.short
      have hk := hrun (b - s) (by omega)
      rw [Nat.add_sub_cancel' (by omega), hb] at hk
      cases hk

/-- The scan returns the first run of its range, or there is none. -/
theorem scan_first {free : ℕ → Bool} {count n b consecutive start : ℕ} (hp : Passed free count b consecutive)
    (hi : Counted free b consecutive start) :
    (∃ s, scan free count n b consecutive start = some s ∧ FirstRun (free · = true) count (b + n) s) ∨
      (scan free count n b consecutive start = none ∧ ∀ s, s + count ≤ b + n → ¬∀ k < count, free (s + k)) := by
  induction n generalizing b consecutive start with
  | zero => exact Or.inr ⟨rfl,hp.none_before⟩
  | succ n ih =>
    rw [scan, ← Nat.add_assoc, Nat.add_right_comm]
    cases hb : free b with
    | true =>
      have he := hi.extend hb
      simp only [if_true]
      by_cases hc : consecutive + 1 = count
      · rw [if_pos hc]
        obtain ⟨hs,hf⟩ := he (Nat.succ_pos _)
        subst hc
        refine Or.inl ⟨_,rfl,by omega,hf,fun s' hs' => hp.none_before s' (by omega)⟩
      · rw [if_neg hc]
        exact ih (hp.free (Nat.lt_of_le_of_ne hp.short hc)) he
    | false =>
      simp only [Bool.false_eq_true, if_false]
      exact ih (hp.taken hb) (counted_zero free (b + 1) start)

theorem passed_zero (free : ℕ → Bool) {count : ℕ} (hc : 0 < count) : Passed free count 0 0 where
  short := hc
  le := Nat.le_refl 0
  stopped h := absurd h (Nat.lt_irrefl 0)
  none_before s hs := by omega

theorem FirstRun.unique {free : ℕ → Prop} {count n s t : ℕ} (hs : FirstRun free count n s)
    (ht : FirstRun free count n t) : s = t := by
  rcases Nat.lt_trichotomy s t with h | h | h
  · exact absurd hs.run (ht.first s h)
  · exact h
  · exact absurd ht.run (hs.first t h)

theorem FirstRun.congr {free free' : ℕ → Prop} {count n s : ℕ} (h : ∀ b < n, free b ↔ free' b)
    (hs : FirstRun free count n s) : FirstRun free' count n s where
  fits := hs.fits
  run k hk := (h _ (by have := hs.fits; omega)).mp (hs.run k hk)
  first s' hs' hrun := hs.first s' hs' fun k hk => (h _ (by have := hs.fits; omega)).mpr (hrun k hk)

theorem findSome?_range {α : Type*} {n : ℕ} {g : ℕ → Option α} {b : α} (h : (List.range n).findSome? g = some b) :
    ∃ i < n, g i = some b ∧ ∀ j < i, g j = none := by
  induction n with
  | zero => cases h
  | succ n ih =>
    rw [List.range_succ, List.findSome?_append] at h
    cases hn : (List.range n).findSome? g with
    | some c =>
      rw [hn, Option.some_or] at h
      obtain ⟨i,hi,hg⟩ := ih (hn.trans h)
      exact ⟨i,Nat.lt_succ_of_lt hi,hg⟩
    | none =>
      rw [hn, Option.none_or] at h
      refine ⟨n,Nat.lt_succ_self n,?_,fun j hj => List.findSome?_eq_none_iff.mp hn j (List.mem_range.mpr hj)⟩
      simpa using h

end ApPa.RunSearch

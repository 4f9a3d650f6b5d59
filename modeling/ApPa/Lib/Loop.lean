import Mathlib.Data.Nat.Notation

/-! # Loops that may not end

A loop is a step that either goes on from a new state or leaves with a result. It is run
on fuel, and the loop rule gives both its result and the fact that there is one: an
invariant with a bound that every turn lowers.
-/
namespace ApPa.Loop
variable {S R : Type*}

def loop (step : S → S ⊕ R) : ℕ → S → Option R
  | 0, _ => none
  | fuel + 1, s =>
    match step s with
    | .inl s' => loop step fuel s'
    | .inr r => some r

/-- Total correctness of a loop: fuel above the bound is enough. -/
theorem loop_spec {step : S → S ⊕ R} (Inv : S → Prop) (Post : R → Prop) (bound : S → ℕ)
    (hstep : ∀ s, Inv s → (∃ s', step s = .inl s' ∧ Inv s' ∧ bound s' < bound s) ∨
      (∃ r, step s = .inr r ∧ Post r))
    {fuel : ℕ} {s : S} (hs : Inv s) (hfuel : bound s < fuel) :
    ∃ r, loop step fuel s = some r ∧ Post r := by
  induction fuel generalizing s with
  | zero => exact absurd hfuel (Nat.not_lt_zero _)
  | succ fuel ih =>
    cases hstep s hs with
    | inl h =>
      obtain ⟨s',he,hs',hlt⟩ := h
      obtain ⟨r,hr,hp⟩ := ih hs' (Nat.lt_of_lt_of_le hlt (Nat.le_of_lt_succ hfuel))
      exact ⟨r,by simp only [loop, he, hr],hp⟩
    | inr h =>
      obtain ⟨r,he,hp⟩ := h
      exact ⟨r,by simp only [loop, he],hp⟩

/-- Partial correctness of a loop, for one that may wait forever. -/
theorem loop_post {step : S → S ⊕ R} (Inv : S → Prop) (Post : R → Prop)
    (hstep : ∀ s, Inv s → (∃ s', step s = .inl s' ∧ Inv s') ∨ (∃ r, step s = .inr r ∧ Post r))
    {fuel : ℕ} {s : S} {r : R} (hs : Inv s) (h : loop step fuel s = some r) : Post r := by
  induction fuel generalizing s with
  | zero => cases h
  | succ fuel ih =>
    rw [loop] at h
    rcases hstep s hs with ⟨s',he,hs'⟩ | ⟨r',he,hp⟩
    · rw [he] at h
      exact ih hs' h
    · rw [he] at h
      cases h
      exact hp

/-- A loop that waits: it ends at the latest when the time comes that it waits for. -/
theorem loop_within {step : S → S ⊕ R} (time : S → ℕ) (good : ℕ → Prop) (Inv : S → Prop) (Post : R → Prop)
    (hstep : ∀ s, Inv s → (∃ s', step s = .inl s' ∧ Inv s' ∧ time s' = time s + 1 ∧ ¬good (time s)) ∨
      (∃ r, step s = .inr r ∧ Post r))
    {j fuel : ℕ} {s : S} (hs : Inv s) (hgood : good (time s + j)) (hj : j < fuel) :
    ∃ r, loop step fuel s = some r ∧ Post r := by
  induction j generalizing s fuel with
  | zero =>
    obtain ⟨fuel,rfl⟩ := Nat.exists_eq_succ_of_ne_zero (Nat.ne_of_gt hj)
    rcases hstep s hs with ⟨s',_,_,_,hnot⟩ | ⟨r,he,hp⟩
    · exact absurd hgood hnot
    · exact ⟨r,by simp only [loop, he],hp⟩
  | succ j ih =>
    obtain ⟨fuel,rfl⟩ := Nat.exists_eq_succ_of_ne_zero (Nat.ne_of_gt (Nat.zero_lt_of_lt hj))
    rcases hstep s hs with ⟨s',he,hs',htime,_⟩ | ⟨r,he,hp⟩
    · have hgood' : good (time s' + j) := by
        rw [htime, Nat.add_assoc, Nat.add_comm 1 j]
        exact hgood
      obtain ⟨r,hr,hp⟩ := ih hs' hgood' (Nat.lt_of_succ_lt_succ hj)
      exact ⟨r,by simp only [loop, he, hr],hp⟩
    · exact ⟨r,by simp only [loop, he],hp⟩

/-- A loop that walks along a list: `p` has been visited, `t` is the current element and
`q` is still ahead. -/
theorem loop_list {α : Type*} {step : α → α ⊕ R} (Inv : List α → α → List α → Prop) (Post : R → Prop)
    (hstep : ∀ p t q, Inv p t q → (∃ n q', q = n :: q' ∧ step t = .inl n ∧ Inv (p ++ [t]) n q') ∨
      (∃ r, step t = .inr r ∧ Post r))
    {p : List α} {t : α} {q : List α} {fuel : ℕ} (h : Inv p t q) (hfuel : q.length < fuel) :
    ∃ r, loop step fuel t = some r ∧ Post r := by
  induction fuel generalizing p t q with
  | zero => exact absurd hfuel (Nat.not_lt_zero _)
  | succ fuel ih =>
    cases hstep p t q h with
    | inl h =>
      obtain ⟨n,q',rfl,he,hinv⟩ := h
      obtain ⟨r,hr,hp⟩ := ih hinv (Nat.lt_of_succ_lt_succ hfuel)
      exact ⟨r,by simp only [loop, he, hr],hp⟩
    | inr h =>
      obtain ⟨r,he,hp⟩ := h
      exact ⟨r,by simp only [loop, he],hp⟩

/-- A counting loop: what one turn preserves holds at its end. -/
theorem foldl_range {β : Type*} {f : β → ℕ → β} (Inv : ℕ → β → Prop) {n : ℕ} {b : β} (h : Inv 0 b)
    (hstep : ∀ i < n, ∀ b, Inv i b → Inv (i + 1) (f b i)) : Inv n ((List.range n).foldl f b) := by
  induction n with
  | zero => exact h
  | succ n ih =>
    rw [List.range_succ, List.foldl_append, List.foldl_cons, List.foldl_nil]
    exact hstep n (Nat.lt_succ_self n) _ (ih fun i hi => hstep i (Nat.lt_succ_of_lt hi))

/-- A fold of a step that may fail: when no step fails from the invariant, the fold does not. -/
theorem foldlM_total {α β : Type*} {f : β → α → Option β} (Inv : List α → β → Prop) {l : List α} {b : β}
    (hstep : ∀ pre a post b, l = pre ++ a :: post → Inv pre b → ∃ b', f b a = some b' ∧ Inv (pre ++ [a]) b')
    (h : Inv [] b) : ∃ b', l.foldlM f b = some b' ∧ Inv l b' := by
  suffices hsuf : ∀ pre post b, l = pre ++ post → Inv pre b → ∃ b', post.foldlM f b = some b' ∧ Inv l b' from
    hsuf [] l b rfl h
  intro pre post
  induction post generalizing pre with
  | nil =>
    intro b hl hb
    rw [List.append_nil] at hl
    exact ⟨b,rfl,hl ▸ hb⟩
  | cons a post ih =>
    intro b hl hb
    obtain ⟨b',he,hb'⟩ := hstep pre a post b hl hb
    obtain ⟨b'',hf,hinv⟩ := ih (pre ++ [a]) b' (by simp [hl]) hb'
    exact ⟨b'',by simp [List.foldlM_cons, he, hf],hinv⟩

end ApPa.Loop

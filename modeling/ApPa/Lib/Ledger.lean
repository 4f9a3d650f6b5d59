import Mathlib.Data.Finset.Card
import Mathlib.Logic.Function.Basic

/-! # Ownership ledgers

A ledger names the owner of each resource in use. Work done on behalf of some owners
extends the ledger: it keeps every label and adds labels of those owners only.
-/
namespace ApPa

abbrev Ledger (α ω : Type*) := α → Option ω

namespace Ledger
variable {α ω : Type*} [DecidableEq α]

/-- Every new label satisfies `P`. -/
structure Extends (P : ω → Prop) (L L' : Ledger α ω) : Prop where
  keeps : ∀ a o, L a = some o → L' a = some o
  fresh : ∀ a o, L' a = some o → L a = some o ∨ L a = none ∧ P o

omit [DecidableEq α] in
theorem Extends.refl (P : ω → Prop) (L : Ledger α ω) : Extends P L L := ⟨fun _ _ h => h,fun _ _ h => Or.inl h⟩

omit [DecidableEq α] in
theorem Extends.mono {P Q : ω → Prop} {L L' : Ledger α ω} (h : Extends P L L') (hpq : ∀ o, P o → Q o) :
    Extends Q L L' :=
  ⟨h.keeps,fun a o ha => (h.fresh a o ha).imp_right fun hp => ⟨hp.1,hpq o hp.2⟩⟩

omit [DecidableEq α] in
theorem Extends.trans {P : ω → Prop} {L L' L'' : Ledger α ω} (h : Extends P L L') (h' : Extends P L' L'') :
    Extends P L L'' := by
  refine ⟨fun a o ha => h'.keeps a o (h.keeps a o ha),fun a o ha => ?_⟩
  rcases h'.fresh a o ha with hl | ⟨hn,hp⟩
  · exact h.fresh a o hl
  · cases hL : L a with
    | none => exact Or.inr ⟨rfl,hp⟩
    | some o' =>
      rw [h.keeps a o' hL] at hn
      cases hn

omit [DecidableEq α] in
theorem ne_of_free {L : Ledger α ω} {a b : α} {o : ω} (ha : L a = some o) (hb : L b = none) : a ≠ b := by
  rintro rfl
  rw [ha] at hb
  cases hb

theorem free_of_update {L : Ledger α ω} {a b : α} {o : ω} (h : Function.update L a (some o) b = none) :
    b ≠ a ∧ L b = none := by
  have hne : b ≠ a := by
    rintro rfl
    rw [Function.update_self] at h
    cases h
  rw [Function.update_of_ne hne] at h
  exact ⟨hne,h⟩

theorem Extends.take {P : ω → Prop} {L : Ledger α ω} {a : α} {o : ω} (ha : L a = none) (ho : P o) :
    Extends P L (Function.update L a (some o)) := by
  refine ⟨fun b o' hb => ?_,fun b o' hb => ?_⟩
  · rw [Function.update_of_ne (ne_of_free hb ha), hb]
  · by_cases hba : b = a
    · subst hba
      rw [Function.update_self, Option.some.injEq] at hb
      exact Or.inr ⟨ha,hb ▸ ho⟩
    · rw [Function.update_of_ne hba] at hb
      exact Or.inl hb

def release (L : Ledger α ω) (l : List α) : Ledger α ω := fun a => if a ∈ l then none else L a

theorem release_cons (L : Ledger α ω) (a : α) (l : List α) :
    release L (a :: l) = release (Function.update L a none) l := by
  funext b
  by_cases hba : b = a
  · simp [release, hba]
  · simp [release, hba]

def count (s : Finset α) (L : Ledger α ω) : ℕ := (s.filter fun a => (L a).isSome).card

theorem count_take {s : Finset α} {L : Ledger α ω} {a : α} (hs : a ∈ s) (ha : L a = none) (o : ω) :
    count s (Function.update L a (some o)) = count s L + 1 := by
  have hset : (s.filter fun b => (Function.update L a (some o) b).isSome) =
      insert a (s.filter fun b => (L b).isSome) := by
    ext b
    by_cases hba : b = a
    · simp [hba, hs]
    · simp [hba]
  rw [count, hset, Finset.card_insert_of_notMem (by simp [ha])]
  rfl

omit [DecidableEq α] in
theorem count_lt_card {s : Finset α} {L : Ledger α ω} {a : α} (hs : a ∈ s) (ha : L a = none) :
    count s L < s.card := by
  refine Finset.card_lt_card (Finset.filter_ssubset.mpr ⟨a,hs,?_⟩)
  simp [ha]

omit [DecidableEq α] in
theorem count_eq_card {s : Finset α} {L : Ledger α ω} (h : ∀ a ∈ s, L a ≠ none) : count s L = s.card := by
  rw [count, Finset.filter_true_of_mem]
  intro a ha
  exact Option.isSome_iff_ne_none.mpr (h a ha)

theorem count_drop {s : Finset α} {L : Ledger α ω} {a : α} (hs : a ∈ s) (ha : L a ≠ none) :
    count s (Function.update L a none) + 1 = count s L := by
  obtain ⟨o,ho⟩ := Option.ne_none_iff_exists'.mp ha
  have hback : Function.update (Function.update L a none) a (some o) = L := by
    rw [Function.update_idem, ← ho, Function.update_eq_self]
  rw [← count_take hs (Function.update_self a none L) o, hback]

def relabel (g : ω → ω) (L : Ledger α ω) : Ledger α ω := fun a => (L a).map g

omit [DecidableEq α] in
theorem relabel_eq_none {g : ω → ω} {L : Ledger α ω} {a : α} : L.relabel g a = none ↔ L a = none :=
  Option.map_eq_none_iff

omit [DecidableEq α] in
theorem count_relabel (s : Finset α) (g : ω → ω) (L : Ledger α ω) : count s (L.relabel g) = count s L := by
  simp [count, relabel]

end Ledger

end ApPa

import Mathlib.Data.List.TakeWhile
import Mathlib.Data.Nat.Basic
import Mathlib.Logic.Function.Basic

/-! # Words of a text, and texts in a buffer

A text is cut into its maximal pieces without a separator. In a buffer it stands at a position
and ends at the first stop symbol, so that writing a stop symbol over a separator cuts it.
-/
namespace ApPa.Words

variable {α : Type*}

section Cutting
variable (sep : α → Bool)

/-- The maximal nonempty pieces of a text that hold no separator. -/
def words (l : List α) : List (List α) := (l.splitOnP sep).filter fun w => !w.isEmpty

@[simp] theorem words_nil : words sep [] = [] := rfl

theorem words_cons_sep {a : α} (h : sep a = true) (l : List α) : words sep (a :: l) = words sep l := by
  rw [words, List.splitOnP_cons_eq_if_modifyHead, if_pos h]
  rfl

theorem words_dropWhile (l : List α) : words sep (l.dropWhile sep) = words sep l := by
  induction l with
  | nil => rfl
  | cons a l ih =>
    rw [List.dropWhile_cons]
    split
    · rename_i h
      rw [ih, words_cons_sep sep h]
    · rfl

theorem words_cons {a : α} (h : sep a = false) (l : List α) :
    words sep (a :: l) = (a :: l).takeWhile (fun b => !sep b) ::
      words sep (((a :: l).dropWhile fun b => !sep b).drop 1) := by
  have hword : ∀ b ∈ (a :: l).takeWhile (fun b => !sep b), sep b = false := fun b hb => by
    simpa using List.mem_takeWhile_imp hb
  have hne : ((a :: l).takeWhile fun b => !sep b).isEmpty = false := by
    rw [List.takeWhile_cons_of_pos (by simp [h])]
    rfl
  have hl := (List.takeWhile_append_dropWhile (p := fun b => !sep b) (l := a :: l)).symm
  cases hrest : (a :: l).dropWhile fun b => !sep b with
  | nil =>
    rw [hrest, List.append_nil] at hl
    rw [← hl] at hword ⊢
    rw [words, List.splitOnP_eq_singleton hword]
    rfl
  | cons s rest =>
    have hs := List.head?_dropWhile_not (fun b => !sep b) (a :: l)
    rw [hrest] at hl hs
    have hcut := congrArg (words sep) hl
    rw [hcut, words, List.splitOnP_append_cons_of_forall_mem hword s (by simpa using hs),
      List.filter_cons_of_pos (by rw [hne]; rfl)]
    rfl

theorem words_rest (l : List α) :
    words sep ((l.dropWhile fun b => !sep b).drop 1) = words sep (l.dropWhile fun b => !sep b) := by
  have hs := List.head?_dropWhile_not (fun b => !sep b) l
  cases hrest : l.dropWhile fun b => !sep b with
  | nil => rfl
  | cons s rest =>
    rw [hrest] at hs
    exact (words_cons_sep sep (by simpa using hs) rest).symm

end Cutting

section Buffer
variable {stop : α} {buf : ℕ → α} {p : ℕ} {w : List α}

/-- The text `w` stands at `p`, with the first stop symbol right behind it. -/
structure Reads (stop : α) (buf : ℕ → α) (p : ℕ) (w : List α) : Prop where
  get : ∀ i (h : i < w.length), buf (p + i) = w[i]
  ends : buf (p + w.length) = stop
  notMem : stop ∉ w

theorem Reads.nil (h : buf p = stop) : Reads stop buf p [] where
  get i hi := absurd hi (Nat.not_lt_zero i)
  ends := h
  notMem := List.not_mem_nil

theorem Reads.cons {a : α} (ha : a ≠ stop) (hp : buf p = a) (h : Reads stop buf (p + 1) w) :
    Reads stop buf p (a :: w) where
  get i hi := by
    cases i with
    | zero => exact hp
    | succ i =>
      have hget := h.get i (Nat.lt_of_succ_lt_succ hi)
      rwa [Nat.add_assoc, Nat.add_comm 1] at hget
  ends := by
    have hends := h.ends
    rwa [Nat.add_assoc, Nat.add_comm 1] at hends
  notMem hmem := (List.mem_cons.mp hmem).elim (fun h => ha h.symm) h.notMem

theorem Reads.congr {buf' : ℕ → α} (h : Reads stop buf p w) (hb : ∀ x, p ≤ x → x ≤ p + w.length → buf' x = buf x) :
    Reads stop buf' p w where
  get i hi := (hb _ (by omega) (by omega)).trans (h.get i hi)
  ends := (hb _ (by omega) (by omega)).trans h.ends
  notMem := h.notMem

theorem Reads.drop (h : Reads stop buf p w) {k : ℕ} (hk : k ≤ w.length) : Reads stop buf (p + k) (w.drop k) where
  get i hi := by
    rw [List.length_drop] at hi
    rw [List.getElem_drop, Nat.add_assoc]
    exact h.get (k + i) (by omega)
  ends := by
    rw [List.length_drop, Nat.add_assoc, Nat.add_sub_cancel' hk]
    exact h.ends
  notMem hmem := h.notMem (List.mem_of_mem_drop hmem)

/-- A stop symbol written into a text leaves what stands before it. -/
theorem Reads.cut (h : Reads stop buf p w) {k : ℕ} (hk : k ≤ w.length) :
    Reads stop (Function.update buf (p + k) stop) p (w.take k) where
  get i hi := by
    rw [List.length_take] at hi
    rw [Function.update_of_ne (by omega), List.getElem_take]
    exact h.get i (by omega)
  ends := by
    rw [List.length_take, Nat.min_eq_left hk, Function.update_self]
  notMem hmem := h.notMem (List.mem_of_mem_take hmem)

theorem drop_length_takeWhile (q : α → Bool) (w : List α) : w.drop (w.takeWhile q).length = w.dropWhile q := by
  have h := congrArg (List.drop (w.takeWhile q).length) (List.takeWhile_append_dropWhile (p := q) (l := w))
  rw [List.drop_left] at h
  exact h.symm

theorem take_length_takeWhile (q : α → Bool) (w : List α) : w.take (w.takeWhile q).length = w.takeWhile q :=
  (List.prefix_iff_eq_take.mp (List.takeWhile_prefix q)).symm

theorem Reads.skip (h : Reads stop buf p w) (q : α → Bool) :
    Reads stop buf (p + (w.takeWhile q).length) (w.dropWhile q) :=
  drop_length_takeWhile q w ▸ h.drop (List.takeWhile_prefix q).length_le

theorem Reads.cut_takeWhile (h : Reads stop buf p w) (q : α → Bool) :
    Reads stop (Function.update buf (p + (w.takeWhile q).length) stop) p (w.takeWhile q) := by
  have hcut := h.cut (List.takeWhile_prefix q).length_le
  rwa [take_length_takeWhile] at hcut

theorem Reads.nil_iff (h : Reads stop buf p w) : buf p = stop ↔ w = [] := by
  cases w with
  | nil => exact iff_of_true h.ends rfl
  | cons a w =>
    refine iff_of_false ?_ (List.cons_ne_nil a w)
    have ha := h.get 0 (Nat.succ_pos _)
    rw [Nat.add_zero, List.getElem_cons_zero] at ha
    rw [ha]
    exact fun hstop => h.notMem (hstop ▸ List.mem_cons_self)

/-- A pointer that is moved on while it points at symbols that satisfy `q`. -/
def scan (q : α → Bool) (buf : ℕ → α) : ℕ → ℕ → ℕ
  | 0, p => p
  | fuel + 1, p => if q (buf p) then scan q buf fuel (p + 1) else p

theorem Reads.scan {q : α → Bool} (h : Reads stop buf p w) (hq : q stop = false) {fuel : ℕ} (hfuel : w.length ≤ fuel) :
    scan q buf fuel p = p + (w.takeWhile q).length := by
  induction fuel generalizing p w with
  | zero =>
    rw [List.eq_nil_of_length_eq_zero (Nat.le_zero.mp hfuel)]
    rfl
  | succ fuel ih =>
    rw [Words.scan]
    cases w with
    | nil =>
      have hp : buf p = stop := h.ends
      rw [hp, hq]
      rfl
    | cons a w =>
      have ha : buf p = a := h.get 0 (Nat.succ_pos _)
      have hrest : Reads stop buf (p + 1) w := h.drop (Nat.succ_pos _)
      rw [ha, List.takeWhile_cons]
      cases q a with
      | true =>
        rw [if_pos rfl, if_pos rfl, ih hrest (Nat.le_of_succ_le_succ hfuel), List.length_cons]
        omega
      | false => rfl

end Buffer

end ApPa.Words

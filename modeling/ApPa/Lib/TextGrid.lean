import Mathlib.Data.List.GetD
import Mathlib.Logic.Function.Basic
import Mathlib.Tactic.Common

/-! # Text on a grid that scrolls

Characters go to the cells of a grid of `h` rows of `w` cells, one after the other. A row
ends with a newline or with its last cell, and the grid moves up by one row when the last
one ends. So the grid shows the last rows of the text, which is said without any scrolling:
the text is cut into rows, and the rows that do not fit are dropped from the front.
-/
namespace ApPa.TextGrid
variable {γ : Type*}

/-- The cells in reading order, and the one that comes next. -/
@[ext] structure Grid (γ : Type*) where
  cell : ℕ → γ
  pos : ℕ

section Put
variable (w h : ℕ) (nl : γ → Prop) [DecidablePred nl] (blank : γ)

/-- The rows move up, and the last one is blank. -/
def scrolled (f : ℕ → γ) : ℕ → γ := fun i => if i < w * (h - 1) then f (i + w) else blank

def scrollAt (g : Grid γ) : Grid γ := if w * h ≤ g.pos then ⟨scrolled w h blank g.cell,w * (h - 1)⟩ else g

def put (g : Grid γ) (c : γ) : Grid γ :=
  scrollAt w h blank (if nl c then ⟨g.cell,(g.pos / w + 1) * w⟩ else ⟨Function.update g.cell g.pos c,g.pos + 1⟩)

end Put

section Rows
variable (w : ℕ) (nl : γ → Prop) [DecidablePred nl]

/-- The rows that have ended, and the one that has not. -/
abbrev Layout (γ : Type*) := List (List γ) × List γ

def feed (l : Layout γ) (c : γ) : Layout γ :=
  if nl c then (l.1 ++ [l.2],[])
  else if l.2.length + 1 = w then (l.1 ++ [l.2 ++ [c]],[])
  else (l.1,l.2 ++ [c])

def layout (s : List γ) : Layout γ := s.foldl (feed w nl) ([],[])

def rows (s : List γ) : List (List γ) := (layout w nl s).1 ++ [(layout w nl s).2]

end Rows

def window (h : ℕ) (rs : List (List γ)) : List (List γ) := rs.drop (rs.length - h)

/-- Rows from the top, padded with blanks. -/
def image (w : ℕ) (blank : γ) (rs : List (List γ)) : ℕ → γ := fun i => (rs.getD (i / w) []).getD (i % w) blank

def caret (w : ℕ) (rs : List (List γ)) : ℕ := w * (rs.length - 1) + (rs.getLastD []).length

def shown (w h : ℕ) (blank : γ) (rs : List (List γ)) : Grid γ := ⟨image w blank (window h rs),caret w (window h rs)⟩

section Window
variable {w h : ℕ} {blank : γ}

/-- The last row is always on the grid, below as many others as there is room for. -/
theorem window_concat (hh : 0 < h) (rs : List (List γ)) (r : List γ) :
    window h (rs ++ [r]) = rs.drop (rs.length + 1 - h) ++ [r] := by
  rw [window, List.length_append, List.length_singleton, List.drop_append_of_le_length (by omega)]

theorem caret_concat (rs : List (List γ)) (r : List γ) : caret w (rs ++ [r]) = w * rs.length + r.length := by
  simp [caret]

theorem image_of_le (hw : 0 < w) (rs : List (List γ)) {i : ℕ} (hi : w * rs.length ≤ i) : image w blank rs i = blank := by
  have hrow : rs.length ≤ i / w := (Nat.le_div_iff_mul_le hw).mpr (by rwa [Nat.mul_comm])
  rw [image, List.getD_eq_default _ _ hrow]
  rfl

theorem image_concat_snoc (rs : List (List γ)) {r : List γ} (hr : r.length < w) (c : γ) :
    image w blank (rs ++ [r ++ [c]]) = Function.update (image w blank (rs ++ [r])) (w * rs.length + r.length) c := by
  have hw : 0 < w := Nat.lt_of_le_of_lt (Nat.zero_le _) hr
  funext i
  have hi := Nat.div_add_mod i w
  have hmod := Nat.mod_lt i hw
  rcases Nat.lt_trichotomy (i / w) rs.length with hlt | heq | hgt
  · have hne : i ≠ w * rs.length + r.length := by
      have hle := Nat.mul_le_mul_left w (Nat.succ_le_of_lt hlt)
      rw [Nat.mul_succ] at hle
      omega
    rw [Function.update_of_ne hne, image, image, List.getD_append _ _ _ _ hlt, List.getD_append _ _ _ _ hlt]
  · have hlast : ∀ r : List γ, (rs ++ [r]).getD (i / w) [] = r := by
      intro r
      rw [heq, List.getD_append_right _ _ _ _ (Nat.le_refl _), Nat.sub_self]
      rfl
    rw [heq] at hi
    by_cases he : i % w = r.length
    · have hpos : w * rs.length + r.length = i := by omega
      rw [hpos, Function.update_self, image, hlast, he, List.getD_append_right _ _ _ _ (Nat.le_refl _), Nat.sub_self]
      rfl
    · rw [Function.update_of_ne (by omega), image, image, hlast, hlast]
      rcases Nat.lt_or_gt_of_ne he with hin | hout
      · rw [List.getD_append _ _ _ _ hin]
      · rw [List.getD_eq_default _ _ (by simpa using Nat.succ_le_of_lt hout), List.getD_eq_default _ _ (Nat.le_of_lt hout)]
  · have hge := Nat.mul_le_mul_left w (Nat.succ_le_of_lt hgt)
    have hlen : ∀ r : List γ, (rs ++ [r]).length = rs.length + 1 := fun r => by simp
    rw [Nat.mul_succ] at hge
    rw [Function.update_of_ne (by omega), image_of_le hw _ (by rw [hlen, Nat.mul_succ]; omega),
      image_of_le hw _ (by rw [hlen, Nat.mul_succ]; omega)]

theorem image_concat_nil (rs : List (List γ)) : image w blank (rs ++ [[]]) = image w blank rs := by
  funext i
  rw [image, image]
  rcases Nat.lt_or_ge (i / w) rs.length with hlt | hge
  · rw [List.getD_append _ _ _ _ hlt]
  · rw [List.getD_append_right _ _ _ _ hge, List.getD_eq_default _ _ hge]
    cases i / w - rs.length <;> rfl

theorem image_drop_one (hw : 0 < w) (rs : List (List γ)) (i : ℕ) : image w blank (rs.drop 1) i = image w blank rs (i + w) := by
  have hdrop : (rs.drop 1).getD (i / w) [] = rs.getD (i / w + 1) [] := by
    rw [List.getD_eq_getElem?_getD, List.getD_eq_getElem?_getD, List.getElem?_drop, Nat.add_comm]
  rw [image, image, hdrop, Nat.add_div_right i hw, Nat.add_mod_right]

theorem shown_endRow (hw : 0 < w) (hh : 0 < h) (rs : List (List γ)) (r : List γ) :
    scrollAt w h blank ⟨image w blank (window h (rs ++ [r])),w * ((rs.drop (rs.length + 1 - h)).length + 1)⟩ =
      shown w h blank (rs ++ [r] ++ [[]]) := by
  rw [shown, window_concat hh, window_concat hh, caret_concat, image_concat_nil, scrollAt]
  by_cases hfit : rs.length + 1 < h
  · -- all rows are on the grid, and there is one more
    have hdrop : rs.length + 1 - h = 0 := by omega
    have hdrop' : (rs ++ [r]).length + 1 - h = 0 := by rw [List.length_append, List.length_singleton]; omega
    have hlt : w * (rs.length + 1) < w * h := Nat.mul_lt_mul_of_pos_left hfit hw
    rw [hdrop, hdrop', List.drop_zero, List.drop_zero, if_neg (Nat.not_le.mpr hlt), List.length_append,
      List.length_singleton]
    rfl
  · have hlen : (rs.drop (rs.length + 1 - h)).length + 1 = h := by rw [List.length_drop]; omega
    have hfirst : (rs ++ [r]).drop ((rs ++ [r]).length + 1 - h) = (rs.drop (rs.length + 1 - h) ++ [r]).drop 1 := by
      have hle : rs.length + 1 - h ≤ rs.length := by omega
      rw [← List.drop_append_of_le_length hle, List.drop_drop, List.length_append, List.length_singleton]
      congr 1
      omega
    have hrows : (rs.drop (rs.length + 1 - h) ++ [r]).length = h := by rw [List.length_append, List.length_singleton, hlen]
    have hpos : w * ((rs.drop (rs.length + 1 - h) ++ [r]).drop 1).length + ([] : List γ).length = w * (h - 1) := by
      rw [List.length_drop, hrows, List.length_nil, Nat.add_zero]
    rw [if_pos (Nat.le_of_eq (congrArg (w * ·) hlen.symm)), hfirst, hpos]
    congr 1
    funext i
    rw [scrolled, image_drop_one hw]
    split
    · rfl
    · next hlast =>
      refine (image_of_le hw _ ?_).symm
      rw [hrows]
      obtain ⟨k,rfl⟩ : ∃ k, h = k + 1 := ⟨h - 1,by omega⟩
      rw [Nat.mul_succ]
      rw [Nat.add_sub_cancel] at hlast
      omega

end Window

section Run
variable {w h : ℕ} {nl : γ → Prop} [DecidablePred nl] {blank : γ}

theorem feed_length (hw : 0 < w) {l : Layout γ} (hl : l.2.length < w) (c : γ) : (feed w nl l c).2.length < w := by
  unfold feed
  split
  · exact hw
  · split
    · exact hw
    · rw [List.length_append, List.length_singleton]
      omega

theorem put_shown (hw : 0 < w) (hh : 0 < h) {l : Layout γ} (hl : l.2.length < w) (c : γ) :
    put w h nl blank (shown w h blank (l.1 ++ [l.2])) c =
      shown w h blank ((feed w nl l c).1 ++ [(feed w nl l c).2]) := by
  obtain ⟨rs,r⟩ := l
  dsimp only at hl ⊢
  have hcaret : (shown w h blank (rs ++ [r])).pos = w * (rs.drop (rs.length + 1 - h)).length + r.length := by
    rw [shown, window_concat hh, caret_concat]
  unfold put feed
  by_cases hc : nl c
  · have hrow : ((shown w h blank (rs ++ [r])).pos / w + 1) * w = w * ((rs.drop (rs.length + 1 - h)).length + 1) := by
      rw [hcaret, Nat.mul_add_div hw, Nat.div_eq_of_lt hl, Nat.add_zero, Nat.mul_comm]
    rw [if_pos hc, if_pos hc, hrow]
    exact shown_endRow hw hh rs r
  · have himage : Function.update (shown w h blank (rs ++ [r])).cell (shown w h blank (rs ++ [r])).pos c =
        image w blank (window h (rs ++ [r ++ [c]])) := by
      rw [hcaret, shown, window_concat hh, window_concat hh, image_concat_snoc _ hl]
    rw [if_neg hc, if_neg hc, himage, hcaret]
    dsimp only
    by_cases hfull : r.length + 1 = w
    · rw [if_pos hfull, Nat.add_assoc, hfull, ← Nat.mul_succ]
      exact shown_endRow hw hh rs (r ++ [c])
    · -- the row goes on, so there is no scrolling
      have hroom : w * (rs.drop (rs.length + 1 - h)).length + (r.length + 1) < w * h := by
        have hle : (rs.drop (rs.length + 1 - h)).length + 1 ≤ h := by rw [List.length_drop]; omega
        have hmul := Nat.mul_le_mul_left w hle
        rw [Nat.mul_succ] at hmul
        omega
      rw [if_neg hfull, scrollAt]
      dsimp only
      rw [Nat.add_assoc, if_neg (Nat.not_le.mpr hroom), shown, window_concat hh, caret_concat,
        List.length_append, List.length_singleton]

/-- **The grid shows the last rows of the text.** -/
theorem foldl_put (hw : 0 < w) (hh : 0 < h) (s : List γ) :
    s.foldl (put w h nl blank) ⟨fun _ => blank,0⟩ = shown w h blank (rows w nl s) := by
  have hrun : ∀ (s : List γ) (l : Layout γ), l.2.length < w →
      s.foldl (put w h nl blank) (shown w h blank (l.1 ++ [l.2])) =
        shown w h blank ((s.foldl (feed w nl) l).1 ++ [(s.foldl (feed w nl) l).2]) := by
    intro s
    induction s with
    | nil => exact fun _ _ => rfl
    | cons c s ih =>
      intro l hl
      rw [List.foldl_cons, List.foldl_cons, put_shown hw hh hl, ih _ (feed_length hw hl c)]
  have hstart : (⟨fun _ => blank,0⟩ : Grid γ) = shown w h blank ([] ++ [[]]) := by
    rw [shown, window_concat hh, caret_concat, image_concat_nil, List.drop_nil]
    rfl
  rw [hstart]
  exact hrun s ([],[]) hw

end Run

section Map
variable {δ : Type*} (f : γ → δ) {w : ℕ} (nl : δ → Prop) [DecidablePred nl]

theorem layout_map (s : List γ) : layout w nl (s.map f) =
    ((layout w (fun c => nl (f c)) s).1.map (List.map f),(layout w (fun c => nl (f c)) s).2.map f) := by
  have hfeed : ∀ (l : Layout γ) (c : γ), feed w nl (l.1.map (List.map f),l.2.map f) (f c) =
      ((feed w (fun c => nl (f c)) l c).1.map (List.map f),(feed w (fun c => nl (f c)) l c).2.map f) := by
    intro l c
    unfold feed
    by_cases hc : nl (f c)
    · simp [hc]
    · by_cases hfull : l.2.length + 1 = w
      · simp [hc, hfull]
      · simp [hc, hfull]
  have hrun : ∀ (s : List γ) (l : Layout γ), (s.map f).foldl (feed w nl) (l.1.map (List.map f),l.2.map f) =
      ((s.foldl (feed w fun c => nl (f c)) l).1.map (List.map f),(s.foldl (feed w fun c => nl (f c)) l).2.map f) := by
    intro s
    induction s with
    | nil => exact fun _ => rfl
    | cons c s ih =>
      intro l
      rw [List.map_cons, List.foldl_cons, List.foldl_cons, hfeed, ih]
  exact hrun s ([],[])

/-- Rows are cut where the newlines are, whatever else belongs to a character. -/
theorem shown_map (h : ℕ) (blank : γ) (s : List γ) : shown w h (f blank) (rows w nl (s.map f)) =
    ⟨fun i => f ((shown w h blank (rows w (fun c => nl (f c)) s)).cell i),
      (shown w h blank (rows w (fun c => nl (f c)) s)).pos⟩ := by
  have hrows : rows w nl (s.map f) = (rows w (fun c => nl (f c)) s).map (List.map f) := by
    rw [rows, rows, layout_map, List.map_append]
    rfl
  have hwindow : ∀ rs : List (List γ), window h (rs.map (List.map f)) = (window h rs).map (List.map f) := by
    intro rs
    rw [window, window, List.length_map, List.map_drop]
  have hcaret : ∀ rs : List (List γ), caret w (rs.map (List.map f)) = caret w rs := by
    intro rs
    rw [caret, caret, List.length_map]
    congr 1
    rcases List.eq_nil_or_concat rs with rfl | ⟨l,r,rfl⟩
    · rfl
    · simp
  have himage : ∀ (rs : List (List γ)) (i : ℕ), image w (f blank) (rs.map (List.map f)) i = f (image w blank rs i) := by
    intro rs i
    have hrow : (rs.map (List.map f)).getD (i / w) [] = (rs.getD (i / w) []).map f := List.getD_map rs [] (List.map f)
    rw [image, image, hrow, List.getD_map]
  rw [hrows, shown, hwindow, hcaret, shown]
  congr 1
  funext i
  exact himage _ i

end Map

end ApPa.TextGrid

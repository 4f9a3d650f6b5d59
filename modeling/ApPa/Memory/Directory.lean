import ApPa.Memory.Frames

/-! # Frames held by a page directory

A directory is read by its frame number. Entries are words made of a frame number and
twelve flag bits; the lemmas below say how writes to directories and tables change the
frames reachable from a directory.
-/
namespace ApPa.Memory
open ByteMem Word32

/-! ## Entries -/

theorem frame_lor (n : ℕ) {f : ℕ} (hf : f < 4096) : n * pageSize ||| f = n * pageSize + f :=
  lor_low (Dvd.intro_left n rfl) hf

theorem pageFrame_eq {e : ℕ} (he : e < 2 ^ 32) : pageFrame e = e / pageSize * pageSize := land_frame he

theorem isPresent_iff (e : ℕ) : isPresent e ↔ e % 2 = 1 := by
  unfold isPresent pagePresent
  rw [Nat.and_one_is_mod]
  omega

theorem isUser_iff (e : ℕ) : isUser e ↔ e / 4 % 2 = 1 := by
  unfold isUser pageUser
  have h := Nat.and_two_pow e 2
  rw [show (4 : ℕ) = 2 ^ 2 from rfl, h]
  rw [Nat.testBit_eq_decide_div_mod_eq]
  simp

theorem lor_user (e : ℕ) : e ||| pageUser = e / pageSize * pageSize + (e % pageSize ||| pageUser) := by
  have hlt : e % pageSize ||| pageUser < 4096 :=
    Nat.or_lt_two_pow (n := 12) (Nat.mod_lt e (by decide)) (by decide)
  have hsplit : e = e / pageSize * pageSize ||| e % pageSize := by
    rw [frame_lor _ (f := e % pageSize) (Nat.mod_lt e (by decide)), Nat.div_add_mod']
  calc e ||| pageUser = (e / pageSize * pageSize ||| e % pageSize) ||| pageUser := by rw [← hsplit]
    _ = e / pageSize * pageSize ||| (e % pageSize ||| pageUser) := Nat.or_assoc ..
    _ = _ := frame_lor _ hlt

theorem lor_user_div (e : ℕ) : (e ||| pageUser) / pageSize = e / pageSize := by
  have hlt : e % pageSize ||| pageUser < 4096 :=
    Nat.or_lt_two_pow (n := 12) (Nat.mod_lt e (by decide)) (by decide)
  rw [lor_user]
  simp only [pageSize] at hlt ⊢
  omega

theorem lor_user_lt {e : ℕ} (he : e < 2 ^ 32) : e ||| pageUser < 2 ^ 32 := Nat.or_lt_two_pow he (by decide)

theorem isPresent_lor_user (e : ℕ) : isPresent (e ||| pageUser) ↔ isPresent e := by
  unfold isPresent pagePresent pageUser
  rw [Nat.and_or_distrib_right]
  simp

theorem entry_lt (m : Mem) (b i : ℕ) : entry m b i < 2 ^ 32 := read32_lt _ _

theorem entry_congr {m m' : Mem} {n i : ℕ} (hi : i < 1024) (h : ∀ x, x / pageSize = n → m' x = m x) :
    entry m' (n * pageSize) i = entry m (n * pageSize) i := by
  refine read32_congr fun x h1 h2 => h x ?_
  simp only [pageSize] at *
  omega

theorem entry_setEntry (m : Mem) {n n' i i' : ℕ} (v : ℕ) (hi : i < 1024) (hi' : i' < 1024) :
    entry (setEntry m (n * pageSize) i v) (n' * pageSize) i' =
      if n' = n ∧ i' = i then v % 2 ^ 32 else entry m (n' * pageSize) i' := by
  unfold entry setEntry
  by_cases h : n' = n ∧ i' = i
  · rw [if_pos h, h.1, h.2, read32_write32_self]
  · rw [if_neg h]
    refine read32_write32_of_disjoint v ?_
    simp only [pageSize]
    omega

theorem entry_clear (m : Mem) {n n' i : ℕ} (hi : i < 1024) :
    entry (fill m (n * pageSize) pageSize 0) (n' * pageSize) i =
      if n' = n then 0 else entry m (n' * pageSize) i := by
  unfold entry
  by_cases h : n' = n
  · rw [if_pos h, h]
    refine read32_fill (Nat.le_add_right _ _) ?_
    simp only [pageSize]
    omega
  · rw [if_neg h]
    refine read32_congr fun x h1 h2 => fill_apply ?_
    simp only [pageSize] at *
    omega

theorem setEntry_apply (m : Mem) {n i x : ℕ} (v : ℕ) (hi : i < 1024) (hx : x / pageSize ≠ n) :
    setEntry m (n * pageSize) i v x = m x := by
  refine write32_apply ?_
  simp only [pageSize] at *
  omega

theorem clear_apply (m : Mem) {n x : ℕ} (hx : x / pageSize ≠ n) : fill m (n * pageSize) pageSize 0 x = m x := by
  refine fill_apply ?_
  simp only [pageSize] at *
  omega

theorem pageDirIndex_eq (va : ℕ) : pageDirIndex va = va / 0x400000 % 1024 := by
  unfold pageDirIndex
  rw [Nat.shiftRight_eq_div_pow]
  exact Nat.and_two_pow_sub_one_eq_mod _ 10

theorem pageTableIndex_eq (va : ℕ) : pageTableIndex va = va / 0x1000 % 1024 := by
  unfold pageTableIndex
  rw [Nat.shiftRight_eq_div_pow]
  exact Nat.and_two_pow_sub_one_eq_mod _ 10

theorem pageDirIndex_lt (va : ℕ) : pageDirIndex va < 1024 := by
  rw [pageDirIndex_eq]
  exact Nat.mod_lt _ (by decide)

theorem pageTableIndex_lt (va : ℕ) : pageTableIndex va < 1024 := by
  rw [pageTableIndex_eq]
  exact Nat.mod_lt _ (by decide)

/-! ## The frames of a directory -/

/-- The frame that entry `i` of the directory or table at `b` refers to. -/
def target (m : Mem) (b i : ℕ) : Option ℕ :=
  if isPresent (entry m b i) then some (pageFrame (entry m b i) / pageSize) else none

/-- The frame at each place of the directory at address `d`: the directory itself, its
private table for the first 4 MB, the tables above the shared kernel range and the pages
these map. -/
def dirFrame (m : Mem) (d : ℕ) : Slot → Option ℕ
  | .kstack => none
  | .dir => some (d / pageSize)
  | .pt0 => target m d 0
  | .table i => if kernelPdeCount ≤ i ∧ i < tablesPerDir then target m d i else none
  | .page i j =>
    if (kernelPdeCount ≤ i ∧ i < tablesPerDir) ∧ j < pagesPerTable then
      (target m d i).bind fun t => target m (t * pageSize) j
    else none

/-- Places whose frames hold the entries that lead to other places. -/
def Slot.Maps : Slot → Prop
  | .dir => True
  | .table _ => True
  | _ => False

variable {m m' : Mem} {n n' i i' t : ℕ}

theorem target_eq (m : Mem) (b i : ℕ) :
    target m b i = if isPresent (entry m b i) then some (entry m b i / pageSize) else none := by
  rw [target, pageFrame_eq (entry_lt m b i), Nat.mul_div_cancel _ (by decide)]

theorem target_eq_some {b i f : ℕ} (h : target m b i = some f) :
    isPresent (entry m b i) ∧ entry m b i / pageSize = f ∧ pageFrame (entry m b i) = f * pageSize := by
  rw [target_eq] at h
  split at h
  · rename_i hp
    rw [Option.some.injEq] at h
    exact ⟨hp,h,by rw [pageFrame_eq (entry_lt m b i), h]⟩
  · cases h

theorem target_congr (hi : i < 1024) (h : ∀ x, x / pageSize = n → m' x = m x) :
    target m' (n * pageSize) i = target m (n * pageSize) i := by
  rw [target, target, entry_congr hi h]

theorem target_setEntry (m : Mem) {v : ℕ} (hv : v < 2 ^ 32) (hi : i < 1024) (hi' : i' < 1024) :
    target (setEntry m (n * pageSize) i v) (n' * pageSize) i' =
      if n' = n ∧ i' = i then if isPresent v then some (v / pageSize) else none
      else target m (n' * pageSize) i' := by
  rw [target_eq, target_eq, entry_setEntry m v hi hi']
  by_cases h : n' = n ∧ i' = i
  · rw [if_pos h, if_pos h, Nat.mod_eq_of_lt hv]
  · rw [if_neg h, if_neg h]

theorem target_clear (m : Mem) (hi : i < 1024) :
    target (fill m (n * pageSize) pageSize 0) (n' * pageSize) i =
      if n' = n then none else target m (n' * pageSize) i := by
  rw [target, target, entry_clear m hi]
  by_cases h : n' = n
  · rw [if_pos h, if_pos h]
    exact if_neg (by decide)
  · rw [if_neg h, if_neg h]

/-- The frames that hold the entries of a directory determine its frames. -/
theorem dirFrame_congr (hm : ∀ x s, s.Maps → dirFrame m (n * pageSize) s = some (x / pageSize) → m' x = m x) :
    dirFrame m' (n * pageSize) = dirFrame m (n * pageSize) := by
  have hself : dirFrame m (n * pageSize) .dir = some n := by rw [dirFrame, Nat.mul_div_cancel _ (by decide)]
  have hdir : ∀ i < 1024, target m' (n * pageSize) i = target m (n * pageSize) i := fun i hi =>
    target_congr hi fun x hx => hm x .dir trivial (by rw [hx, hself])
  funext s
  cases s with
  | kstack => rfl
  | dir => rfl
  | pt0 => exact hdir 0 (by decide)
  | table i =>
    simp only [dirFrame]
    split
    · rename_i hi
      exact hdir i hi.2
    · rfl
  | page i j =>
    simp only [dirFrame]
    split
    · rename_i hi
      rw [hdir i hi.1.2]
      cases ht : target m (n * pageSize) i with
      | none => rfl
      | some t =>
        have htab : dirFrame m (n * pageSize) (.table i) = some t := by rw [dirFrame, if_pos hi.1, ht]
        exact target_congr hi.2 fun x hx => hm x (.table i) trivial (by rw [hx, htab])
    · rfl

/-- Every frame reachable from the directory in frame `n` is held for that place, on
behalf of `tag`. -/
structure DirOwned (L : Frames) (tag : Option (Fin 64)) (m : Mem) (n : ℕ) : Prop where
  owned : ∀ s f, dirFrame m (n * pageSize) s = some f → L f = some (.task tag s)

namespace DirOwned
variable {L : Frames} {tag : Option (Fin 64)}

theorem dir (h : DirOwned L tag m n) : L n = some (.task tag .dir) :=
  h.owned .dir n (by rw [dirFrame, Nat.mul_div_cancel _ (by decide)])

theorem table (h : DirOwned L tag m n) (hi : kernelPdeCount ≤ i) (hi' : i < 1024)
    (ht : target m (n * pageSize) i = some t) : L t = some (.task tag (.table i)) :=
  h.owned (.table i) t (by rw [dirFrame, if_pos ⟨hi,hi'⟩, ht])

theorem table_ne_dir (h : DirOwned L tag m n) (hi : kernelPdeCount ≤ i) (hi' : i < 1024)
    (ht : target m (n * pageSize) i = some t) : t ≠ n := by
  rintro rfl
  have hl := h.table hi hi' ht
  rw [h.dir] at hl
  cases hl

theorem dirFrame_congr (h : DirOwned L tag m n)
    (hm : ∀ x s, L (x / pageSize) = some (.task tag s) → s.Maps → m' x = m x) :
    dirFrame m' (n * pageSize) = dirFrame m (n * pageSize) :=
  Memory.dirFrame_congr fun x s hs hx => hm x s (h.owned s _ hx) hs

theorem congr {L' : Frames} (h : DirOwned L tag m n) (hL : ∀ f s, L f = some (.task tag s) → L' f = some (.task tag s))
    (hm : ∀ x s, L (x / pageSize) = some (.task tag s) → s.Maps → m' x = m x) : DirOwned L' tag m' n := by
  refine ⟨fun s f hf => hL f s (h.owned s f ?_)⟩
  rw [h.dirFrame_congr hm] at hf
  exact hf

theorem take {a : ℕ} (h : DirOwned L tag m n) (ha : L a = none) (s : Slot) :
    DirOwned (Function.update L a (some (.task tag s))) tag m n := by
  refine h.congr (fun f s' hf => ?_) fun _ _ _ _ => rfl
  rw [Function.update_of_ne (Ledger.ne_of_free hf ha), hf]

theorem dirFrame_setPte (h : DirOwned L tag m n) (hi : kernelPdeCount ≤ i) (hi' : i < 1024)
    (ht : target m (n * pageSize) i = some t) {j v : ℕ} (hj : j < 1024) (hv : v < 2 ^ 32) (hp : isPresent v)
    (s : Slot) : dirFrame (setEntry m (t * pageSize) j v) (n * pageSize) s =
      if s = .page i j then some (v / pageSize) else dirFrame m (n * pageSize) s := by
  have hne := h.table_ne_dir hi hi' ht
  have hdir : ∀ k < 1024, target (setEntry m (t * pageSize) j v) (n * pageSize) k = target m (n * pageSize) k := by
    intro k hk
    rw [target_setEntry m hv hj hk, if_neg (fun hc => hne hc.1.symm)]
  cases s with
  | kstack => rfl
  | dir => rfl
  | pt0 => exact hdir 0 (by decide)
  | table k =>
    rw [if_neg (by simp)]
    simp only [dirFrame]
    split
    · rename_i hk
      exact hdir k hk.2
    · rfl
  | page k l =>
    simp only [dirFrame]
    by_cases hk : (kernelPdeCount ≤ k ∧ k < tablesPerDir) ∧ l < pagesPerTable
    · rw [if_pos hk, if_pos hk, hdir k hk.1.2]
      cases ht' : target m (n * pageSize) k with
      | none =>
        have hki : k ≠ i := by
          rintro rfl
          rw [ht] at ht'
          cases ht'
        simp [hki]
      | some t' =>
        simp only [Option.bind_some]
        rw [target_setEntry m hv hj hk.2]
        by_cases hki : k = i
        · subst hki
          rw [ht, Option.some.injEq] at ht'
          subst ht'
          by_cases hlj : l = j
          · simp [hlj, hp]
          · simp [hlj]
        · have htt : t' ≠ t := by
            rintro rfl
            have hl := h.table hk.1.1 hk.1.2 ht'
            rw [h.table hi hi' ht, Option.some.injEq, Owner.task.injEq, Slot.table.injEq] at hl
            exact hki hl.2.symm
          simp [htt, hki]
    · have hkl : ¬(k = i ∧ l = j) := by
        rintro ⟨rfl,rfl⟩
        exact hk ⟨⟨hi,hi'⟩,hj⟩
      rw [if_neg hk, if_neg hk, if_neg (by simpa using hkl)]

theorem dirFrame_setPde (h : DirOwned L tag m n) {v : ℕ} (hi : i < 1024) (hv : v < 2 ^ 32)
    (hp : isPresent v ↔ isPresent (entry m (n * pageSize) i)) (hf : v / pageSize = entry m (n * pageSize) i / pageSize) :
    dirFrame (setEntry m (n * pageSize) i v) (n * pageSize) = dirFrame m (n * pageSize) := by
  have hdir : ∀ k < 1024, target (setEntry m (n * pageSize) i v) (n * pageSize) k = target m (n * pageSize) k := by
    intro k hk
    rw [target_setEntry m hv hi hk]
    by_cases hki : k = i
    · subst hki
      rw [if_pos ⟨rfl,rfl⟩, target_eq, hf]
      simp only [hp]
    · rw [if_neg (by simp [hki])]
  funext s
  cases s with
  | kstack => rfl
  | dir => rfl
  | pt0 => exact hdir 0 (by decide)
  | table k =>
    simp only [dirFrame]
    split
    · rename_i hk
      exact hdir k hk.2
    · rfl
  | page k l =>
    simp only [dirFrame]
    split
    · rename_i hk
      rw [hdir k hk.1.2]
      cases ht : target m (n * pageSize) k with
      | none => rfl
      | some t =>
        simp only [Option.bind_some]
        rw [target_setEntry m hv hi hk.2, if_neg (fun hc => h.table_ne_dir hk.1.1 hk.1.2 ht hc.1)]
    · rfl

theorem dirFrame_newTable (h : DirOwned L tag m n) (hi : kernelPdeCount ≤ i) (hi' : i < 1024)
    (hnone : target m (n * pageSize) i = none) (ht : L t = none) {v : ℕ} (hv : v < 2 ^ 32) (hp : isPresent v)
    (hf : v / pageSize = t) (s : Slot) :
    dirFrame (setEntry (fill m (t * pageSize) pageSize 0) (n * pageSize) i v) (n * pageSize) s =
      if s = .table i then some t else dirFrame m (n * pageSize) s := by
  have hne : n ≠ t := Ledger.ne_of_free h.dir ht
  have hdir : ∀ k < 1024, target (setEntry (fill m (t * pageSize) pageSize 0) (n * pageSize) i v) (n * pageSize) k =
      if k = i then some t else target m (n * pageSize) k := by
    intro k hk
    rw [target_setEntry _ hv hi' hk, target_clear m hk, if_neg hne, if_pos hp, hf]
    simp
  cases s with
  | kstack => rfl
  | dir => rfl
  | pt0 =>
    have h0 : 0 ≠ i := by
      rintro rfl
      exact absurd hi (by decide)
    rw [if_neg (by simp)]
    simp only [dirFrame]
    rw [hdir 0 (by decide), if_neg h0]
  | table k =>
    simp only [dirFrame, Slot.table.injEq]
    by_cases hk : kernelPdeCount ≤ k ∧ k < tablesPerDir
    · rw [if_pos hk, if_pos hk, hdir k hk.2]
    · rw [if_neg hk, if_neg hk, if_neg]
      rintro rfl
      exact hk ⟨hi,hi'⟩
  | page k l =>
    rw [if_neg (by simp)]
    simp only [dirFrame]
    by_cases hk : (kernelPdeCount ≤ k ∧ k < tablesPerDir) ∧ l < pagesPerTable
    · rw [if_pos hk, if_pos hk, hdir k hk.1.2]
      by_cases hki : k = i
      · subst hki
        rw [if_pos rfl, hnone]
        simp only [Option.bind_some, Option.bind_none]
        rw [target_setEntry _ hv hi' hk.2, if_neg (fun hc => hne hc.1.symm), target_clear m hk.2, if_pos rfl]
      · rw [if_neg hki]
        cases ht' : target m (n * pageSize) k with
        | none => rfl
        | some t' =>
          have htn := h.table_ne_dir hk.1.1 hk.1.2 ht'
          have htt : t' ≠ t := Ledger.ne_of_free (h.table hk.1.1 hk.1.2 ht') ht
          simp only [Option.bind_some]
          rw [target_setEntry _ hv hi' hk.2, if_neg (fun hc => htn hc.1), target_clear m hk.2, if_neg htt]
    · rw [if_neg hk, if_neg hk]

end DirOwned

end ApPa.Memory

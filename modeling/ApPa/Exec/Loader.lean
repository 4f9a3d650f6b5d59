import ApPa.Exec.Plan
import ApPa.Memory.Access

/-! # Filling a new address space

A load takes free frames, fills them and maps them above the kernel range. Nothing that
was in use before is written, and the lower part of the new directory stays as the clone
made it.
-/
namespace ApPa.Exec
open ByteMem Memory Tasks Word32

/-- The address space in frame `n`, not yet that of a task, is filled further. -/
structure Fills (n : ℕ) (L : Frames) (p : Phys) (L' : Frames) (p' : Phys) : Prop where
  grows : Grows (fun _ => False) none L p L' p'
  owned : DirOwned L' none p'.mem n
  low : ∀ i < kernelPdeCount, entry p'.mem (n * pageSize) i = entry p.mem (n * pageSize) i
  pt0 : ∀ x, L (x / pageSize) = some (.task none .pt0) → p'.mem x = p.mem x

namespace Fills
variable {n : ℕ} {L L' L'' : Frames} {p p' p'' : Phys}

theorem refl (h : Accounts L p.pmm) (hd : DirOwned L none p.mem n) : Fills n L p L p :=
  ⟨Grows.refl h,hd,fun _ _ => rfl,fun _ _ => rfl⟩

theorem trans (h : Fills n L p L' p') (h' : Fills n L' p' L'' p'') : Fills n L p L'' p'' := by
  refine ⟨h.grows.trans h'.grows,h'.owned,fun i hi => (h'.low i hi).trans (h.low i hi),fun x hx => ?_⟩
  rw [h'.pt0 x (h.grows.ledger.keeps _ _ hx), h.pt0 x hx]

theorem userSpace {pg : Paging} (h : Fills n L p L' p') (hsp : UserSpace pg L none p.mem n) :
    UserSpace pg L' none p'.mem n :=
  hsp.congr h.owned (fun g hg => h.grows.ledger.keeps g _ hg) h.low

end Fills

section
variable {n : ℕ} {L L' : Frames} {p p' : Phys}

theorem fills_take (h : Accounts L p.pmm) (hd : DirOwned L none p.mem n) {a : ℕ} (ha : a < totalFrames)
    (hfree : L a = none) {i j : ℕ} {m : Mem} (hm : ∀ x, x / pageSize ≠ a → m x = p.mem x) :
    Fills n L p (Function.update L a (some (.task none (.page i j)))) ⟨m,p.pmm.setFrame a⟩ := by
  have hmem : ∀ x o, L (x / pageSize) = some o → m x = p.mem x := fun x o ho => hm x (Ledger.ne_of_free ho hfree)
  refine ⟨Grows.take _ _ h ha hfree _ hm,?_,fun k hk => ?_,fun x hx => hmem x _ hx⟩
  · refine hd.congr (fun f s hf => ?_) fun x s hx _ => hmem x _ hx
    rw [Function.update_of_ne (Ledger.ne_of_free hf hfree), hf]
  · exact entry_congr (Nat.lt_trans hk (by decide)) fun x hx => hmem x _ (hx ▸ hd.dir)

theorem fills_map (h : Accounts L p.pmm) (hd : DirOwned L none p.mem n) {virt a flags : ℕ}
    (hi : kernelPdeCount ≤ pageDirIndex virt) (ha : a < totalFrames)
    (hLa : L a = some (.task none (.page (pageDirIndex virt) (pageTableIndex virt))))
    (ho : MapOutcome none L p n virt a flags L' p') : Fills n L p L' p' := by
  have htable : ∀ t, target p.mem (n * pageSize) (pageDirIndex virt) = some t →
      L t = some (.task none (.table (pageDirIndex virt))) := fun t ht => hd.table hi (pageDirIndex_lt virt) ht
  refine ⟨ho.grows h hd hi _,ho.dirOwned hd hi ha hLa,fun k hk => ?_,fun x hx => ?_⟩
  · refine ho.entries hd.dir (fun t ht => ?_) (Nat.lt_trans hk (by decide)) (by omega)
    rintro rfl
    have hl := htable _ ht
    rw [hd.dir] at hl
    cases hl
  · refine ho.mem hx ?_ ?_
    · rintro rfl
      rw [hd.dir] at hx
      cases hx
    · rintro t ht rfl
      rw [htable _ ht] at hx
      cases hx

end

theorem copyRange_le {ph : Phdr} {vpage dst off len : ℕ} (h : copyRange ph vpage = some (dst, off, len)) :
    dst + len ≤ pageSize := by
  obtain ⟨hlt,rfl,_,rfl⟩ := copyRange_eq_some h
  have hle : add32 vpage pageSize ≤ vpage + pageSize := Nat.mod_le _ _
  omega

theorem fillPage_apply (f : File) (ph : Phdr) (m : Mem) (vpage : ℕ) {a x : ℕ} (hx : x / pageSize ≠ a) :
    fillPage f ph m (a * pageSize) vpage x = m x := by
  unfold fillPage
  cases hc : copyRange ph vpage with
  | none => exact clear_apply m hx
  | some r =>
    obtain ⟨dst,off,len⟩ := r
    have hle := copyRange_le hc
    dsimp only
    have hclear := clear_apply m hx
    by_cases hlt : x < a * pageSize + dst
    · rw [store_apply_of_lt _ hlt, hclear]
    · refine (store_apply_of_ge ?_).trans hclear
      rw [bytesAt, List.length_map, List.length_range]
      simp only [pageSize] at *
      omega

theorem segFlags_user (ph : Phdr) : segFlags ph &&& pageUser ≠ 0 := by
  unfold segFlags
  by_cases hw : ph.flags &&& pfW ≠ 0
  · rw [if_pos hw]
    decide
  · rw [if_neg hw]
    decide

/-! ## Frames taken by the pages -/

/-- A page of the user range. -/
structure UserPage (v : ℕ) : Prop where
  aligned : pageSize ∣ v
  low : 0x1000000 ≤ v
  high : v < 2 ^ 32

theorem Planned.userPage {size : ℕ} {x : Phdr × ℕ} (h : Planned size x) : UserPage x.2 := by
  obtain ⟨hdvd,hlo,hhi⟩ := h.bounds
  exact ⟨hdvd,hlo,by omega⟩

namespace UserPage
variable {v v' : ℕ}

theorem dirIndex (h : UserPage v) : kernelPdeCount ≤ pageDirIndex v := by
  obtain ⟨_,hlo,hhi⟩ := h
  rw [pageDirIndex_eq]
  simp only [kernelPdeCount] at *
  omega

theorem ext (h : UserPage v) (h' : UserPage v') (hi : pageDirIndex v = pageDirIndex v')
    (hj : pageTableIndex v = pageTableIndex v') : v = v' := by
  obtain ⟨⟨c,rfl⟩,_,hhi⟩ := h
  obtain ⟨⟨c',rfl⟩,_,hhi'⟩ := h'
  rw [pageDirIndex_eq, pageDirIndex_eq] at hi
  rw [pageTableIndex_eq, pageTableIndex_eq] at hj
  simp only [pageSize] at *
  omega

end UserPage

/-- Frames that mapping the pages takes: the pages and one table for each directory entry. -/
def need (vs : List ℕ) : ℕ := vs.length + (vs.map pageDirIndex).dedup.length

theorem need_append_old {vs : List ℕ} {v : ℕ} (h : pageDirIndex v ∈ vs.map pageDirIndex) :
    need (vs ++ [v]) = need vs + 1 := by
  have hperm : ((vs ++ [v]).map pageDirIndex).Perm (pageDirIndex v :: vs.map pageDirIndex) := by
    rw [List.map_append]
    exact List.perm_append_singleton (pageDirIndex v) (vs.map pageDirIndex)
  unfold need
  rw [hperm.dedup.length_eq, List.dedup_cons_of_mem h]
  simp
  omega

theorem need_append_new {vs : List ℕ} {v : ℕ} (h : pageDirIndex v ∉ vs.map pageDirIndex) :
    need (vs ++ [v]) = need vs + 2 := by
  have hperm : ((vs ++ [v]).map pageDirIndex).Perm (pageDirIndex v :: vs.map pageDirIndex) := by
    rw [List.map_append]
    exact List.perm_append_singleton (pageDirIndex v) (vs.map pageDirIndex)
  unfold need
  rw [hperm.dedup.length_eq, List.dedup_cons_of_notMem h]
  simp
  omega

/-- Every frame held for the new address space is reachable from its directory. -/
def Exact (L : Frames) (m : Mem) (n : ℕ) : Prop :=
  ∀ f s, L f = some (.task none s) → dirFrame m (n * pageSize) s = some f

/-- The pages `pre` are mapped, each in a frame of its own, out of `F` free frames. -/
structure Progress (F n : ℕ) (pre : List ℕ) (L : Frames) (m : Mem) : Prop where
  exact : Exact L m n
  tables : ∀ i, dirFrame m (n * pageSize) (.table i) ≠ none ↔ i ∈ pre.map pageDirIndex
  pages : ∀ v, UserPage v →
    (dirFrame m (n * pageSize) (.page (pageDirIndex v) (pageTableIndex v)) ≠ none ↔ v ∈ pre)
  free : Ledger.count (Finset.range totalFrames) L + F = totalFrames + need pre

/-- The next page can be mapped without losing a frame: it is new, and there is a frame left
for its table if it needs one. -/
def Fits (F : ℕ) (pre : List ℕ) (v : ℕ) : Prop :=
  v ∉ pre ∧ (pageDirIndex v ∈ pre.map pageDirIndex ∨ need pre + 2 ≤ F)

instance (F : ℕ) (pre : List ℕ) (v : ℕ) : Decidable (Fits F pre v) := inferInstanceAs (Decidable (_ ∧ _))

/-- As long as frames are left, every page fits. -/
def NoLeak (F : ℕ) (pre : List ℕ) : List ℕ → Prop
  | [] => True
  | v :: vs => need pre < F → Fits F pre v ∧ NoLeak F (pre ++ [v]) vs

instance decidableNoLeak (F : ℕ) : ∀ (vs pre : List ℕ), Decidable (NoLeak F pre vs)
  | [], _ => inferInstanceAs (Decidable True)
  | v :: vs, pre =>
    have := decidableNoLeak F vs (pre ++ [v])
    inferInstanceAs (Decidable (_ → _ ∧ _))

section
variable {F n v a flags : ℕ} {pre : List ℕ} {L L₁ L₂ : Frames} {p₁ p₂ : Phys} {m : Mem}

theorem dirFrame_mapped (ho : MapOutcome none L₁ p₁ n v a flags L₂ p₂) (hd : DirOwned L₁ none p₁.mem n)
    (hv : UserPage v) (ha : a < totalFrames) {s : Slot} {f : ℕ} (hf : dirFrame p₂.mem (n * pageSize) s = some f) :
    dirFrame p₁.mem (n * pageSize) s = some f ∨ f = a ∨ L₁ f = none := by
  cases ho with
  | present t ht =>
    rw [dirFrame_mapPresent hd hv.dirIndex ha flags ht] at hf
    split at hf
    · exact Or.inr (Or.inl (Option.some.inj hf).symm)
    · exact Or.inl hf
  | failed ht hfull => exact Or.inl hf
  | fresh t ht htlt hfree =>
    rw [dirFrame_mapFresh hd hv.dirIndex ha flags ht htlt hfree] at hf
    split at hf
    · exact Or.inr (Or.inl (Option.some.inj hf).symm)
    · split at hf
      · exact Or.inr (Or.inr (Option.some.inj hf ▸ hfree))
      · exact Or.inl hf

theorem not_exact_mapped (ho : MapOutcome none L₁ p₁ n v a flags L₂ p₂) (hd : DirOwned L₁ none p₁.mem n)
    (hv : UserPage v) (ha : a < totalFrames) {f : ℕ} {s : Slot} (hf : L₁ f = some (.task none s)) (hfa : f ≠ a)
    (hlost : dirFrame p₁.mem (n * pageSize) s ≠ some f) : ¬Exact L₂ p₂.mem n := by
  intro hex
  rcases dirFrame_mapped ho hd hv ha (hex f s (ho.ledger.keeps f _ hf)) with h | h | h
  · exact hlost h
  · exact hfa h
  · rw [hf] at h
    cases h

theorem dirFrame_table (hv : UserPage v) (m : Mem) :
    dirFrame m (n * pageSize) (.table (pageDirIndex v)) = target m (n * pageSize) (pageDirIndex v) :=
  if_pos ⟨hv.dirIndex,pageDirIndex_lt v⟩

theorem dirFrame_page_ne_none
    (h : dirFrame m (n * pageSize) (.page (pageDirIndex v) (pageTableIndex v)) ≠ none) :
    target m (n * pageSize) (pageDirIndex v) ≠ none := by
  intro hnone
  apply h
  simp only [dirFrame]
  rw [hnone]
  simp

/-- The page `v` went into frame `a` of the directory in frame `n`, and `t` is the frame of its table. -/
structure PageAdded (n v a t : ℕ) (L : Frames) (m : Mem) (L' : Frames) (m' : Mem) : Prop where
  dir : ∀ s, dirFrame m' (n * pageSize) s = if s = .page (pageDirIndex v) (pageTableIndex v) then some a
    else if s = .table (pageDirIndex v) then some t else dirFrame m (n * pageSize) s
  label : ∀ f s, L' f = some (.task none s) → f = a ∧ s = .page (pageDirIndex v) (pageTableIndex v) ∨
    f = t ∧ s = .table (pageDirIndex v) ∨ s ≠ .table (pageDirIndex v) ∧ L f = some (.task none s)

section
variable {t : ℕ} {m' : Mem} (hp : Progress F n pre L m)
include hp

theorem PageAdded.present (htab : dirFrame m (n * pageSize) (.table (pageDirIndex v)) = some t)
    (hdir : ∀ s, dirFrame m' (n * pageSize) s =
      if s = .page (pageDirIndex v) (pageTableIndex v) then some a else dirFrame m (n * pageSize) s) :
    PageAdded n v a t L m (Function.update L a (some (.task none (.page (pageDirIndex v) (pageTableIndex v))))) m' := by
  refine ⟨fun s => ?_,fun f s hf => ?_⟩
  · rw [hdir]
    by_cases hs : s = .table (pageDirIndex v)
    · rw [hs, if_pos rfl, htab]
    · rw [if_neg hs]
  · by_cases hfa : f = a
    · subst hfa
      rw [Function.update_self, Option.some.injEq, Owner.task.injEq] at hf
      exact Or.inl ⟨rfl,hf.2.symm⟩
    · rw [Function.update_of_ne hfa] at hf
      by_cases hs : s = .table (pageDirIndex v)
      · have hex := hp.exact f s hf
        rw [hs, htab, Option.some.injEq] at hex
        exact Or.inr (Or.inl ⟨hex.symm,hs⟩)
      · exact Or.inr (Or.inr ⟨hs,hf⟩)

theorem PageAdded.fresh (htab : dirFrame m (n * pageSize) (.table (pageDirIndex v)) = none)
    (hdir : ∀ s, dirFrame m' (n * pageSize) s = if s = .page (pageDirIndex v) (pageTableIndex v) then some a
      else if s = .table (pageDirIndex v) then some t else dirFrame m (n * pageSize) s) :
    PageAdded n v a t L m (Function.update (Function.update L a
      (some (.task none (.page (pageDirIndex v) (pageTableIndex v))))) t (some (.task none (.table (pageDirIndex v))))) m' := by
  refine ⟨hdir,fun f s hf => ?_⟩
  by_cases hft : f = t
  · subst hft
    rw [Function.update_self, Option.some.injEq, Owner.task.injEq] at hf
    exact Or.inr (Or.inl ⟨rfl,hf.2.symm⟩)
  · rw [Function.update_of_ne hft] at hf
    by_cases hfa : f = a
    · subst hfa
      rw [Function.update_self, Option.some.injEq, Owner.task.injEq] at hf
      exact Or.inl ⟨rfl,hf.2.symm⟩
    · rw [Function.update_of_ne hfa] at hf
      refine Or.inr (Or.inr ⟨?_,hf⟩)
      rintro rfl
      have hex := hp.exact f _ hf
      rw [htab] at hex
      cases hex

theorem Progress.extend (hv : UserPage v) (hnew : v ∉ pre) (hadd : PageAdded n v a t L m L₂ m')
    (hcount : Ledger.count (Finset.range totalFrames) L₂ + F = totalFrames + need (pre ++ [v])) :
    Progress F n (pre ++ [v]) L₂ m' := by
  have hpage : dirFrame m (n * pageSize) (.page (pageDirIndex v) (pageTableIndex v)) = none := by
    by_contra hne
    exact hnew ((hp.pages v hv).mp hne)
  refine ⟨fun f s hf => ?_,fun i => ?_,fun v' hv' => ?_,hcount⟩
  · rw [hadd.dir s]
    rcases hadd.label f s hf with ⟨rfl,rfl⟩ | ⟨rfl,rfl⟩ | ⟨hs,hf⟩
    · exact if_pos rfl
    · rw [if_neg (by simp), if_pos rfl]
    · have hold := hp.exact f s hf
      rw [if_neg ?_, if_neg hs, hold]
      rintro rfl
      rw [hpage] at hold
      cases hold
  · rw [hadd.dir, if_neg (by simp), List.map_append, List.mem_append, ← hp.tables i]
    by_cases hi : i = pageDirIndex v
    · simp [hi]
    · simp [hi]
  · rw [hadd.dir, List.mem_append, ← hp.pages v' hv']
    by_cases heq : v' = v
    · simp [heq]
    · have hne : ¬(Slot.page (pageDirIndex v') (pageTableIndex v') = .page (pageDirIndex v) (pageTableIndex v)) :=
        fun hc => heq (hv'.ext hv (Slot.page.inj hc).1 (Slot.page.inj hc).2)
      rw [if_neg hne, if_neg (by simp)]
      simp [heq]

end

section
variable (hfree : L a = none) (hp : Progress F n pre L p₁.mem) (hv : UserPage v) (ha : a < totalFrames)
  (hd₀ : DirOwned L none p₁.mem n)
  (ho : MapOutcome none (Function.update L a (some (.task none (.page (pageDirIndex v) (pageTableIndex v))))) p₁
    n v a flags L₂ p₂)
include hfree hp hv ha hd₀ ho

theorem Progress.step (hfits : Fits F pre v) : Progress F n (pre ++ [v]) L₂ p₂.mem := by
  have hd := hd₀.take hfree (.page (pageDirIndex v) (pageTableIndex v))
  have hcount := Ledger.count_take (Finset.mem_range.mpr ha) hfree
    (Owner.task none (.page (pageDirIndex v) (pageTableIndex v)))
  have hbudget := hp.free
  -- a slot of the directory is in use exactly when a page before `v` shares it
  have htable := hp.tables (pageDirIndex v)
  rw [dirFrame_table hv] at htable
  cases ho with
  | present t ht =>
    have hadd := PageAdded.present hp (by rw [dirFrame_table hv, ht])
      fun s => dirFrame_mapPresent hd hv.dirIndex ha flags ht s
    refine hp.extend hv hfits.1 hadd ?_
    rw [hcount, need_append_old (htable.mp (by simp [ht]))]
    omega
  | failed ht hfull =>
    exfalso
    have hfullc := Ledger.count_eq_card fun f hf => hfull f (Finset.mem_range.mp hf)
    rw [hcount, Finset.card_range] at hfullc
    rcases hfits.2 with hold | hleft
    · exact htable.mpr hold ht
    · omega
  | fresh t ht htlt htfree =>
    have hadd := PageAdded.fresh hp (by rw [dirFrame_table hv, ht])
      fun s => dirFrame_mapFresh hd hv.dirIndex ha flags ht htlt htfree s
    refine hp.extend hv hfits.1 hadd ?_
    rw [Ledger.count_take (Finset.mem_range.mpr htlt) htfree, hcount, need_append_new fun hold => htable.mpr hold ht]
    omega

/-- A page that does not fit loses a frame. -/
theorem Progress.lose (hfits : ¬Fits F pre v) : ¬Exact L₂ p₂.mem n := by
  have hd := hd₀.take hfree (.page (pageDirIndex v) (pageTableIndex v))
  have hbudget := hp.free
  have hcount := Ledger.count_take (Finset.mem_range.mpr ha) hfree
    (Owner.task none (.page (pageDirIndex v) (pageTableIndex v)))
  have hleft := Ledger.count_lt_card (Finset.mem_range.mpr ha) hfree
  rw [Finset.card_range] at hleft
  by_cases hmem : v ∈ pre
  · -- the page was mapped before: the frame that held it is still marked
    have hne := (hp.pages v hv).mpr hmem
    obtain ⟨f,hf⟩ := Option.ne_none_iff_exists'.mp hne
    have hfa : f ≠ a := Ledger.ne_of_free (hd₀.owned _ f hf) hfree
    intro hex
    have hnow := hex f _ (ho.ledger.keeps f _ (hd.owned _ f hf))
    cases ho with
    | present t ht =>
      rw [dirFrame_mapPresent hd hv.dirIndex ha flags ht, if_pos rfl, Option.some.injEq] at hnow
      exact hfa hnow.symm
    | failed ht hfull => exact dirFrame_page_ne_none hne ht
    | fresh t ht htlt htfree => exact dirFrame_page_ne_none hne ht
  · -- there is no frame for the table, so the page is not mapped at all
    have hnew : pageDirIndex v ∉ pre.map pageDirIndex := fun hold => hfits ⟨hmem,Or.inl hold⟩
    have hshort : ¬need pre + 2 ≤ F := fun hle => hfits ⟨hmem,Or.inr hle⟩
    have htab : dirFrame p₁.mem (n * pageSize) (.table (pageDirIndex v)) = none := by
      by_contra hne
      exact hnew ((hp.tables _).mp hne)
    rw [dirFrame_table hv] at htab
    intro hex
    have hnow := hex a _ (ho.ledger.keeps a _ (Function.update_self ..))
    cases ho with
    | present t ht =>
      rw [htab] at ht
      cases ht
    | failed ht hfull =>
      exact hmem ((hp.pages v hv).mp (by simp [hnow]))
    | fresh t ht htlt htfree =>
      have hlt := Ledger.count_lt_card (Finset.mem_range.mpr htlt) htfree
      rw [hcount, Finset.card_range] at hlt
      omega

end

end

/-- The step of every page loop: a frame is taken and filled, then mapped. -/
theorem place_page {n v a flags : ℕ} {L : Frames} {p : Phys} {m : Mem} (h : Accounts L p.pmm)
    (hd : DirOwned L none p.mem n) (hv : UserPage v) (ha : a < totalFrames) (hfree : L a = none)
    (hm : ∀ x, x / pageSize ≠ a → m x = p.mem x) (hu : flags &&& pageUser ≠ 0) :
    ∃ L', Fills n L p L' (pagingMapPageIn ⟨m,p.pmm.setFrame a⟩ (n * pageSize) v (a * pageSize) flags) ∧
      L' a = some (.task none (.page (pageDirIndex v) (pageTableIndex v))) ∧
      (¬Exact L p.mem n → ¬Exact L'
        (pagingMapPageIn ⟨m,p.pmm.setFrame a⟩ (n * pageSize) v (a * pageSize) flags).mem n) ∧
      ∀ F pre, Progress F n pre L p.mem →
        (Fits F pre v → Progress F n (pre ++ [v]) L'
          (pagingMapPageIn ⟨m,p.pmm.setFrame a⟩ (n * pageSize) v (a * pageSize) flags).mem) ∧
        (¬Fits F pre v → ¬Exact L'
          (pagingMapPageIn ⟨m,p.pmm.setFrame a⟩ (n * pageSize) v (a * pageSize) flags).mem n) := by
  have h1 := fills_take h hd ha hfree (i := pageDirIndex v) (j := pageTableIndex v) hm
  obtain ⟨L₂,ho⟩ := pagingMapPageIn_outcome none n v a h1.grows.accounts hu
  have h2 := fills_map h1.grows.accounts h1.owned hv.dirIndex ha (Function.update_self ..) ho
  have hkeep : ∀ x s, L (x / pageSize) = some (.task none s) → m x = p.mem x :=
    fun x s hx => hm x (Ledger.ne_of_free hx hfree)
  have hdir : dirFrame m (n * pageSize) = dirFrame p.mem (n * pageSize) := hd.dirFrame_congr fun x s hx _ => hkeep x s hx
  have hd₀ : DirOwned L none m n := hd.congr (fun _ _ hf => hf) fun x s hx _ => hkeep x s hx
  refine ⟨L₂,h1.trans h2,ho.ledger.keeps _ _ (Function.update_self ..),fun hlost => ?_,fun F pre hp => ?_⟩
  · unfold Exact at hlost
    push Not at hlost
    obtain ⟨f,s,hf,hne⟩ := hlost
    have hfa := Ledger.ne_of_free hf hfree
    refine not_exact_mapped ho h1.owned hv ha (by rw [Function.update_of_ne hfa, hf]) hfa ?_
    rwa [hdir]
  · have hp' : Progress F n pre L m := ⟨fun f s hf => hdir ▸ hp.exact f s hf,fun i => hdir ▸ hp.tables i,
      fun v' hv' => hdir ▸ hp.pages v' hv',hp.free⟩
    exact ⟨fun hfits => hp'.step hfree hv ha hd₀ ho hfits,fun hfits => hp'.lose hfree hv ha hd₀ ho hfits⟩

theorem loadAll_turn (f : File) (dir : ℕ) (ph : Phdr) (vpage : ℕ) {L : Frames} {p : Phys} (h : Accounts L p.pmm) :
    ((∀ g < totalFrames, L g ≠ none) ∧ ∀ pages, loadAll f dir p ((ph, vpage) :: pages) = (false, p)) ∨
      ∃ a < totalFrames, L a = none ∧ p.allocPage.1 = a * pageSize ∧ ∀ pages, loadAll f dir p ((ph, vpage) :: pages) =
        loadAll f dir (pagingMapPageIn ⟨fillPage f ph p.mem (a * pageSize) vpage,p.pmm.setFrame a⟩ dir vpage (a * pageSize)
          (segFlags ph)) pages := by
  rcases Phys.alloc_cases h with ⟨he,hfull⟩ | ⟨a,hpos,ha,hfree,he⟩
  · exact Or.inl ⟨hfull,fun _ => by simp only [loadAll, he, ↓reduceIte]⟩
  · have hz : a * pageSize ≠ 0 := Nat.mul_ne_zero (Nat.ne_of_gt hpos) (by decide)
    exact Or.inr ⟨a,ha,hfree,congrArg Prod.fst he,fun _ => by simp only [loadAll, he, hz, ↓reduceIte]⟩

/-- The page loops fill the new address space, whether or not memory suffices, and they lose
no frame exactly when every page fits. The frame of the last page is held for that page. -/
theorem loadAll_fills (f : File) {n : ℕ} {pages : List (Phdr × ℕ)} (hpages : ∀ x ∈ pages, UserPage x.2)
    {L : Frames} {p : Phys} (h : Accounts L p.pmm) (hd : DirOwned L none p.mem n) :
    ∃ L', Fills n L p L' (loadAll f (n * pageSize) p pages).2 ∧
      (∀ pages' x, pages = pages' ++ [x] → (loadAll f (n * pageSize) p pages).1 = true →
        ∃ a < totalFrames, (loadAll f (n * pageSize) p pages').2.allocPage.1 = a * pageSize ∧
          L' a = some (.task none (.page (pageDirIndex x.2) (pageTableIndex x.2)))) ∧
      (¬Exact L p.mem n → ¬Exact L' (loadAll f (n * pageSize) p pages).2.mem n) ∧
      ∀ F pre, Progress F n pre L p.mem →
        (NoLeak F pre (pages.map (·.2)) → Exact L' (loadAll f (n * pageSize) p pages).2.mem n ∧
          ((loadAll f (n * pageSize) p pages).1 = true →
            Progress F n (pre ++ pages.map (·.2)) L' (loadAll f (n * pageSize) p pages).2.mem)) ∧
        (¬NoLeak F pre (pages.map (·.2)) → ¬Exact L' (loadAll f (n * pageSize) p pages).2.mem n) := by
  induction pages generalizing L p with
  | nil =>
    refine ⟨L,Fills.refl h hd,fun pages' x he => ?_,fun hlost => hlost,
      fun F pre hp => ⟨fun _ => ⟨hp.exact,fun _ => ?_⟩,fun hn => ?_⟩⟩
    · simp at he
    · rw [List.map_nil, List.append_nil]
      exact hp
    · exact absurd trivial hn
  | cons x pages ih =>
    obtain ⟨ph,vpage⟩ := x
    have hv := hpages _ List.mem_cons_self
    have hrest : ∀ x ∈ pages, UserPage x.2 := fun x hx => hpages x (List.mem_cons_of_mem _ hx)
    rcases loadAll_turn f (n * pageSize) ph vpage h with ⟨hfull,hload⟩ | ⟨a,ha,hfree,he,hload⟩
    · rw [hload]
      refine ⟨L,Fills.refl h hd,fun _ _ _ hok => Bool.noConfusion hok,fun hlost => hlost,
        fun F pre hp => ⟨fun _ => ⟨hp.exact,Bool.noConfusion⟩,fun hn => ?_⟩⟩
      have hcount := Ledger.count_eq_card fun f hf => hfull f (Finset.mem_range.mp hf)
      have hbudget := hp.free
      rw [hcount, Finset.card_range] at hbudget
      exact absurd (fun hlt => by omega) hn
    · obtain ⟨L₁,h1,hlabel,hlost1,hprog1⟩ := place_page h hd hv ha hfree
        (fun x hx => fillPage_apply f ph p.mem vpage hx) (segFlags_user ph)
      obtain ⟨L₂,h2,hlast,hlost2,hprog2⟩ := ih hrest h1.grows.accounts h1.owned
      rw [hload]
      refine ⟨L₂,h1.trans h2,fun pages' x hx hok => ?_,fun hlost => hlost2 (hlost1 hlost),fun F pre hp => ?_⟩
      · cases pages' with
        | nil =>
          rw [List.nil_append, List.cons.injEq] at hx
          refine ⟨a,ha,he,?_⟩
          rw [← hx.1]
          exact h2.grows.ledger.keeps _ _ hlabel
        | cons y pages' =>
          rw [List.cons_append, List.cons.injEq] at hx
          rw [← hx.1, hload]
          exact hlast pages' x hx.2 hok
      have hlt : need pre < F := by
        have hcount := Ledger.count_lt_card (Finset.mem_range.mpr ha) hfree
        have hbudget := hp.free
        rw [Finset.card_range] at hcount
        omega
      obtain ⟨hstep,hlose⟩ := hprog1 F pre hp
      refine ⟨fun hno => ?_,fun hleak => ?_⟩
      · obtain ⟨hfits,hno⟩ := hno hlt
        obtain ⟨hex,hok⟩ := (hprog2 F (pre ++ [vpage]) (hstep hfits)).1 hno
        refine ⟨hex,fun htrue => ?_⟩
        have hprog := hok htrue
        rwa [List.append_assoc, List.singleton_append] at hprog
      · by_cases hfits : Fits F pre vpage
        · refine (hprog2 F (pre ++ [vpage]) (hstep hfits)).2 fun hno => hleak fun _ => ⟨hfits,hno⟩
        · exact hlost2 (hlose hfits)

/-- With two frames for every page, a load gets through. -/
theorem loadAll_room (f : File) {n : ℕ} {pages : List (Phdr × ℕ)} {L : Frames} {p : Phys} (h : Accounts L p.pmm)
    (hroom : p.pmm.usedFrames.toNat + 2 * pages.length ≤ totalFrames) :
    (loadAll f (n * pageSize) p pages).1 = true ∧
      (loadAll f (n * pageSize) p pages).2.pmm.usedFrames.toNat ≤ p.pmm.usedFrames.toNat + 2 * pages.length := by
  induction pages generalizing L p with
  | nil => exact ⟨rfl,Nat.le_refl _⟩
  | cons x pages ih =>
    obtain ⟨ph,vpage⟩ := x
    rw [List.length_cons] at hroom ⊢
    rcases loadAll_turn f (n * pageSize) ph vpage h with ⟨hfull,_⟩ | ⟨a,ha,hfree,_,hload⟩
    · have hused := h.full hfull
      omega
    · have htake := Ledger.count_take (Finset.mem_range.mpr ha) hfree Owner.lost
      obtain ⟨L₁,ho⟩ := pagingMapPageIn_outcome (p := ⟨fillPage f ph p.mem (a * pageSize) vpage,p.pmm.setFrame a⟩) none n
        vpage a (h.take ha hfree .lost) (segFlags_user ph)
      have hacc := ho.accounts (h.take ha hfree .lost)
      have hle := ho.count_le
      rw [hload]
      rw [← hacc.count, htake, ← h.count] at hle
      obtain ⟨hok,hused⟩ := ih hacc (by omega)
      exact ⟨hok,hused.trans (by omega)⟩

/-! ## Pages opened to the task -/

theorem loadAll_full (f : File) (dir : ℕ) {pages : List (Phdr × ℕ)} {L : Frames} {p : Phys} (h : Accounts L p.pmm)
    (hfull : ∀ g < totalFrames, L g ≠ none) (hok : (loadAll f dir p pages).1 = true) : pages = [] := by
  cases pages with
  | nil => rfl
  | cons x pages =>
    rcases loadAll_turn f dir x.1 x.2 h with ⟨_,hload⟩ | ⟨a,ha,hfree,_⟩
    · rw [hload] at hok
      cases hok
    · exact absurd hfree (hfull a ha)

/-- A load that succeeds with memory to spare opens the pages of the plan. -/
theorem loadAll_opens (f : File) {pg : Paging} {n : ℕ} {pages : List (Phdr × ℕ)} (hpages : ∀ x ∈ pages, UserPage x.2)
    {L : Frames} {p : Phys} (h : Accounts L p.pmm) (hsp : UserSpace pg L none p.mem n) {ws : List ℕ}
    (ho : Opens p.mem n ws) (hok : (loadAll f (n * pageSize) p pages).1 = true)
    (hroom : ∃ g < totalFrames, (loadAll f (n * pageSize) p pages).2.pmm.testFrame g = false) :
    Opens (loadAll f (n * pageSize) p pages).2.mem n (ws ++ pages.map (·.2)) := by
  induction pages generalizing L p ws with
  | nil =>
    rw [List.map_nil, List.append_nil]
    exact ho
  | cons x pages ih =>
    obtain ⟨ph,vpage⟩ := x
    rcases loadAll_turn f (n * pageSize) ph vpage h with ⟨_,hload⟩ | ⟨a,ha,hfree,_,hload⟩
    · rw [hload] at hok
      cases hok
    · rw [hload] at hok hroom ⊢
      obtain ⟨L₁,hg,hsp1,_,_,hopens⟩ := hsp.placePage vpage (segFlags ph) h (hpages _ List.mem_cons_self).dirIndex ha hfree
        (fun x hx => fillPage_apply f ph p.mem vpage hx) (segFlags_user ph)
      have hacc := (hg fun _ => False).accounts
      rcases hopens with ⟨hop,_⟩ | ⟨_,hfull,_⟩
      · have hrest := ih (fun x hx => hpages x (List.mem_cons_of_mem _ hx)) hacc hsp1 (hop ws ho) hok hroom
        rwa [List.append_assoc, List.singleton_append] at hrest
      · -- the table of this page was not to be had, so no frame is left
        obtain rfl := loadAll_full f _ hacc hfull hok
        obtain ⟨g,hg,hfreeg⟩ := hroom
        have hused : (pagingMapPageIn ⟨fillPage f ph p.mem (a * pageSize) vpage,p.pmm.setFrame a⟩ (n * pageSize) vpage
            (a * pageSize) (segFlags ph)).pmm.testFrame g = true := by
          rw [hacc.used]
          exact Option.isSome_iff_ne_none.mpr (hfull g hg)
        rw [loadAll, hused] at hfreeg
        cases hfreeg

end ApPa.Exec

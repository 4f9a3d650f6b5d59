import ApPa.Memory.Directory

/-! # Building and freeing address spaces

What `paging_clone_directory`, `paging_map_page_in` and `paging_free_directory` do to
memory and to the ledger of frames.
-/
namespace ApPa.Memory
open ByteMem Word32

/-- The kernel's own directory and its four tables. -/
structure KernelMap (pg : Paging) (m : Mem) (L : Frames) : Prop where
  dir : ∃ n, pg.kernelDirectory = n * pageSize ∧ L n = some .kernel
  table : ∀ i < kernelPdeCount, ∃ n, pg.pdTables i = n * pageSize ∧ L n = some .kernelTable
  entries : ∀ i < kernelPdeCount, entry m pg.kernelDirectory i = pg.pdTables i + 3
  inj : ∀ i < kernelPdeCount, ∀ j < kernelPdeCount, pg.pdTables i = pg.pdTables j → i = j

/-- Work for `tag`: it takes free frames for `tag`, and writes to frames that were free, to
those of `tag`, and to those of the owners in `W`. -/
structure Grows (W : Owner → Prop) (tag : Option (Fin 64)) (L : Frames) (p : Phys) (L' : Frames) (p' : Phys) :
    Prop where
  accounts : Accounts L' p'.pmm
  errors : p'.pmm.errors = p.pmm.errors
  ledger : Ledger.Extends (fun o => ∃ s, o = .task tag s) L L'
  mem : ∀ x o, L (x / pageSize) = some o → ¬W o → (∀ s, o ≠ .task tag s) → p'.mem x = p.mem x

namespace Grows
variable {W : Owner → Prop} {tag : Option (Fin 64)} {L L' L'' : Frames} {p p' p'' : Phys}

theorem refl (h : Accounts L p.pmm) : Grows W tag L p L p :=
  ⟨h,rfl,Ledger.Extends.refl _ L,fun _ _ _ _ _ => rfl⟩

theorem trans (h : Grows W tag L p L' p') (h' : Grows W tag L' p' L'' p'') : Grows W tag L p L'' p'' := by
  refine ⟨h'.accounts,h'.errors.trans h.errors,h.ledger.trans h'.ledger,fun x o ho hw hs => ?_⟩
  rw [h'.mem x o (h.ledger.keeps _ _ ho) hw hs, h.mem x o ho hw hs]

theorem mono {W' : Owner → Prop} (h : Grows W tag L p L' p') (hw : ∀ o, W o → W' o) : Grows W' tag L p L' p' :=
  ⟨h.accounts,h.errors,h.ledger,fun x o ho hn hs => h.mem x o ho (fun hc => hn (hw o hc)) hs⟩

theorem kernelMap (h : Grows W tag L p L' p') (hw : ¬W .kernel) {pg : Paging} (hk : KernelMap pg p.mem L) :
    KernelMap pg p'.mem L' := by
  obtain ⟨n,hn,hL⟩ := hk.dir
  refine ⟨⟨n,hn,h.ledger.keeps _ _ hL⟩,fun i hi => ?_,fun i hi => ?_,hk.inj⟩
  · obtain ⟨t,ht,hLt⟩ := hk.table i hi
    exact ⟨t,ht,h.ledger.keeps _ _ hLt⟩
  · rw [← hk.entries i hi, hn]
    refine entry_congr (Nat.lt_trans hi (by decide)) fun x hx => ?_
    exact h.mem x .kernel (hx ▸ hL) hw fun s => Owner.noConfusion

end Grows

namespace Phys

theorem alloc_cases {L : Frames} {p : Phys} (h : Accounts L p.pmm) :
    (p.allocPage = (0, p) ∧ ∀ n < totalFrames, L n ≠ none) ∨
      ∃ n, 0 < n ∧ n < totalFrames ∧ L n = none ∧ p.allocPage = (n * pageSize, { p with pmm := p.pmm.setFrame n }) := by
  unfold allocPage
  rcases h.alloc with ⟨he,hall⟩ | ⟨n,hpos,hn,hfree,he⟩
  · exact Or.inl ⟨by rw [he],hall⟩
  · exact Or.inr ⟨n,hpos,hn,hfree,by rw [he]⟩

end Phys

theorem Grows.take (W : Owner → Prop) (tag : Option (Fin 64)) {L : Frames} {p : Phys} {n : ℕ} {m : Mem}
    (h : Accounts L p.pmm) (hn : n < totalFrames) (hfree : L n = none) (s : Slot)
    (hm : ∀ x, x / pageSize ≠ n → m x = p.mem x) :
    Grows W tag L p (Function.update L n (some (.task tag s))) ⟨m,p.pmm.setFrame n⟩ := by
  exact ⟨h.take hn hfree _,rfl,Ledger.Extends.take hfree ⟨s,rfl⟩,fun x o ho _ _ => hm x (Ledger.ne_of_free ho hfree)⟩

/-! ## Cloning the kernel directory -/

theorem copyKernelEntries_spec (pg : Paging) {n kd : ℕ} (hkd : pg.kernelDirectory = kd * pageSize) (hne : kd ≠ n)
    (c i : ℕ) (hc : i + c ≤ 1024) (p : Phys) :
    (copyKernelEntries pg (n * pageSize) p i c).pmm = p.pmm ∧
      (∀ x, x / pageSize ≠ n → (copyKernelEntries pg (n * pageSize) p i c).mem x = p.mem x) ∧
      ∀ k < 1024, entry (copyKernelEntries pg (n * pageSize) p i c).mem (n * pageSize) k =
        if i ≤ k ∧ k < i + c then entry p.mem pg.kernelDirectory k else entry p.mem (n * pageSize) k := by
  induction c generalizing i p with
  | zero =>
    refine ⟨rfl,fun x _ => rfl,fun k hk => ?_⟩
    rw [if_neg (by omega)]
    rfl
  | succ c ih =>
    let p₁ := p.setEntry (n * pageSize) i (entry p.mem pg.kernelDirectory i)
    obtain ⟨hpmm,hmem,hentry⟩ := ih (i + 1) (by omega) p₁
    have hi : i < 1024 := by omega
    refine ⟨hpmm,fun x hx => (hmem x hx).trans (setEntry_apply _ _ hi hx),fun k hk => ?_⟩
    rw [copyKernelEntries, hentry k hk]
    have hkern : entry p₁.mem pg.kernelDirectory k = entry p.mem pg.kernelDirectory k := by
      rw [hkd]
      exact (entry_setEntry p.mem _ hi hk).trans (if_neg fun hc => hne hc.1)
    have hself : entry p₁.mem (n * pageSize) k =
        if k = i then entry p.mem pg.kernelDirectory i else entry p.mem (n * pageSize) k := by
      refine (entry_setEntry p.mem _ hi hk).trans ?_
      rw [Nat.mod_eq_of_lt (entry_lt _ _ _)]
      simp
    rw [hkern, hself]
    by_cases hki : k = i
    · subst hki
      rw [if_neg (by omega), if_pos rfl, if_pos (by omega)]
    · rw [if_neg hki]
      by_cases hlt : i + 1 ≤ k ∧ k < i + 1 + c
      · rw [if_pos hlt, if_pos (by omega)]
      · rw [if_neg hlt, if_neg (by omega)]

/-- A fresh directory in frame `n` with its private table in frame `t`. -/
structure Cloned (pg : Paging) (tag : Option (Fin 64)) (L : Frames) (p : Phys) (n t : ℕ) (L' : Frames) (p' : Phys) :
    Prop where
  ledger : L' = Function.update (Function.update L n (some (.task tag .dir))) t (some (.task tag .pt0))
  free : L n = none ∧ L t = none
  nonzero : 0 < n
  distinct : n ≠ t
  grows : ∀ W, Grows W tag L p L' p'
  entry_zero : entry p'.mem (n * pageSize) 0 = t * pageSize + 3
  entry_low : ∀ i, 1 ≤ i → i < kernelPdeCount → entry p'.mem (n * pageSize) i = entry p.mem pg.kernelDirectory i
  entry_high : ∀ i, kernelPdeCount ≤ i → i < 1024 → entry p'.mem (n * pageSize) i = 0
  table_zero : ∀ j < 1024, entry p'.mem (t * pageSize) j = entry p.mem (pg.pdTables 0) j

theorem entry_copyTable (m : Mem) {t k j : ℕ} (hj : j < 1024) :
    entry (store m (t * pageSize) (load m (k * pageSize) pageSize)) (t * pageSize) j = entry m (k * pageSize) j := by
  refine read32_copy m ?_
  simp only [pageSize]
  omega

theorem copyTable_apply (m : Mem) {t k x : ℕ} (hx : x / pageSize ≠ t) :
    store m (t * pageSize) (load m (k * pageSize) pageSize) x = m x := by
  by_cases hlt : x < t * pageSize
  · exact store_apply_of_lt _ hlt
  · refine store_apply_of_ge ?_
    rw [load_length]
    simp only [pageSize] at *
    omega

/-- Memory once frame `n` is a cleared directory whose first entry is frame `t`, a copy of the kernel's first table. -/
def cloneMem (pg : Paging) (m : Mem) (n t : ℕ) : Mem :=
  let m := fill m (n * pageSize) pageSize 0
  let m := store m (t * pageSize) (load m (pg.pdTables 0) pageSize)
  setEntry m (n * pageSize) 0 (t * pageSize ||| pagePresent ||| pageWritable)

section cloneMem
variable {pg : Paging} {n t k : ℕ} (hk : pg.pdTables 0 = k * pageSize) (m : Mem)
include hk

theorem cloneMem_apply {x : ℕ} (hxn : x / pageSize ≠ n) (hxt : x / pageSize ≠ t) : cloneMem pg m n t x = m x := by
  refine (setEntry_apply _ _ (by decide) hxn).trans ?_
  rw [hk, copyTable_apply _ hxt, clear_apply m hxn]

theorem entry_cloneMem_dir (hne : t ≠ n) (ht : t < totalFrames) {i : ℕ} (hi : i < 1024) :
    entry (cloneMem pg m n t) (n * pageSize) i = if i = 0 then t * pageSize + 3 else 0 := by
  have hv : t * pageSize ||| pagePresent ||| pageWritable = t * pageSize + 3 := by
    rw [Nat.or_assoc]
    exact frame_lor t (by decide)
  have hvlt : t * pageSize + 3 < 2 ^ 32 := by
    simp only [totalFrames, pageSize] at ht ⊢
    omega
  refine (entry_setEntry _ _ (by decide) hi).trans ?_
  rw [hv, Nat.mod_eq_of_lt hvlt]
  by_cases h0 : i = 0
  · rw [if_pos ⟨rfl,h0⟩, if_pos h0]
  · rw [if_neg (fun hc => h0 hc.2), if_neg h0, hk]
    refine (entry_congr hi fun x hx => ?_).trans ((entry_clear m hi).trans (if_pos rfl))
    exact copyTable_apply _ (by rw [hx]; exact Ne.symm hne)

theorem entry_cloneMem_table (hne : t ≠ n) (hkn : k ≠ n) {j : ℕ} (hj : j < 1024) :
    entry (cloneMem pg m n t) (t * pageSize) j = entry m (k * pageSize) j := by
  refine (entry_congr hj fun x hx => setEntry_apply _ _ (by decide) (hx ▸ hne)).trans ?_
  rw [hk, entry_copyTable _ hj]
  exact entry_congr hj fun x hx => clear_apply m (hx ▸ hkn)

end cloneMem

section clone
variable {pg : Paging} {L : Frames} {p : Phys}

theorem Cloned.build (h : Accounts L p.pmm) (hk : KernelMap pg p.mem L) (tag : Option (Fin 64)) {n t : ℕ} (hpos : 0 < n)
    (hn : n < totalFrames) (hnfree : L n = none) (ht : t < totalFrames) (htfree : L t = none) (hne : t ≠ n) :
    Cloned pg tag L p n t (Function.update (Function.update L n (some (.task tag .dir))) t (some (.task tag .pt0)))
      (copyKernelEntries pg (n * pageSize) ⟨cloneMem pg p.mem n t,(p.pmm.setFrame n).setFrame t⟩ 1 3) := by
  obtain ⟨kd,hkd,hLkd⟩ := hk.dir
  obtain ⟨k0,hk0,hLk0⟩ := hk.table 0 (by decide)
  have hkdn : kd ≠ n := Ledger.ne_of_free hLkd hnfree
  have hkdt : kd ≠ t := Ledger.ne_of_free hLkd htfree
  have hk0n : k0 ≠ n := Ledger.ne_of_free hLk0 hnfree
  obtain ⟨hpmm,hmem,hentry⟩ := copyKernelEntries_spec pg hkd hkdn 3 1 (by decide)
    ⟨cloneMem pg p.mem n t,(p.pmm.setFrame n).setFrame t⟩
  dsimp only at hpmm hmem hentry
  have htfree' : Function.update L n (some (.task tag .dir)) t = none := by rw [Function.update_of_ne hne, htfree]
  refine ⟨rfl,⟨hnfree,htfree⟩,hpos,hne.symm,fun W => ⟨?_,?_,?_,fun x o ho _ _ => ?_⟩,?_,fun i hi1 hi4 => ?_,
    fun i hi4 hi => ?_,fun j hj => ?_⟩
  · rw [hpmm]
    exact (h.take hn hnfree _).take ht htfree' _
  · rw [hpmm]
    rfl
  · exact (Ledger.Extends.take hnfree ⟨.dir,rfl⟩).trans (Ledger.Extends.take htfree' ⟨.pt0,rfl⟩)
  · have hxn : x / pageSize ≠ n := Ledger.ne_of_free ho hnfree
    rw [hmem x hxn, cloneMem_apply hk0 p.mem hxn (Ledger.ne_of_free ho htfree)]
  · rw [hentry 0 (by decide), if_neg (by decide), entry_cloneMem_dir hk0 p.mem hne ht (by decide), if_pos rfl]
  · have hi : i < 1024 := Nat.lt_trans hi4 (by decide)
    rw [hentry i hi, if_pos ⟨hi1,by simp only [kernelPdeCount] at hi4; omega⟩, hkd]
    exact entry_congr hi fun x hx => cloneMem_apply hk0 p.mem (hx ▸ hkdn) (hx ▸ hkdt)
  · simp only [kernelPdeCount] at hi4
    rw [hentry i hi, if_neg (by omega), entry_cloneMem_dir hk0 p.mem hne ht hi, if_neg (by omega)]
  · rw [entry_congr hj fun x hx => hmem x (hx ▸ hne), entry_cloneMem_table hk0 p.mem hne hk0n hj, hk0]

theorem Grows.giveBack (W : Owner → Prop) (tag : Option (Fin 64)) (h : Accounts L p.pmm) {n : ℕ} (hpos : 0 < n)
    (hn : n < totalFrames) (hfree : L n = none) {m : Mem} (hm : ∀ x, x / pageSize ≠ n → m x = p.mem x) :
    Grows W tag L p L (Phys.freePage ⟨m,p.pmm.setFrame n⟩ (n * pageSize)) := by
  have htaken : Accounts (Function.update L n (some (.task tag .dir))) (p.pmm.setFrame n) := h.take hn hfree _
  have hused : Function.update L n (some (.task tag .dir)) n ≠ none := by simp
  have hback : Function.update (Function.update L n (some (.task tag .dir))) n none = L := by
    rw [Function.update_idem, ← hfree, Function.update_eq_self]
  have hdrop := htaken.drop hused (Nat.ne_of_gt hpos)
  rw [hback] at hdrop
  have hpmm : (Phys.freePage ⟨m,p.pmm.setFrame n⟩ (n * pageSize)).pmm = (p.pmm.setFrame n).clearFrame n := htaken.free hused
  exact ⟨hpmm ▸ hdrop,by rw [hpmm]; rfl,Ledger.Extends.refl _ L,fun x o ho _ _ => hm x (Ledger.ne_of_free ho hfree)⟩

/-- `paging_clone_directory` returns a fresh directory, or `NULL` with every frame as before
because there are not two free frames. -/
theorem pagingCloneDirectory_spec (h : Accounts L p.pmm) (hk : KernelMap pg p.mem L) (tag : Option (Fin 64)) :
    (∃ p', pagingCloneDirectory pg p = (0, p') ∧ (∀ W, Grows W tag L p L p') ∧
        totalFrames ≤ p.pmm.usedFrames.toNat + 1) ∨
      ∃ n t L' p', pagingCloneDirectory pg p = (n * pageSize, p') ∧ Cloned pg tag L p n t L' p' := by
  have hk0pos : pg.pdTables 0 ≠ 0 := by
    obtain ⟨k0,hk0,hLk0⟩ := hk.table 0 (by decide)
    intro hz
    rw [hk0, Nat.mul_eq_zero] at hz
    rw [hz.resolve_right (by decide), h.zero] at hLk0
    cases hLk0
  rcases Phys.alloc_cases h with ⟨he,hfull⟩ | ⟨n,hpos,hn,hfree,he⟩
  · refine Or.inl ⟨p,?_,fun W => Grows.refl h,?_⟩
    · rw [pagingCloneDirectory, he]
      rfl
    · rw [h.count, Ledger.count_eq_card fun f hf => hfull f (Finset.mem_range.mp hf), Finset.card_range]
      exact Nat.le_succ _
  have hnz : n * pageSize ≠ 0 := Nat.mul_ne_zero (Nat.ne_of_gt hpos) (by decide)
  let p₁ : Phys := { p with pmm := p.pmm.setFrame n }.clearPage (n * pageSize)
  have h1 : Accounts (Function.update L n (some (.task tag .dir))) p₁.pmm := h.take hn hfree _
  rw [pagingCloneDirectory, he]
  dsimp only
  rw [if_neg hnz, if_neg hk0pos]
  rcases Phys.alloc_cases h1 with ⟨he1,hfull⟩ | ⟨t,htpos,ht,htfree,he1⟩
  · have hcount := Ledger.count_eq_card fun f hf => hfull f (Finset.mem_range.mp hf)
    rw [Ledger.count_take (Finset.mem_range.mpr hn) hfree, Finset.card_range] at hcount
    refine Or.inl ⟨p₁.freePage (n * pageSize),?_,fun W => ?_,?_⟩
    · rw [he1]
      rfl
    · exact Grows.giveBack W tag h hpos hn hfree fun x hx => clear_apply p.mem hx
    · rw [h.count, hcount]
  · obtain ⟨htn,htfree'⟩ := Ledger.free_of_update htfree
    have htnz : t * pageSize ≠ 0 := Nat.mul_ne_zero (Nat.ne_of_gt htpos) (by decide)
    refine Or.inr ⟨n,t,_,_,?_,Cloned.build h hk tag hpos hn hfree ht htfree' htn⟩
    rw [he1]
    dsimp only
    rw [if_neg htnz]
    rfl

end clone

namespace Cloned
variable {pg : Paging} {tag : Option (Fin 64)} {L L' : Frames} {p p' : Phys} {n t : ℕ}

theorem accounts (h : Cloned pg tag L p n t L' p') : Accounts L' p'.pmm := (h.grows fun _ => False).accounts

theorem label_dir (h : Cloned pg tag L p n t L' p') : L' n = some (.task tag .dir) := by
  rw [h.ledger, Function.update_of_ne h.distinct, Function.update_self]

theorem label_pt0 (h : Cloned pg tag L p n t L' p') : L' t = some (.task tag .pt0) := by
  rw [h.ledger, Function.update_self]

theorem label_cases (h : Cloned pg tag L p n t L' p') {f : ℕ} {o : Owner} (hf : L' f = some o) :
    f = t ∧ o = .task tag .pt0 ∨ f = n ∧ o = .task tag .dir ∨ L f = some o := by
  rw [h.ledger] at hf
  by_cases hft : f = t
  · rw [hft, Function.update_self, Option.some.injEq] at hf
    exact Or.inl ⟨hft,hf.symm⟩
  · rw [Function.update_of_ne hft] at hf
    by_cases hfn : f = n
    · rw [hfn, Function.update_self, Option.some.injEq] at hf
      exact Or.inr (Or.inl ⟨hfn,hf.symm⟩)
    · rw [Function.update_of_ne hfn] at hf
      exact Or.inr (Or.inr hf)

theorem count (h : Cloned pg tag L p n t L' p') :
    Ledger.count (Finset.range totalFrames) L' = Ledger.count (Finset.range totalFrames) L + 2 := by
  have hn := h.accounts.lt h.label_dir
  have ht := h.accounts.lt h.label_pt0
  have hfree : Function.update L n (some (.task tag .dir)) t = none := by
    rw [Function.update_of_ne h.distinct.symm, h.free.2]
  rw [h.ledger, Ledger.count_take (Finset.mem_range.mpr ht) hfree, Ledger.count_take (Finset.mem_range.mpr hn) h.free.1]

theorem dirFrame_eq (h : Cloned pg tag L p n t L' p') (s : Slot) :
    dirFrame p'.mem (n * pageSize) s = if s = .dir then some n else if s = .pt0 then some t else none := by
  have hhigh : ∀ i, kernelPdeCount ≤ i → i < 1024 → target p'.mem (n * pageSize) i = none := by
    intro i hi hi'
    rw [target, h.entry_high i hi hi']
    exact if_neg (by decide)
  cases s with
  | kstack => rfl
  | dir => simp [dirFrame, Nat.mul_div_cancel n (show 0 < pageSize by decide)]
  | pt0 =>
    rw [if_neg (by simp), if_pos rfl]
    simp only [dirFrame]
    have hpres : isPresent (t * pageSize + 3) := by
      rw [isPresent_iff]
      simp only [pageSize]
      omega
    rw [target_eq, h.entry_zero, if_pos hpres]
    congr 1
    simp only [pageSize]
    omega
  | table i =>
    rw [if_neg (by simp), if_neg (by simp)]
    simp only [dirFrame]
    split
    · rename_i hi
      exact hhigh i hi.1 hi.2
    · rfl
  | page i j =>
    rw [if_neg (by simp), if_neg (by simp)]
    simp only [dirFrame]
    split
    · rename_i hi
      rw [hhigh i hi.1.1 hi.1.2]
      rfl
    · rfl

theorem dirOwned (h : Cloned pg tag L p n t L' p') : DirOwned L' tag p'.mem n := by
  refine ⟨fun s f hf => ?_⟩
  rw [h.dirFrame_eq] at hf
  by_cases hs : s = .dir
  · rw [if_pos hs, Option.some.injEq] at hf
    rw [← hf, hs]
    exact h.label_dir
  · rw [if_neg hs] at hf
    by_cases hs' : s = .pt0
    · rw [if_pos hs', Option.some.injEq] at hf
      rw [← hf, hs']
      exact h.label_pt0
    · rw [if_neg hs'] at hf
      cases hf

end Cloned

/-! ## Mapping a page -/

/-- The entry that maps the page at `phys`. -/
def pteValue (phys flags : ℕ) : ℕ := (phys &&& pageFrameMask) ||| (flags &&& 0xFFF) ||| pagePresent

theorem pteValue_lt {phys : ℕ} (hphys : phys < 2 ^ 32) (flags : ℕ) :
    pteValue phys flags < 2 ^ 32 ∧ isPresent (pteValue phys flags) ∧ pteValue phys flags / pageSize = phys / pageSize := by
  have hf : (flags &&& 0xFFF) ||| pagePresent < 4096 := by
    refine Nat.or_lt_two_pow (n := 12) ?_ (by decide)
    rw [land_4095]
    exact Nat.mod_lt _ (by decide)
  have heq : pteValue phys flags = phys / pageSize * pageSize + ((flags &&& 0xFFF) ||| pagePresent) := by
    have hframe : phys &&& pageFrameMask = phys / pageSize * pageSize := pageFrame_eq hphys
    rw [pteValue, hframe, Nat.or_assoc, frame_lor _ hf]
  refine ⟨?_,?_,?_⟩
  · rw [heq]
    simp only [pageSize]
    omega
  · unfold isPresent pteValue
    rw [Nat.and_or_distrib_right, Nat.and_self]
    intro hz
    exact absurd (Nat.or_eq_zero_iff.mp hz).2 (by decide)
  · rw [heq]
    simp only [pageSize]
    omega

theorem pteValue_spec {a : ℕ} (ha : a < totalFrames) (flags : ℕ) :
    pteValue (a * pageSize) flags < 2 ^ 32 ∧ isPresent (pteValue (a * pageSize) flags) ∧
      pteValue (a * pageSize) flags / pageSize = a := by
  have hlt : a * pageSize < 2 ^ 32 := by
    simp only [totalFrames, pageSize] at *
    omega
  have h := pteValue_lt hlt flags
  rwa [Nat.mul_div_cancel a (by decide)] at h

section
variable {p : Phys} {n t virt phys flags : ℕ}

theorem pagingMapPageIn_present (hu : flags &&& pageUser ≠ 0)
    (ht : target p.mem (n * pageSize) (pageDirIndex virt) = some t) :
    pagingMapPageIn p (n * pageSize) virt phys flags =
      ⟨setEntry (setEntry p.mem (n * pageSize) (pageDirIndex virt)
          (entry p.mem (n * pageSize) (pageDirIndex virt) ||| pageUser))
          (t * pageSize) (pageTableIndex virt) (pteValue phys flags),
        p.pmm⟩ := by
  obtain ⟨hp,hdiv,_⟩ := target_eq_some ht
  have hi := pageDirIndex_lt virt
  have htable : tableFor p (n * pageSize) (pageDirIndex virt) flags =
      (true, p.setEntry (n * pageSize) (pageDirIndex virt)
        (entry p.mem (n * pageSize) (pageDirIndex virt) ||| pageUser)) := by
    rw [tableFor, if_neg (not_not.mpr hp), if_pos hu]
  have hframe : entry (p.setEntry (n * pageSize) (pageDirIndex virt)
      (entry p.mem (n * pageSize) (pageDirIndex virt) ||| pageUser)).mem (n * pageSize) (pageDirIndex virt) &&&
        pageFrameMask = t * pageSize := by
    have hlt := lor_user_lt (entry_lt p.mem (n * pageSize) (pageDirIndex virt))
    have he : entry (p.setEntry (n * pageSize) (pageDirIndex virt)
        (entry p.mem (n * pageSize) (pageDirIndex virt) ||| pageUser)).mem (n * pageSize) (pageDirIndex virt) =
          entry p.mem (n * pageSize) (pageDirIndex virt) ||| pageUser :=
      (entry_setEntry p.mem _ hi hi).trans ((if_pos ⟨rfl,rfl⟩).trans (Nat.mod_eq_of_lt hlt))
    rw [he]
    exact (pageFrame_eq hlt).trans (by rw [lor_user_div, hdiv])
  rw [pagingMapPageIn, htable]
  dsimp only
  rw [hframe]
  rfl

theorem pagingMapPageIn_failed (ht : target p.mem (n * pageSize) (pageDirIndex virt) = none)
    (he : p.allocPage = (0, p)) : pagingMapPageIn p (n * pageSize) virt phys flags = p := by
  have hp : ¬isPresent (entry p.mem (n * pageSize) (pageDirIndex virt)) := by
    intro hp
    rw [target, if_pos hp] at ht
    cases ht
  have htable : tableFor p (n * pageSize) (pageDirIndex virt) flags = (false, p) := by
    rw [tableFor, if_pos hp, he]
    rfl
  rw [pagingMapPageIn, htable]

theorem pdeValue_eq (hu : flags &&& pageUser ≠ 0) (t : ℕ) :
    t * pageSize ||| pagePresent ||| pageWritable ||| (flags &&& pageUser) = t * pageSize + 7 := by
  have hu' : flags &&& pageUser = 4 := by
    have h := Nat.and_two_pow flags 2
    unfold pageUser at hu ⊢
    rw [show (4 : ℕ) = 2 ^ 2 from rfl] at hu ⊢
    rw [h] at hu ⊢
    cases hb : flags.testBit 2 with
    | false =>
      rw [hb] at hu
      exact absurd rfl hu
    | true => rfl
  rw [hu', Nat.or_assoc, Nat.or_assoc]
  exact frame_lor t (by decide)

theorem pagingMapPageIn_fresh (hu : flags &&& pageUser ≠ 0) (hpos : 0 < t) (htlt : t < totalFrames)
    (ht : target p.mem (n * pageSize) (pageDirIndex virt) = none)
    (he : p.allocPage = (t * pageSize, { p with pmm := p.pmm.setFrame t })) :
    pagingMapPageIn p (n * pageSize) virt phys flags =
      ⟨setEntry (setEntry (fill p.mem (t * pageSize) pageSize 0) (n * pageSize) (pageDirIndex virt)
          (t * pageSize + 7)) (t * pageSize) (pageTableIndex virt) (pteValue phys flags),
        p.pmm.setFrame t⟩ := by
  have hp : ¬isPresent (entry p.mem (n * pageSize) (pageDirIndex virt)) := by
    intro hp
    rw [target, if_pos hp] at ht
    cases ht
  have hi := pageDirIndex_lt virt
  have hlt : t * pageSize + 7 < 2 ^ 32 := by
    simp only [totalFrames, pageSize] at *
    omega
  have htz : t * pageSize ≠ 0 := Nat.mul_ne_zero (Nat.ne_of_gt hpos) (by decide)
  have htable : tableFor p (n * pageSize) (pageDirIndex virt) flags =
      (true, ⟨setEntry (fill p.mem (t * pageSize) pageSize 0) (n * pageSize) (pageDirIndex virt) (t * pageSize + 7),
        p.pmm.setFrame t⟩) := by
    rw [tableFor, if_pos hp, he]
    dsimp only
    rw [if_neg htz, pdeValue_eq hu]
    rfl
  have hframe : entry (setEntry (fill p.mem (t * pageSize) pageSize 0) (n * pageSize) (pageDirIndex virt)
      (t * pageSize + 7)) (n * pageSize) (pageDirIndex virt) &&& pageFrameMask = t * pageSize := by
    rw [entry_setEntry _ _ hi hi, if_pos ⟨rfl,rfl⟩, Nat.mod_eq_of_lt hlt]
    refine (pageFrame_eq hlt).trans ?_
    simp only [pageSize]
    omega
  rw [pagingMapPageIn, htable]
  dsimp only
  rw [hframe]
  rfl

end

/-- The three ways a page is mapped: below an existing table, not at all because no table
can be had, or below a fresh table. -/
inductive MapOutcome (tag : Option (Fin 64)) (L : Frames) (p : Phys) (n virt a flags : ℕ) : Frames → Phys → Prop
  | present (t : ℕ) (ht : target p.mem (n * pageSize) (pageDirIndex virt) = some t) :
      MapOutcome tag L p n virt a flags L
        ⟨setEntry (setEntry p.mem (n * pageSize) (pageDirIndex virt)
          (entry p.mem (n * pageSize) (pageDirIndex virt) ||| pageUser))
          (t * pageSize) (pageTableIndex virt) (pteValue (a * pageSize) flags),p.pmm⟩
  | failed (ht : target p.mem (n * pageSize) (pageDirIndex virt) = none) (hfull : ∀ f < totalFrames, L f ≠ none) :
      MapOutcome tag L p n virt a flags L p
  | fresh (t : ℕ) (ht : target p.mem (n * pageSize) (pageDirIndex virt) = none) (htlt : t < totalFrames)
      (hfree : L t = none) :
      MapOutcome tag L p n virt a flags (Function.update L t (some (.task tag (.table (pageDirIndex virt)))))
        ⟨setEntry (setEntry (fill p.mem (t * pageSize) pageSize 0) (n * pageSize) (pageDirIndex virt)
          (t * pageSize + 7)) (t * pageSize) (pageTableIndex virt) (pteValue (a * pageSize) flags),p.pmm.setFrame t⟩

section
variable {tag : Option (Fin 64)} {L L' : Frames} {p p' : Phys} {n virt a flags : ℕ}

theorem pagingMapPageIn_outcome (tag : Option (Fin 64)) (n virt a : ℕ) (h : Accounts L p.pmm)
    (hu : flags &&& pageUser ≠ 0) :
    ∃ L', MapOutcome tag L p n virt a flags L' (pagingMapPageIn p (n * pageSize) virt (a * pageSize) flags) := by
  cases ht : target p.mem (n * pageSize) (pageDirIndex virt) with
  | some t =>
    rw [pagingMapPageIn_present hu ht]
    exact ⟨_,.present t ht⟩
  | none =>
    rcases Phys.alloc_cases h with ⟨he,hfull⟩ | ⟨t,hpos,htlt,hfree,he⟩
    · rw [pagingMapPageIn_failed ht he]
      exact ⟨_,.failed ht hfull⟩
    · rw [pagingMapPageIn_fresh hu hpos htlt ht he]
      exact ⟨_,.fresh t ht htlt hfree⟩

namespace MapOutcome

theorem accounts (h : MapOutcome tag L p n virt a flags L' p') (hacc : Accounts L p.pmm) : Accounts L' p'.pmm := by
  cases h with
  | present t ht => exact hacc
  | failed ht hfull => exact hacc
  | fresh t ht htlt hfree => exact hacc.take htlt hfree _

theorem count_le (h : MapOutcome tag L p n virt a flags L' p') :
    Ledger.count (Finset.range totalFrames) L' ≤ Ledger.count (Finset.range totalFrames) L + 1 := by
  cases h with
  | present t ht => exact Nat.le_succ _
  | failed ht hfull => exact Nat.le_succ _
  | fresh t ht htlt hfree => exact (Ledger.count_take (Finset.mem_range.mpr htlt) hfree _).le

theorem errors (h : MapOutcome tag L p n virt a flags L' p') : p'.pmm.errors = p.pmm.errors := by
  cases h <;> rfl

theorem ledger (h : MapOutcome tag L p n virt a flags L' p') :
    Ledger.Extends (fun o => o = .task tag (.table (pageDirIndex virt))) L L' := by
  cases h with
  | present t ht => exact Ledger.Extends.refl _ L
  | failed ht hfull => exact Ledger.Extends.refl _ L
  | fresh t ht htlt hfree => exact Ledger.Extends.take hfree rfl

theorem mem (h : MapOutcome tag L p n virt a flags L' p') {x : ℕ} {o : Owner} (ho : L (x / pageSize) = some o)
    (hn : x / pageSize ≠ n) (ht : ∀ t, target p.mem (n * pageSize) (pageDirIndex virt) = some t → x / pageSize ≠ t) :
    p'.mem x = p.mem x := by
  cases h with
  | present t htar =>
    exact (setEntry_apply _ _ (pageTableIndex_lt virt) (ht t htar)).trans
      (setEntry_apply _ _ (pageDirIndex_lt virt) hn)
  | failed ht hfull => rfl
  | fresh t htar htlt hfree =>
    have hxt := Ledger.ne_of_free ho hfree
    exact (setEntry_apply _ _ (pageTableIndex_lt virt) hxt).trans
      ((setEntry_apply _ _ (pageDirIndex_lt virt) hn).trans (clear_apply _ hxt))

theorem entries (h : MapOutcome tag L p n virt a flags L' p') (hd : L n = some (.task tag .dir))
    (ht : ∀ t, target p.mem (n * pageSize) (pageDirIndex virt) = some t → n ≠ t) {k : ℕ} (hk : k < 1024)
    (hne : k ≠ pageDirIndex virt) : entry p'.mem (n * pageSize) k = entry p.mem (n * pageSize) k := by
  have hi := pageDirIndex_lt virt
  have hj := pageTableIndex_lt virt
  cases h with
  | present t htar =>
    rw [entry_setEntry _ _ hj hk, if_neg (fun hc => ht t htar hc.1), entry_setEntry _ _ hi hk,
      if_neg (fun hc => hne hc.2)]
  | failed ht hfull => rfl
  | fresh t htar htlt hfree =>
    have hnt := Ledger.ne_of_free hd hfree
    rw [entry_setEntry _ _ hj hk, if_neg (fun hc => hnt hc.1), entry_setEntry _ _ hi hk,
      if_neg (fun hc => hne hc.2), entry_clear _ hk, if_neg hnt]

end MapOutcome

section
variable (hd : DirOwned L tag p.mem n) (hi : kernelPdeCount ≤ pageDirIndex virt) (ha : a < totalFrames)
include hd hi ha

theorem dirFrame_mapPresent (flags : ℕ) {t : ℕ} (ht : target p.mem (n * pageSize) (pageDirIndex virt) = some t) (s : Slot) :
    dirFrame (setEntry (setEntry p.mem (n * pageSize) (pageDirIndex virt)
        (entry p.mem (n * pageSize) (pageDirIndex virt) ||| pageUser))
        (t * pageSize) (pageTableIndex virt) (pteValue (a * pageSize) flags)) (n * pageSize) s =
      if s = .page (pageDirIndex virt) (pageTableIndex virt) then some a else dirFrame p.mem (n * pageSize) s := by
  have hilt := pageDirIndex_lt virt
  obtain ⟨hv,hp,hdiv⟩ := pteValue_spec ha flags
  have hpde := hd.dirFrame_setPde hilt (lor_user_lt (entry_lt _ _ _)) (isPresent_lor_user _)
    (lor_user_div (entry p.mem (n * pageSize) (pageDirIndex virt)))
  have hd' : DirOwned L tag (setEntry p.mem (n * pageSize) (pageDirIndex virt)
      (entry p.mem (n * pageSize) (pageDirIndex virt) ||| pageUser)) n :=
    ⟨fun s f hf => hd.owned s f (by rwa [hpde] at hf)⟩
  have ht' := congrFun hpde (.table (pageDirIndex virt))
  simp only [dirFrame] at ht'
  rw [if_pos ⟨hi,hilt⟩, if_pos ⟨hi,hilt⟩, ht] at ht'
  rw [hd'.dirFrame_setPte hi hilt ht' (pageTableIndex_lt virt) hv hp s, hdiv, hpde]

theorem dirFrame_mapFresh (flags : ℕ) {t : ℕ} (ht : target p.mem (n * pageSize) (pageDirIndex virt) = none)
    (htlt : t < totalFrames) (hfree : L t = none) (s : Slot) :
    dirFrame (setEntry (setEntry (fill p.mem (t * pageSize) pageSize 0) (n * pageSize) (pageDirIndex virt)
        (t * pageSize + 7)) (t * pageSize) (pageTableIndex virt) (pteValue (a * pageSize) flags)) (n * pageSize) s =
      if s = .page (pageDirIndex virt) (pageTableIndex virt) then some a
      else if s = .table (pageDirIndex virt) then some t else dirFrame p.mem (n * pageSize) s := by
  have hilt := pageDirIndex_lt virt
  obtain ⟨hv,hp,hdiv⟩ := pteValue_spec ha flags
  have hv7 : t * pageSize + 7 < 2 ^ 32 := by
    simp only [totalFrames, pageSize] at *
    omega
  have hp7 : isPresent (t * pageSize + 7) := by
    rw [isPresent_iff]
    simp only [pageSize]
    omega
  have hf7 : (t * pageSize + 7) / pageSize = t := by
    simp only [pageSize]
    omega
  have hnew := hd.dirFrame_newTable hi hilt ht hfree hv7 hp7 hf7
  have hd' : DirOwned (Function.update L t (some (.task tag (.table (pageDirIndex virt))))) tag
      (setEntry (fill p.mem (t * pageSize) pageSize 0) (n * pageSize) (pageDirIndex virt) (t * pageSize + 7)) n := by
    refine ⟨fun s f hf => ?_⟩
    rw [hnew s] at hf
    by_cases hs : s = .table (pageDirIndex virt)
    · rw [if_pos hs, Option.some.injEq] at hf
      rw [← hf, Function.update_self, hs]
    · rw [if_neg hs] at hf
      have hLf := hd.owned s f hf
      rw [Function.update_of_ne (Ledger.ne_of_free hLf hfree), hLf]
  have ht' := hnew (.table (pageDirIndex virt))
  rw [if_pos rfl] at ht'
  simp only [dirFrame] at ht'
  rw [if_pos ⟨hi,hilt⟩] at ht'
  rw [hd'.dirFrame_setPte hi hilt ht' (pageTableIndex_lt virt) hv hp s, hdiv, hnew s]

end

namespace MapOutcome

/-- Mapping a page that is held for its place keeps the directory's frames held for theirs. -/
theorem dirOwned (h : MapOutcome tag L p n virt a flags L' p') (hd : DirOwned L tag p.mem n)
    (hi : kernelPdeCount ≤ pageDirIndex virt) (ha : a < totalFrames)
    (hLa : L a = some (.task tag (.page (pageDirIndex virt) (pageTableIndex virt)))) : DirOwned L' tag p'.mem n := by
  refine ⟨fun s f hf => ?_⟩
  cases h with
  | present t ht =>
    rw [dirFrame_mapPresent hd hi ha flags ht] at hf
    by_cases hs : s = .page (pageDirIndex virt) (pageTableIndex virt)
    · rw [if_pos hs, Option.some.injEq] at hf
      rw [← hf, hs, hLa]
    · rw [if_neg hs] at hf
      exact hd.owned s f hf
  | failed ht hfull => exact hd.owned s f hf
  | fresh t ht htlt hfree =>
    rw [dirFrame_mapFresh hd hi ha flags ht htlt hfree] at hf
    by_cases hs : s = .page (pageDirIndex virt) (pageTableIndex virt)
    · rw [if_pos hs, Option.some.injEq] at hf
      rw [← hf, hs, Function.update_of_ne (Ledger.ne_of_free hLa hfree), hLa]
    · rw [if_neg hs] at hf
      by_cases hs' : s = .table (pageDirIndex virt)
      · rw [if_pos hs', Option.some.injEq] at hf
        rw [← hf, hs', Function.update_self]
      · rw [if_neg hs'] at hf
        have hLf := hd.owned s f hf
        rw [Function.update_of_ne (Ledger.ne_of_free hLf hfree), hLf]

theorem grows (h : MapOutcome tag L p n virt a flags L' p') (hacc : Accounts L p.pmm) (hd : DirOwned L tag p.mem n)
    (hi : kernelPdeCount ≤ pageDirIndex virt) (W : Owner → Prop) : Grows W tag L p L' p' := by
  refine ⟨h.accounts hacc,h.errors,h.ledger.mono fun o ho => ⟨_,ho⟩,fun x o ho _ hs => h.mem ho ?_ ?_⟩
  · rintro rfl
    rw [hd.dir, Option.some.injEq] at ho
    exact hs _ ho.symm
  · rintro t ht rfl
    rw [hd.table hi (pageDirIndex_lt virt) ht, Option.some.injEq] at ho
    exact hs _ ho.symm

end MapOutcome

end

end ApPa.Memory

import ApPa.Memory.Release

/-! # Opening kernel pages to a user task

The lower part of a cloned directory has a private table for the first 4 MB and shares the
other kernel tables. Mapping a page there writes to one of these tables and takes no frame.
-/
namespace ApPa.Memory
open ByteMem Word32

/-- A directory as `paging_clone_directory` makes it, with any pages mapped since. -/
structure UserSpace (pg : Paging) (L : Frames) (tag : Option (Fin 64)) (m : Mem) (n : ℕ) : Prop where
  owned : DirOwned L tag m n
  pt0 : ∃ t, target m (n * pageSize) 0 = some t
  shared : ∀ i, 1 ≤ i → i < kernelPdeCount →
    ∃ t, pg.pdTables i = t * pageSize ∧ target m (n * pageSize) i = some t ∧ L t = some .kernelTable
  inj : ∀ i < kernelPdeCount, ∀ j < kernelPdeCount, pg.pdTables i = pg.pdTables j → i = j

variable {pg : Paging} {L L' : Frames} {tag : Option (Fin 64)} {p p' : Phys} {n t : ℕ}

theorem Cloned.target_low (h : Cloned pg tag L p n t L' p') (hk : KernelMap pg p.mem L) {i : ℕ}
    (h1 : 1 ≤ i) (h4 : i < kernelPdeCount) :
    ∃ f, pg.pdTables i = f * pageSize ∧ L f = some .kernelTable ∧ target p'.mem (n * pageSize) i = some f := by
  obtain ⟨f,hf,hLf⟩ := hk.table i h4
  refine ⟨f,hf,hLf,?_⟩
  have hpres : isPresent (f * pageSize + 3) := by
    rw [isPresent_iff]
    simp only [pageSize]
    omega
  rw [target_eq, h.entry_low i h1 h4, hk.entries i h4, hf, if_pos hpres]
  congr 1
  simp only [pageSize]
  omega

theorem Cloned.userSpace (h : Cloned pg tag L p n t L' p') (hk : KernelMap pg p.mem L) :
    UserSpace pg L' tag p'.mem n := by
  refine ⟨h.dirOwned,⟨t,h.dirFrame_eq .pt0⟩,fun i h1 h4 => ?_,hk.inj⟩
  obtain ⟨f,hf,hLf,ht⟩ := h.target_low hk h1 h4
  exact ⟨f,hf,ht,(h.grows fun _ => False).ledger.keeps f _ hLf⟩

theorem UserSpace.low (h : UserSpace pg L tag p.mem n) {i : ℕ} (hi : i < kernelPdeCount) :
    ∃ t, target p.mem (n * pageSize) i = some t ∧ (L t = some (.task tag .pt0) ∨ L t = some .kernelTable) := by
  by_cases h0 : i = 0
  · subst h0
    obtain ⟨t,ht⟩ := h.pt0
    exact ⟨t,ht,Or.inl (h.owned.owned .pt0 t ht)⟩
  · obtain ⟨t,_,ht,hLt⟩ := h.shared i (Nat.pos_of_ne_zero h0) hi
    exact ⟨t,ht,Or.inr hLt⟩

theorem UserSpace.mapLow (h : UserSpace pg L tag p.mem n) (hacc : Accounts L p.pmm) {virt flags : ℕ} (phys : ℕ)
    (hi : pageDirIndex virt < kernelPdeCount) (hu : flags &&& pageUser ≠ 0) :
    Grows (· = .kernelTable) tag L p L (pagingMapPageIn p (n * pageSize) virt phys flags) ∧
      UserSpace pg L tag (pagingMapPageIn p (n * pageSize) virt phys flags).mem n ∧
      ∀ k < 1024, target (pagingMapPageIn p (n * pageSize) virt phys flags).mem (n * pageSize) k =
        target p.mem (n * pageSize) k := by
  obtain ⟨t,ht,hLt⟩ := h.low hi
  have hilt := pageDirIndex_lt virt
  have hjlt := pageTableIndex_lt virt
  have htn : t ≠ n := by
    rintro rfl
    rw [h.owned.dir] at hLt
    rcases hLt with hLt | hLt <;> cases hLt
  let m₁ := setEntry p.mem (n * pageSize) (pageDirIndex virt)
    (entry p.mem (n * pageSize) (pageDirIndex virt) ||| pageUser)
  let m₂ := setEntry m₁ (t * pageSize) (pageTableIndex virt) (pteValue phys flags)
  have hpde : dirFrame m₁ (n * pageSize) = dirFrame p.mem (n * pageSize) :=
    h.owned.dirFrame_setPde hilt (lor_user_lt (entry_lt _ _ _)) (isPresent_lor_user _) (lor_user_div _)
  have hd₁ : DirOwned L tag m₁ n := ⟨fun s f hf => h.owned.owned s f (by rwa [hpde] at hf)⟩
  have hd₂ : DirOwned L tag m₂ n := by
    refine hd₁.congr (fun _ _ hf => hf) fun x s hx hs => setEntry_apply m₁ _ hjlt ?_
    rintro rfl
    rcases hLt with hLt | hLt
    · rw [hLt, Option.some.injEq, Owner.task.injEq] at hx
      rw [← hx.2] at hs
      exact hs
    · rw [hLt] at hx
      cases hx
  have htarget : ∀ k < 1024, target m₂ (n * pageSize) k = target p.mem (n * pageSize) k := by
    intro k hk
    have h2 : target m₂ (n * pageSize) k = target m₁ (n * pageSize) k :=
      target_congr hk fun x hx => setEntry_apply m₁ _ hjlt (hx ▸ htn.symm)
    rw [h2, target_setEntry _ (lor_user_lt (entry_lt _ _ _)) hilt hk, lor_user_div]
    by_cases hki : k = pageDirIndex virt
    · subst hki
      simp [target_eq, isPresent_lor_user]
    · simp [hki]
  rw [pagingMapPageIn_present hu ht]
  refine ⟨⟨hacc,rfl,Ledger.Extends.refl _ L,fun x o ho hw hs => ?_⟩,⟨hd₂,?_,fun i h1 h4 => ?_,h.inj⟩,htarget⟩
  · have hxn : x / pageSize ≠ n := by
      rintro rfl
      rw [h.owned.dir, Option.some.injEq] at ho
      exact hs _ ho.symm
    have hxt : x / pageSize ≠ t := by
      rintro rfl
      rcases hLt with hLt | hLt
      · rw [hLt, Option.some.injEq] at ho
        exact hs _ ho.symm
      · rw [hLt, Option.some.injEq] at ho
        exact hw ho.symm
    exact (setEntry_apply _ _ hjlt hxt).trans (setEntry_apply _ _ hilt hxn)
  · obtain ⟨t₀,ht₀⟩ := h.pt0
    exact ⟨t₀,(htarget 0 (by decide)).trans ht₀⟩
  · obtain ⟨t₁,hpt,ht₁,hL₁⟩ := h.shared i h1 h4
    exact ⟨t₁,hpt,(htarget i (Nat.lt_trans h4 (by decide))).trans ht₁,hL₁⟩

theorem userStackVirt_index : kernelPdeCount ≤ pageDirIndex userStackVirt := by
  rw [pageDirIndex_eq]
  decide

theorem UserSpace.congr {m m' : Mem} (h : UserSpace pg L tag m n) (hd : DirOwned L' tag m' n)
    (hL : ∀ f, L f = some .kernelTable → L' f = some .kernelTable)
    (hlow : ∀ i < kernelPdeCount, entry m' (n * pageSize) i = entry m (n * pageSize) i) : UserSpace pg L' tag m' n := by
  have htarget : ∀ i < kernelPdeCount, target m' (n * pageSize) i = target m (n * pageSize) i := by
    intro i hi
    rw [target, target, hlow i hi]
  refine ⟨hd,?_,fun i h1 h4 => ?_,h.inj⟩
  · obtain ⟨t,ht⟩ := h.pt0
    exact ⟨t,(htarget 0 (by decide)).trans ht⟩
  · obtain ⟨t,hpt,ht,hLt⟩ := h.shared i h1 h4
    exact ⟨t,hpt,(htarget i h4).trans ht,hL t hLt⟩

/-- Every frame held for a directory of `tag` can be reached from the directory in frame `n`. -/
def Whole (L : Frames) (tag : Option (Fin 64)) (m : Mem) (n : ℕ) : Prop :=
  ∀ f s, s ≠ .kstack → L f = some (.task tag s) → dirFrame m (n * pageSize) s = some f

/-! ## Giving up and handing over -/

/-- Work that was given up: the frames in use before still are, and what was taken has been
given back or lost. -/
structure Undone (L : Frames) (p : Phys) (L' : Frames) (p' : Phys) : Prop where
  accounts : Accounts L' p'.pmm
  errors : p'.pmm.errors = p.pmm.errors
  keeps : ∀ f o, L f = some o → L' f = some o
  lost : ∀ f o, L' f = some o → L f = some o ∨ o = .lost
  mem : ∀ x o, L (x / pageSize) = some o → o ≠ .kernelTable → p'.mem x = p.mem x

theorem Undone.refl (h : Accounts L p.pmm) : Undone L p L p :=
  ⟨h,rfl,fun _ _ ho => ho,fun _ _ ho => Or.inl ho,fun _ _ _ _ => rfl⟩

theorem not_mine (hnot : ∀ f s, L f ≠ some (.task tag s)) {f : ℕ} {o : Owner} (ho : L f = some o) (s : Slot) :
    o ≠ .task tag s := by
  rintro rfl
  exact hnot f s ho

theorem release_sub {l : List ℕ} {f : ℕ} {o : Owner} (h : L.release l f = some o) : L f = some o := by
  rw [Ledger.release] at h
  split at h
  · cases h
  · exact h

theorem release_keep {m : Mem} (hd : DirOwned L tag m n) {f : ℕ} {o : Owner} (ho : L f = some o)
    (hs : ∀ s, s ≠ .kstack → o ≠ .task tag s) : L.release (dirFrames m (n * pageSize)) f = some o := by
  rw [Ledger.release, if_neg ?_, ho]
  intro hf
  obtain ⟨s,hs'⟩ := mem_dirFrames.mp hf
  rw [hd.owned s f hs', Option.some.injEq] at ho
  refine hs s ?_ ho.symm
  rintro rfl
  cases hs'

theorem update_none_sub {f f' : ℕ} {o : Owner} (h : Function.update L f none f' = some o) : L f' = some o := by
  by_cases hff : f' = f
  · rw [hff, Function.update_self] at h
    cases h
  · rwa [Function.update_of_ne hff] at h

section
variable (hg : Grows (· = .kernelTable) tag L p L' p') (hnot : ∀ f s, L f ≠ some (.task tag s))
include hg hnot

/-- What is left after some frees belongs to nobody. -/
theorem Grows.undo {L₃ : Frames} {q : Phys} (hacc : Accounts L₃ q.pmm) (herr : q.pmm.errors = p'.pmm.errors)
    (hmem : q.mem = p'.mem) (hsub : ∀ f o, L₃ f = some o → L' f = some o)
    (hkeep : ∀ f o, L' f = some o → (∀ s, o ≠ .task tag s) → L₃ f = some o) :
    Undone L p (L₃.relabel (reassign tag fun _ => .lost)) q := by
  have hother : ∀ f o, L f = some o → reassign tag (fun _ => .lost) o = o :=
    fun f o ho => reassign_of_ne (not_mine hnot ho)
  refine ⟨hacc.relabel rfl,herr.trans hg.errors,fun f o ho => ?_,fun f o ho => ?_,fun x o ho hk => ?_⟩
  · rw [Ledger.relabel, hkeep f o (hg.ledger.keeps _ _ ho) (not_mine hnot ho), Option.map_some, hother f o ho]
  · obtain ⟨o',ho',rfl⟩ := Option.map_eq_some_iff.mp ho
    rcases hg.ledger.fresh f o' (hsub f o' ho') with hold | ⟨_,s,rfl⟩
    · exact Or.inl (by rw [hother f o' hold, hold])
    · exact Or.inr (reassign_self tag _ s)
  · rw [hmem]
    exact hg.mem x o ho hk (not_mine hnot ho)

theorem Grows.undoDirectory (hd : DirOwned L' tag p'.mem n) :
    ∃ L'', Undone L p L'' (pagingFreeDirectory p' (n * pageSize)) := by
  obtain ⟨hacc,herr,hmem⟩ := pagingFreeDirectory_spec hg.accounts hd
  exact ⟨_,hg.undo hnot hacc herr hmem (fun f o ho => release_sub ho)
    fun f o ho hs => release_keep hd ho fun s _ => hs s⟩

theorem Grows.undoStack {L₃ : Frames} {q : Phys} (hacc : Accounts L₃ q.pmm) (herr : q.pmm.errors = p'.pmm.errors)
    (hmem : q.mem = p'.mem) (hsub : ∀ f o, L₃ f = some o → L' f = some o)
    (hkeep : ∀ f o, L' f = some o → (∀ s, o ≠ .task tag s) → L₃ f = some o) {f : ℕ}
    (hf : L₃ f = some (.task tag .kstack)) : ∃ L'', Undone L p L'' (q.freePage (f * pageSize)) := by
  have hfree : q.pmm.freePage (f * pageSize) = q.pmm.clearFrame f := hacc.free (by simp [hf])
  have hpos : f ≠ 0 := by
    rintro rfl
    rw [hacc.zero] at hf
    cases hf
  have hacc' : Accounts (Function.update L₃ f none) (q.freePage (f * pageSize)).pmm := by
    rw [Phys.freePage, hfree]
    exact hacc.drop (by simp [hf]) hpos
  refine ⟨_,hg.undo hnot hacc' (by rw [Phys.freePage, hfree]; exact herr) hmem
    (fun f' o ho => hsub f' o (update_none_sub ho)) fun f' o ho hs => ?_⟩
  have hL₃ := hkeep f' o ho hs
  rw [Function.update_of_ne ?_, hL₃]
  rintro rfl
  rw [hf, Option.some.injEq] at hL₃
  exact hs _ hL₃.symm

theorem Grows.undoBoth (hd : DirOwned L' tag p'.mem n) {f : ℕ} (hf : L' f = some (.task tag .kstack)) :
    ∃ L'', Undone L p L'' ((pagingFreeDirectory p' (n * pageSize)).freePage (f * pageSize)) := by
  obtain ⟨hacc,herr,hmem⟩ := pagingFreeDirectory_spec hg.accounts hd
  refine hg.undoStack hnot hacc herr hmem (fun f o ho => release_sub ho)
    (fun f o ho hs => release_keep hd ho fun s _ => hs s) (release_keep hd hf ?_)
  intro s hs he
  exact hs (Owner.task.inj he).2.symm

/-- When the directory and the stack are all that was taken, everything is given back. -/
theorem Grows.undoBoth_testFrame (hd : DirOwned L' tag p'.mem n) {f : ℕ} (hf : L' f = some (.task tag .kstack))
    (hwhole : Whole L' tag p'.mem n)
    (hstack : ∀ g, L' g = some (.task tag .kstack) → g = f) (hacc : Accounts L p.pmm) (g : ℕ) :
    ((pagingFreeDirectory p' (n * pageSize)).freePage (f * pageSize)).pmm.testFrame g = p.pmm.testFrame g := by
  have hkeep := release_keep hd hf fun s hs he => hs (Owner.task.inj he).2.symm
  have hfree := (pagingFreeDirectory_spec hg.accounts hd).1.testFrame_free (n := f) (by simp [hkeep]) g
  rw [Bool.eq_iff_iff]
  refine hfree.trans ?_
  rw [pagingFreeDirectory_testFrame hg.accounts hd, hg.accounts.used, hacc.used]
  constructor
  · rintro ⟨⟨hused,hgone⟩,hgf⟩
    obtain ⟨o,ho⟩ := Option.isSome_iff_exists.mp hused
    rcases hg.ledger.fresh g o ho with hold | ⟨_,s,rfl⟩
    · rw [hold]
      rfl
    · by_cases hs : s = .kstack
      · exact absurd (hstack g (hs ▸ ho)) hgf
      · exact absurd (hwhole g s hs ho) (hgone s)
  · intro hused
    obtain ⟨o,ho⟩ := Option.isSome_iff_exists.mp hused
    have ho' := hg.ledger.keeps g o ho
    refine ⟨⟨by rw [ho']; rfl,fun s hs => ?_⟩,?_⟩
    · rw [hd.owned s g hs, Option.some.injEq] at ho'
      exact not_mine hnot ho s ho'.symm
    · rintro rfl
      rw [hf, Option.some.injEq] at ho'
      exact not_mine hnot ho _ ho'.symm

end

theorem Grows.attach (hg : Grows (fun _ => False) none L p L' p') (hnot : ∀ f s, L f ≠ some (.task none s))
    (i : Fin 64) : Grows (fun _ => False) (some i) L p (L'.relabel (reassign none (.task (some i)))) p' := by
  have hmine : ∀ {f o}, L f = some o → ∀ s, o ≠ .task none s := by
    rintro f o ho s rfl
    exact hnot f s ho
  refine ⟨hg.accounts.relabel rfl,hg.errors,⟨fun f o ho => ?_,fun f o ho => ?_⟩,fun x o ho hw _ => ?_⟩
  · rw [Ledger.relabel, hg.ledger.keeps _ _ ho, Option.map_some, reassign_of_ne (hmine ho)]
  · obtain ⟨o',ho',rfl⟩ := Option.map_eq_some_iff.mp ho
    rcases hg.ledger.fresh f o' ho' with hold | ⟨hnone,s,rfl⟩
    · exact Or.inl (by rw [reassign_of_ne (hmine hold), hold])
    · exact Or.inr ⟨hnone,s,reassign_self none _ s⟩
  · exact hg.mem x o ho hw (hmine ho)

theorem DirOwned.attach {m : Mem} (hd : DirOwned L none m n) (i : Fin 64) :
    DirOwned (L.relabel (reassign none (.task (some i)))) (some i) m n := by
  refine ⟨fun s f hf => ?_⟩
  rw [Ledger.relabel, hd.owned s f hf, Option.map_some, reassign_self]

end ApPa.Memory

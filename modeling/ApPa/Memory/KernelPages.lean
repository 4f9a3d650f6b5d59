import ApPa.Memory.Boot

/-! # The kernel's page map

The kernel keeps its page tables twice: in the entries of the directory, for the processor,
and as pointers in `pd_tables`, for itself. Mapping and unmapping pages in any order keeps the
two in step, and what they describe is a finite map from pages to frames: one call changes
one page.
-/
namespace ApPa.Memory
open ByteMem Word32

/-- The frame that the directory in frame `n` maps the page `j` of table `i` to. -/
def frameAt (m : Mem) (n i j : ℕ) : Option ℕ := (target m (n * pageSize) i).bind fun t => target m (t * pageSize) j

section
variable {m m₁ : Mem} {n i j t w : ℕ}

theorem frameAt_setPte (hsep : Separate m n) (hi : i < 1024) (hj : j < 1024) (ht : target m (n * pageSize) i = some t)
    (hw : w < 2 ^ 32) :
    (∀ k < 1024, target (setEntry m (t * pageSize) j w) (n * pageSize) k = target m (n * pageSize) k) ∧
    ∀ k < 1024, ∀ l < 1024, frameAt (setEntry m (t * pageSize) j w) n k l =
      if k = i ∧ l = j then if isPresent w then some (w / pageSize) else none else frameAt m n k l := by
  have hnt : n ≠ t := (hsep.ne_dir i hi t ht).symm
  have hdir : ∀ k < 1024, target (setEntry m (t * pageSize) j w) (n * pageSize) k = target m (n * pageSize) k := by
    intro k hk
    rw [target_setEntry m hw hj hk, if_neg fun hc => hnt hc.1]
  refine ⟨hdir,fun k hk l hl => ?_⟩
  rw [frameAt, frameAt, hdir k hk]
  cases hk' : target m (n * pageSize) k with
  | none =>
    have hki : k ≠ i := by
      rintro rfl
      rw [ht] at hk'
      cases hk'
    rw [if_neg fun hc => hki hc.1]
    rfl
  | some t' =>
    rw [Option.bind_some, Option.bind_some, target_setEntry m hw hj hl]
    by_cases hki : k = i
    · subst hki
      obtain rfl : t = t' := Option.some.inj (ht.symm.trans hk')
      simp
    · have htt : t' ≠ t := by
        rintro rfl
        exact hki (hsep.inj k hk i hi t' hk' ht)
      rw [if_neg fun hc => htt hc.1, if_neg fun hc => hki hc.1]

theorem target_setUser (m : Mem) (n' : ℕ) (hi : i < 1024) {k : ℕ} (hk : k < 1024) :
    target (setEntry m (n * pageSize) i (entry m (n * pageSize) i ||| pageUser)) (n' * pageSize) k =
      target m (n' * pageSize) k := by
  rw [target_setEntry m (lor_user_lt (entry_lt m _ _)) hi hk]
  by_cases hc : n' = n ∧ k = i
  · rw [if_pos hc, hc.1, hc.2, lor_user_div, target_eq]
    simp only [isPresent_lor_user]
  · rw [if_neg hc]

theorem frameAt_setUser (m : Mem) (hi : i < 1024) {k l : ℕ} (hk : k < 1024) (hl : l < 1024) :
    frameAt (setEntry m (n * pageSize) i (entry m (n * pageSize) i ||| pageUser)) n k l = frameAt m n k l := by
  rw [frameAt, frameAt, target_setUser m n hi hk]
  exact congrArg _ (funext fun t => target_setUser m t hi hl)

theorem frameAt_addTable (hm : ∀ x, x / pageSize ≠ t → m₁ x = m x) (hsep : Separate m n) (htn : t ≠ n) (hi : i < 1024)
    (hnew : ∀ k < 1024, target m (n * pageSize) k ≠ some t) (hw : w < 2 ^ 32) (hp : isPresent w) (hwt : w / pageSize = t) :
    (∀ k < 1024, target (setEntry m₁ (n * pageSize) i w) (n * pageSize) k =
      if k = i then some t else target m (n * pageSize) k) ∧
    ∀ k < 1024, ∀ l < 1024, frameAt (setEntry m₁ (n * pageSize) i w) n k l =
      if k = i then target m₁ (t * pageSize) l else frameAt m n k l := by
  have hdir : ∀ k < 1024, target (setEntry m₁ (n * pageSize) i w) (n * pageSize) k =
      if k = i then some t else target m (n * pageSize) k := by
    intro k hk
    rw [target_setEntry m₁ hw hi hk]
    by_cases hki : k = i
    · rw [if_pos ⟨rfl,hki⟩, if_pos hki, if_pos hp, hwt]
    · rw [if_neg fun hc => hki hc.2, if_neg hki]
      exact target_congr hk fun x hx => hm x (by rw [hx]; exact htn.symm)
  have htable : ∀ t' ≠ n, ∀ l < 1024, target (setEntry m₁ (n * pageSize) i w) (t' * pageSize) l =
      target m₁ (t' * pageSize) l := by
    intro t' ht' l hl
    rw [target_setEntry m₁ hw hi hl, if_neg fun hc => ht' hc.1]
  refine ⟨hdir,fun k hk l hl => ?_⟩
  rw [frameAt, hdir k hk]
  by_cases hki : k = i
  · rw [if_pos hki, if_pos hki, Option.bind_some, htable t htn l hl]
  · rw [if_neg hki, if_neg hki, frameAt]
    cases hk' : target m (n * pageSize) k with
    | none => rfl
    | some t' =>
      rw [Option.bind_some, Option.bind_some, htable t' (hsep.ne_dir k hk t' hk') l hl]
      refine target_congr hl fun x hx => hm x ?_
      rw [hx]
      rintro rfl
      exact hnew k hk hk'

end

/-- The directory in frame `n` and `pd_tables` describe the same tables, which lie in frames of
their own that are in use. -/
structure KernelPages (pg : Paging) (p : Phys) (n : ℕ) : Prop where
  dir : pg.kernelDirectory = n * pageSize
  root : pg.pdPhysicalAddress = n * pageSize
  shadow : ∀ i < 1024, pg.pdTables i = (target p.mem (n * pageSize) i).elim 0 (· * pageSize)
  pos : ∀ i < 1024, ∀ t, target p.mem (n * pageSize) i = some t → 0 < t
  separate : Separate p.mem n
  dir_used : p.pmm.testFrame n = true
  used : ∀ i < 1024, ∀ t, target p.mem (n * pageSize) i = some t → p.pmm.testFrame t = true

namespace KernelPages
variable {pg : Paging} {p p' : Phys} {n i t : ℕ}

theorem table (h : KernelPages pg p n) (hi : i < 1024) (ht : target p.mem (n * pageSize) i = some t) :
    pg.pdTables i = t * pageSize ∧ pg.pdTables i ≠ 0 := by
  have hs := h.shadow i hi
  rw [ht, Option.elim_some] at hs
  exact ⟨hs,by rw [hs]; exact Nat.mul_ne_zero (Nat.ne_of_gt (h.pos i hi t ht)) (by decide)⟩

theorem translate_eq (h : KernelPages pg p n) (v : ℕ) : pagingTranslate pg p v =
    (frameAt p.mem n (pageDirIndex v) (pageTableIndex v)).elim 0 fun f => f * pageSize + v % pageSize := by
  have hi := pageDirIndex_lt v
  unfold pagingTranslate frameAt
  rw [h.dir]
  cases ht : target p.mem (n * pageSize) (pageDirIndex v) with
  | none =>
    have hp : ¬isPresent (entry p.mem (n * pageSize) (pageDirIndex v)) := by
      intro hp
      rw [target, if_pos hp] at ht
      cases ht
    rw [if_pos hp]
    rfl
  | some t =>
    obtain ⟨htab,hne⟩ := h.table hi ht
    rw [if_neg (not_not.mpr (target_eq_some ht).1), if_neg hne, htab, Option.bind_some, target]
    dsimp only
    by_cases hp : isPresent (entry p.mem (t * pageSize) (pageTableIndex v))
    · have hlt := entry_lt p.mem (t * pageSize) (pageTableIndex v)
      rw [if_neg (not_not.mpr hp), if_pos hp, Option.elim_some, pageFrame_eq hlt, Nat.mul_div_cancel _ (by decide), land_4095]
      exact frame_lor _ (Nat.mod_lt v (by decide))
    · rw [if_pos hp, if_neg hp]
      rfl

/-- The walk of the processor through the directory that CR3 points to. -/
theorem hardware_eq (h : KernelPages pg p n) (v : ℕ) :
    pagingTranslate pg p v = (translate p.mem pg.pdPhysicalAddress v).getD 0 := by
  rw [h.translate_eq, h.root, translate, walk_eq, frameAt]
  cases target p.mem (n * pageSize) (pageDirIndex v) with
  | none => rfl
  | some t =>
    rw [Option.bind_some, Option.bind_some, target]
    by_cases hp : isPresent (entry p.mem (t * pageSize) (pageTableIndex v))
    · have hlt := entry_lt p.mem (t * pageSize) (pageTableIndex v)
      rw [if_pos hp, if_pos hp, pageFrame_eq hlt, Nat.mul_div_cancel _ (by decide), Option.elim_some, Option.map_some,
        Option.getD_some, pageFrame_eq hlt]
    · rw [if_neg hp, if_neg hp]
      rfl

/-- Nothing is lost as long as the directory entries keep their frames and these stay in use. -/
theorem keep (h : KernelPages pg p n) (ht : ∀ k < 1024, target p'.mem (n * pageSize) k = target p.mem (n * pageSize) k)
    (hn : p'.pmm.testFrame n = true)
    (hu : ∀ k < 1024, ∀ t, target p.mem (n * pageSize) k = some t → p'.pmm.testFrame t = true) : KernelPages pg p' n where
  dir := h.dir
  root := h.root
  shadow i hi := by rw [ht i hi, h.shadow i hi]
  pos i hi t ht' := h.pos i hi t (by rw [← ht i hi, ht'])
  separate := by
    refine ⟨fun k hk t hkt => h.separate.ne_dir k hk t (by rw [← ht k hk, hkt]),fun k hk k' hk' t hkt hkt' => ?_⟩
    exact h.separate.inj k hk k' hk' t (by rw [← ht k hk, hkt]) (by rw [← ht k' hk', hkt'])
  dir_used := hn
  used i hi t ht' := hu i hi t (by rw [← ht i hi, ht'])

theorem fresh (h : KernelPages pg p n) (hfree : p.pmm.testFrame t = false) :
    t ≠ n ∧ ∀ k < 1024, target p.mem (n * pageSize) k ≠ some t := by
  refine ⟨?_,fun k hk ht => ?_⟩
  · rintro rfl
    exact Bool.false_ne_true (hfree.symm.trans h.dir_used)
  · exact Bool.false_ne_true (hfree.symm.trans (h.used k hk t ht))

theorem addTable {m₁ : Mem} {w : ℕ} (h : KernelPages pg p n) (hi : i < 1024)
    (hfree : p.pmm.testFrame t = false) (hpos : 0 < t) (hm : ∀ x, x / pageSize ≠ t → m₁ x = p.mem x)
    (hw : w < 2 ^ 32) (hp : isPresent w) (hwt : w / pageSize = t) :
    KernelPages { pg with pdTables := Function.update pg.pdTables i (t * pageSize) }
      ⟨setEntry m₁ (n * pageSize) i w,p.pmm.setFrame t⟩ n := by
  obtain ⟨htn,hnew⟩ := h.fresh hfree
  obtain ⟨hdir,_⟩ := frameAt_addTable hm h.separate htn hi hnew hw hp hwt
  have hcases : ∀ k < 1024, ∀ t', target (setEntry m₁ (n * pageSize) i w) (n * pageSize) k = some t' →
      (k = i ∧ t' = t) ∨ (k ≠ i ∧ target p.mem (n * pageSize) k = some t') := by
    intro k hk t' hkt
    rw [hdir k hk] at hkt
    split at hkt
    · next hki => exact Or.inl ⟨hki,(Option.some.inj hkt).symm⟩
    · next hki => exact Or.inr ⟨hki,hkt⟩
  refine ⟨h.dir,h.root,fun k hk => ?_,fun k hk t' hkt => ?_,⟨fun k hk t' hkt => ?_,fun k hk k' hk' t' hkt hkt' => ?_⟩,?_,
    fun k hk t' hkt => ?_⟩
  · rw [hdir k hk]
    by_cases hki : k = i
    · rw [if_pos hki, hki]
      exact Function.update_self ..
    · rw [if_neg hki, ← h.shadow k hk]
      exact Function.update_of_ne hki _ _
  · rcases hcases k hk t' hkt with ⟨_,rfl⟩ | ⟨_,hold⟩
    · exact hpos
    · exact h.pos k hk t' hold
  · rcases hcases k hk t' hkt with ⟨_,rfl⟩ | ⟨_,hold⟩
    · exact htn
    · exact h.separate.ne_dir k hk t' hold
  · rcases hcases k hk t' hkt with ⟨rfl,rfl⟩ | ⟨_,hold⟩
    · rcases hcases k' hk' t' hkt' with ⟨rfl,_⟩ | ⟨_,hold'⟩
      · rfl
      · exact absurd hold' (hnew k' hk')
    · rcases hcases k' hk' t' hkt' with ⟨_,rfl⟩ | ⟨_,hold'⟩
      · exact absurd hold (hnew k hk)
      · exact h.separate.inj k hk k' hk' t' hold hold'
  · change (p.pmm.setFrame t).testFrame n = true
    rw [Pmm.testFrame_setFrame, h.dir_used, Bool.or_true]
  · change (p.pmm.setFrame t).testFrame t' = true
    rw [Pmm.testFrame_setFrame]
    rcases hcases k hk t' hkt with ⟨_,rfl⟩ | ⟨_,hold⟩
    · simp
    · rw [h.used k hk t' hold, Bool.or_true]

theorem setPte {j w : ℕ} (h : KernelPages pg p n) (hi : i < 1024) (hj : j < 1024)
    (ht : target p.mem (n * pageSize) i = some t) (hw : w < 2 ^ 32) : KernelPages pg (p.setEntry (t * pageSize) j w) n :=
  h.keep (frameAt_setPte h.separate hi hj ht hw).1 h.dir_used h.used

end KernelPages

/-! ## The calls -/

/-- The call finds no table and can have none. -/
def MapFails (pg : Paging) (p : Phys) (virt : ℕ) : Prop :=
  ¬isPresent (entry p.mem pg.kernelDirectory (pageDirIndex virt)) ∧ p.allocPage.1 = 0

instance (pg : Paging) (p : Phys) (virt : ℕ) : Decidable (MapFails pg p virt) := inferInstanceAs (Decidable (_ ∧ _))

theorem Phys.allocPage_cases (p : Phys) :
    (p.allocPage.1 = 0 ∧ p.allocPage.2.mem = p.mem ∧ ∀ f, p.pmm.testFrame f = true → p.allocPage.2.pmm.testFrame f = true) ∨
    ∃ t, 0 < t ∧ t < totalFrames ∧ p.pmm.testFrame t = false ∧ p.allocPage = (t * pageSize, { p with pmm := p.pmm.setFrame t }) := by
  unfold Phys.allocPage
  rcases p.pmm.allocPage_spec with ⟨t,ht,hfree,_,he⟩ | ⟨he,_⟩
  · rw [he]
    rcases Nat.eq_zero_or_pos t with rfl | hpos
    · refine Or.inl ⟨Nat.zero_mul _,rfl,fun f hf => ?_⟩
      dsimp only
      rw [Pmm.testFrame_setFrame, hf, Bool.or_true]
    · exact Or.inr ⟨t,hpos,ht,hfree,rfl⟩
  · rw [he]
    exact Or.inl ⟨rfl,rfl,fun _ hf => hf⟩

theorem pdeValue_spec {t : ℕ} (ht : t < totalFrames) (flags : ℕ) :
    t * pageSize ||| pagePresent ||| pageWritable ||| (flags &&& pageUser) < 2 ^ 32 ∧
      isPresent (t * pageSize ||| pagePresent ||| pageWritable ||| (flags &&& pageUser)) ∧
      (t * pageSize ||| pagePresent ||| pageWritable ||| (flags &&& pageUser)) / pageSize = t := by
  have hlow : pagePresent ||| (pageWritable ||| (flags &&& pageUser)) < 4096 := by
    refine Nat.or_lt_two_pow (n := 12) (by decide) (Nat.or_lt_two_pow (by decide) ?_)
    exact Nat.lt_of_le_of_lt Nat.and_le_right (by decide)
  have heq : t * pageSize ||| pagePresent ||| pageWritable ||| (flags &&& pageUser) =
      t * pageSize + (pagePresent ||| (pageWritable ||| (flags &&& pageUser))) := by
    rw [Nat.or_assoc, Nat.or_assoc, frame_lor t hlow]
  have hodd : (pagePresent ||| (pageWritable ||| (flags &&& pageUser))) &&& pagePresent ≠ 0 := by
    rw [Nat.and_or_distrib_right, Nat.and_self]
    intro hz
    exact absurd (Nat.or_eq_zero_iff.mp hz).1 (by decide)
  rw [heq]
  refine ⟨?_,?_,?_⟩
  · simp only [totalFrames, pageSize] at ht ⊢
    omega
  · have hodd' := (isPresent_iff _).mp hodd
    rw [isPresent_iff]
    simp only [pageSize]
    omega
  · simp only [pageSize]
    omega

namespace KernelPages
variable {pg : Paging} {p : Phys} {n virt phys : ℕ}

theorem target_none_iff (h : KernelPages pg p n) :
    ¬isPresent (entry p.mem pg.kernelDirectory (pageDirIndex virt)) ↔ target p.mem (n * pageSize) (pageDirIndex virt) = none := by
  rw [h.dir, target]
  split
  · next hp => simpa using hp
  · next hp => simpa using hp

/-- Mapping a page when a table can be had maps that page and nothing else. -/
theorem map (h : KernelPages pg p n) (flags : ℕ) (hphys : phys < 2 ^ 32) (hok : ¬MapFails pg p virt) :
    KernelPages (pagingMapPage pg p virt phys flags).2 (pagingMapPage pg p virt phys flags).1 n ∧
    ∀ i < 1024, ∀ j < 1024, frameAt (pagingMapPage pg p virt phys flags).1.mem n i j =
      if i = pageDirIndex virt ∧ j = pageTableIndex virt then some (phys / pageSize) else frameAt p.mem n i j := by
  have hi := pageDirIndex_lt virt
  have hj := pageTableIndex_lt virt
  obtain ⟨hlt,hp,hdiv⟩ := pteValue_lt hphys flags
  -- once the slot holds the table `t`, the call writes one entry of it
  have hwrite : ∀ {pg' : Paging} {p' : Phys} {t : ℕ}, KernelPages pg' p' n →
      target p'.mem (n * pageSize) (pageDirIndex virt) = some t →
      (∀ i < 1024, ∀ j < 1024, frameAt p'.mem n i j = frameAt p.mem n i j) →
      kernelTableFor pg p (pageDirIndex virt) flags = (true, p', pg') →
      KernelPages (pagingMapPage pg p virt phys flags).2 (pagingMapPage pg p virt phys flags).1 n ∧
      ∀ i < 1024, ∀ j < 1024, frameAt (pagingMapPage pg p virt phys flags).1.mem n i j =
        if i = pageDirIndex virt ∧ j = pageTableIndex virt then some (phys / pageSize) else frameAt p.mem n i j := by
    intro pg' p' t h' ht hsame hfor
    have hcall : pagingMapPage pg p virt phys flags =
        (p'.setEntry (t * pageSize) (pageTableIndex virt) (pteValue phys flags), pg') := by
      rw [pagingMapPage, hfor]
      dsimp only
      rw [(h'.table hi ht).1]
      rfl
    rw [hcall]
    refine ⟨h'.setPte hi hj ht hlt,fun i hi' j hj' => ?_⟩
    rw [← hsame i hi' j hj']
    refine ((frameAt_setPte h'.separate hi hj ht hlt).2 i hi' j hj').trans ?_
    rw [if_pos hp, hdiv]
  cases ht : target p.mem (n * pageSize) (pageDirIndex virt) with
  | none =>
    have hnot := h.target_none_iff.mpr ht
    rcases p.allocPage_cases with ⟨hzero,_⟩ | ⟨t,hpos,htlt,hfree,he⟩
    · exact absurd ⟨hnot,hzero⟩ hok
    obtain ⟨hw,hwp,hwt⟩ := pdeValue_spec htlt flags
    obtain ⟨htn,hnew⟩ := h.fresh hfree
    have hm : ∀ x, x / pageSize ≠ t → fill p.mem (t * pageSize) pageSize 0 x = p.mem x := fun x hx => clear_apply _ hx
    obtain ⟨hdir,hframes⟩ := frameAt_addTable hm h.separate htn hi hnew hw hwp hwt
    refine hwrite (h.addTable hi hfree hpos hm hw hwp hwt) ((hdir _ hi).trans (if_pos rfl)) (fun i hi' j hj' => ?_) ?_
    · refine (hframes i hi' j hj').trans ?_
      by_cases hik : i = pageDirIndex virt
      · rw [if_pos hik, hik, frameAt, ht, target_clear _ hj', if_pos rfl]
        rfl
      · rw [if_neg hik]
    · have hz : t * pageSize ≠ 0 := Nat.mul_ne_zero (Nat.ne_of_gt hpos) (by decide)
      rw [kernelTableFor, if_pos hnot, he]
      dsimp only
      rw [if_neg hz, h.dir]
      rfl
  | some t =>
    have hpres : isPresent (entry p.mem pg.kernelDirectory (pageDirIndex virt)) := by
      rw [h.dir]
      exact (target_eq_some ht).1
    by_cases hu : flags &&& pageUser ≠ 0
    · have hkeep : KernelPages pg (p.setEntry (n * pageSize) (pageDirIndex virt)
          (entry p.mem (n * pageSize) (pageDirIndex virt) ||| pageUser)) n :=
        h.keep (fun k hk => target_setUser p.mem n hi hk) h.dir_used h.used
      refine hwrite hkeep ((target_setUser p.mem n hi hi).trans ht) (fun i hi' j hj' => frameAt_setUser p.mem hi hi' hj') ?_
      rw [kernelTableFor, if_neg (not_not.mpr hpres), if_pos hu, h.dir]
    · refine hwrite h ht (fun _ _ _ _ => rfl) ?_
      rw [kernelTableFor, if_neg (not_not.mpr hpres), if_neg hu]

theorem map_failed (h : KernelPages pg p n) (phys flags : ℕ) (hfail : MapFails pg p virt) :
    KernelPages (pagingMapPage pg p virt phys flags).2 (pagingMapPage pg p virt phys flags).1 n ∧
      (pagingMapPage pg p virt phys flags).1.mem = p.mem := by
  have hcall : pagingMapPage pg p virt phys flags = (p.allocPage.2, pg) := by
    rw [pagingMapPage, kernelTableFor, if_pos hfail.1]
    dsimp only
    rw [if_pos hfail.2]
  rw [hcall]
  rcases p.allocPage_cases with ⟨_,hmem,hused⟩ | ⟨t,hpos,_,_,he⟩
  · have hsame : ∀ k < 1024, target p.allocPage.2.mem (n * pageSize) k = target p.mem (n * pageSize) k :=
      fun _ _ => by rw [hmem]
    exact ⟨h.keep hsame (hused _ h.dir_used) fun k hk t ht => hused _ (h.used k hk t ht),hmem⟩
  · have hzero := hfail.2
    rw [he] at hzero
    exact absurd hzero (Nat.mul_ne_zero (Nat.ne_of_gt hpos) (by decide))

theorem unmap (h : KernelPages pg p n) (virt : ℕ) :
    KernelPages pg (pagingUnmapPage pg p virt) n ∧
    ∀ i < 1024, ∀ j < 1024, frameAt (pagingUnmapPage pg p virt).mem n i j =
      if i = pageDirIndex virt ∧ j = pageTableIndex virt then none else frameAt p.mem n i j := by
  have hi := pageDirIndex_lt virt
  have hj := pageTableIndex_lt virt
  unfold pagingUnmapPage
  cases ht : target p.mem (n * pageSize) (pageDirIndex virt) with
  | none =>
    rw [if_pos (h.target_none_iff.mpr ht)]
    refine ⟨h,fun i _ j _ => ?_⟩
    by_cases hij : i = pageDirIndex virt ∧ j = pageTableIndex virt
    · rw [if_pos hij, hij.1, frameAt, ht]
      rfl
    · rw [if_neg hij]
  | some t =>
    obtain ⟨htab,hne⟩ := h.table hi ht
    have hpres : isPresent (entry p.mem pg.kernelDirectory (pageDirIndex virt)) := by
      rw [h.dir]
      exact (target_eq_some ht).1
    rw [if_neg (not_not.mpr hpres), if_neg hne, htab]
    refine ⟨h.setPte hi hj ht (by decide),fun i hi' j hj' => ?_⟩
    refine ((frameAt_setPte h.separate hi hj ht (by decide)).2 i hi' j hj').trans ?_
    rw [if_neg (show ¬isPresent 0 by decide)]

end KernelPages

/-! ## `paging_init` -/

/-- Part of the way through `paging_init`: `c` tables map the first `c` chunks to themselves. -/
structure IdentityMapped (pg : Paging) (p : Phys) (c : ℕ) : Prop where
  pages : KernelPages pg p 513
  pool : Taken p.pmm (c + 1)
  identity : ∀ i < 1024, ∀ j < 1024, frameAt p.mem 513 i j = if i < c then some (i * 1024 + j) else none

theorem IdentityMapped.extend {pg : Paging} {p : Phys} {c : ℕ} (h : IdentityMapped pg p c) (hc : c < 4) :
    p.allocPage = ((514 + c) * pageSize, { p with pmm := p.pmm.setFrame (514 + c) }) ∧
      IdentityMapped (addIdentity pg p c (514 + c)).1 (addIdentity pg p c (514 + c)).2 (c + 1) := by
  have hc' : c < 1024 := by omega
  obtain ⟨hfree,he,hpool⟩ := h.pool.allocPage (by omega)
  rw [show 513 + (c + 1) = 514 + c by omega] at hfree he hpool
  have hlt : 514 + c < totalFrames := by
    unfold totalFrames
    omega
  obtain ⟨hw,hwp,hwt⟩ := pdeValue_spec hlt 0
  rw [Nat.zero_and, Nat.or_zero] at hw hwp hwt
  obtain ⟨htn,hnew⟩ := h.pages.fresh hfree
  have hm : ∀ x, x / pageSize ≠ 514 + c →
      storeWords p.mem ((514 + c) * pageSize) (identityTable c) pagesPerTable x = p.mem x := fun x hx => identity_apply _ hx
  obtain ⟨_,hframes⟩ := frameAt_addTable hm h.pages.separate htn hc' hnew hw hwp hwt
  have hpages := h.pages.addTable hc' hfree (by omega) hm hw hwp hwt
  rw [← h.pages.dir] at hpages
  refine ⟨by rw [Phys.allocPage, he],hpages,hpool,fun i hi j hj => ?_⟩
  unfold addIdentity
  rw [h.pages.dir]
  refine (hframes i hi j hj).trans ?_
  by_cases hic : i = c
  · obtain ⟨hid,_⟩ := identityTable_eq hc hj
    have hp : isPresent (identityTable c j) := by
      rw [isPresent_iff, hid]
      simp only [pageSize]
      omega
    rw [if_pos hic, target_eq, entry_identity p.mem hc hj, if_pos hp, hid, hic, if_pos (Nat.lt_succ_self c)]
    simp only [pageSize]
    congr 1
    omega
  · rw [if_neg hic, h.identity i hi j hj]
    by_cases hlt : i < c
    · rw [if_pos hlt, if_pos (by omega)]
    · rw [if_neg hlt, if_neg (by omega)]

/-- After `pmm_init` and `paging_init` the first 16 MB are mapped to themselves. -/
theorem pagingInit_identity (pg : Paging) (mem : Mem) (q : Pmm) :
    IdentityMapped (pagingInit pg ⟨mem,q.init⟩).2 (pagingInit pg ⟨mem,q.init⟩).1 4 := by
  have hinit : Taken q.init 0 := fun f => q.testFrame_init f
  obtain ⟨_,halloc,hpool⟩ := hinit.allocPage (by omega)
  rw [Nat.add_zero] at halloc hpool
  have he : Phys.allocPage ⟨mem,q.init⟩ = (513 * pageSize, ⟨mem,q.init.setFrame 513⟩) := by
    rw [Phys.allocPage, halloc]
  have hempty : ∀ k < 1024, target (fill mem (513 * pageSize) pageSize 0) (513 * pageSize) k = none := by
    intro k hk
    rw [target_clear mem hk, if_pos rfl]
  rw [pagingInit, he]
  dsimp only
  rw [if_neg (by decide)]
  refine pagingInitTables_rule (I := fun c pg p => IdentityMapped pg p c)
    (fun c hc pg p h => ⟨514 + c,by omega,h.extend hc⟩)
    ⟨⟨rfl,rfl,fun i hi => ?_,fun i hi t ht => ?_,⟨fun k hk t ht => ?_,fun k hk _ _ t ht => ?_⟩,
      ?_,fun i hi t ht => ?_⟩,hpool,fun i hi j hj => ?_⟩ (Nat.zero_add 4)
  · change 0 = (target (fill mem (513 * pageSize) pageSize 0) (513 * pageSize) i).elim 0 (· * pageSize)
    rw [hempty i hi]
    rfl
  · cases (hempty i hi).symm.trans ht
  · cases (hempty k hk).symm.trans ht
  · cases (hempty k hk).symm.trans ht
  · exact (hpool 513).trans (by decide)
  · cases (hempty i hi).symm.trans ht
  · rw [if_neg (Nat.not_lt_zero i), frameAt]
    change (target (fill mem (513 * pageSize) pageSize 0) (513 * pageSize) i).bind _ = none
    rw [hempty i hi]
    rfl

/-! ## Runs -/

/-- Calls that took effect. -/
inductive PageCall where
  | map (virt phys : UInt32)
  | unmap (virt : UInt32)

/-- The frame of a page after some calls, the last one first: that of the last call that mapped
it, unless it was unmapped since; before any call the first 16 MB are mapped to themselves. -/
def mappedFrame : List PageCall → ℕ → Option ℕ
  | [], page => if page < 4096 then some (page * pageSize) else none
  | .map virt phys :: calls, page =>
    if virt.toNat / pageSize = page then some (pageFrame phys.toNat) else mappedFrame calls page
  | .unmap virt :: calls, page => if virt.toNat / pageSize = page then none else mappedFrame calls page

/-- The frame holds the directory or a page table. -/
def HoldsTables (pg : Paging) (m : Mem) (f : ℕ) : Prop :=
  f * pageSize = pg.kernelDirectory ∨ ∃ i < 1024, isPresent (entry m pg.kernelDirectory i) ∧
    pageFrame (entry m pg.kernelDirectory i) = f * pageSize

/-- What the rest of the kernel does in between: it leaves the directory and the page tables
alone, and the memory manager keeps their frames. -/
structure Elsewhere (pg : Paging) (p p' : Phys) : Prop where
  mem : ∀ x, HoldsTables pg p.mem (x / pageSize) → p'.mem x = p.mem x
  pmm : ∀ f, HoldsTables pg p.mem f → p'.pmm.testFrame f = true

/-- States reached from `paging_init` by calls with any arguments, in any order. -/
inductive PagingRun (pg₀ : Paging) (mem : Mem) (q : Pmm) : List PageCall → Phys × Paging → Prop
  | init : PagingRun pg₀ mem q [] (pagingInit pg₀ ⟨mem,q.init⟩)
  | map {calls : List PageCall} {p : Phys} {pg : Paging} (virt phys flags : UInt32) (h : PagingRun pg₀ mem q calls (p, pg)) :
      PagingRun pg₀ mem q (if MapFails pg p virt.toNat then calls else .map virt phys :: calls)
        (pagingMapPage pg p virt.toNat phys.toNat flags.toNat)
  | unmap {calls : List PageCall} {p : Phys} {pg : Paging} (virt : UInt32) (h : PagingRun pg₀ mem q calls (p, pg)) :
      PagingRun pg₀ mem q (.unmap virt :: calls) (pagingUnmapPage pg p virt.toNat, pg)
  | elsewhere {calls : List PageCall} {p p' : Phys} {pg : Paging} (he : Elsewhere pg p p')
      (h : PagingRun pg₀ mem q calls (p, pg)) : PagingRun pg₀ mem q calls (p', pg)

theorem page_indices (v : UInt32) : v.toNat / pageSize = pageDirIndex v.toNat * 1024 + pageTableIndex v.toNat := by
  have hlt : v.toNat < 4294967296 := v.toNat_lt
  rw [pageDirIndex_eq, pageTableIndex_eq, pageSize]
  omega

theorem page_eq_iff {i j : ℕ} (v : UInt32) (hj : j < 1024) :
    v.toNat / pageSize = i * 1024 + j ↔ i = pageDirIndex v.toNat ∧ j = pageTableIndex v.toNat := by
  have hlt := pageTableIndex_lt v.toNat
  rw [page_indices]
  omega

/-- The tables say what the calls did. -/
def Describes (calls : List PageCall) (m : Mem) (n : ℕ) : Prop :=
  ∀ i < 1024, ∀ j < 1024, (frameAt m n i j).map (· * pageSize) = mappedFrame calls (i * 1024 + j)

section
variable {pg₀ : Paging} {mem : Mem} {q : Pmm} {calls : List PageCall} {p : Phys} {pg : Paging}

theorem KernelPages.elsewhere {p' : Phys} {n : ℕ} (h : KernelPages pg p n) (he : Elsewhere pg p p') :
    KernelPages pg p' n ∧ ∀ i < 1024, ∀ j < 1024, frameAt p'.mem n i j = frameAt p.mem n i j := by
  have hdir : ∀ x, x / pageSize = n → p'.mem x = p.mem x := fun x hx => he.mem x (Or.inl (by rw [hx, h.dir]))
  have hholds : ∀ k < 1024, ∀ t, target p.mem (n * pageSize) k = some t → HoldsTables pg p.mem t := by
    intro k hk t ht
    obtain ⟨hp,_,hf⟩ := target_eq_some ht
    exact Or.inr ⟨k,hk,by rw [h.dir]; exact hp,by rw [h.dir]; exact hf⟩
  have htarget : ∀ k < 1024, target p'.mem (n * pageSize) k = target p.mem (n * pageSize) k :=
    fun k hk => target_congr hk hdir
  refine ⟨h.keep htarget (he.pmm n (Or.inl h.dir.symm)) fun k hk t ht => he.pmm t (hholds k hk t ht),fun i hi j hj => ?_⟩
  rw [frameAt, frameAt, htarget i hi]
  cases ht : target p.mem (n * pageSize) i with
  | none => rfl
  | some t => exact target_congr hj fun x hx => he.mem x (by rw [hx]; exact hholds i hi t ht)

theorem PagingRun.describes {s : Phys × Paging} (hrun : PagingRun pg₀ mem q calls s) :
    ∃ n, KernelPages s.2 s.1 n ∧ Describes calls s.1.mem n := by
  induction hrun with
  | init =>
    have h := pagingInit_identity pg₀ mem q
    refine ⟨513,h.pages,fun i hi j hj => ?_⟩
    rw [h.identity i hi j hj, mappedFrame]
    by_cases hi4 : i < 4
    · rw [if_pos hi4, if_pos (by omega)]
      rfl
    · rw [if_neg hi4, if_neg (by omega)]
      rfl
  | @map calls p pg virt phys flags _ ih =>
    obtain ⟨n,h,hdesc⟩ := ih
    by_cases hfail : MapFails pg p virt.toNat
    · obtain ⟨hpages,hmem⟩ := h.map_failed phys.toNat flags.toNat hfail
      refine ⟨n,hpages,?_⟩
      rw [if_pos hfail, hmem]
      exact hdesc
    · obtain ⟨hpages,hframes⟩ := h.map flags.toNat phys.toNat_lt hfail
      refine ⟨n,hpages,fun i hi j hj => ?_⟩
      rw [if_neg hfail, hframes i hi j hj, mappedFrame]
      by_cases hij : i = pageDirIndex virt.toNat ∧ j = pageTableIndex virt.toNat
      · rw [if_pos hij, if_pos ((page_eq_iff virt hj).mpr hij), pageFrame_eq phys.toNat_lt]
        rfl
      · rw [if_neg hij, if_neg fun hc => hij ((page_eq_iff virt hj).mp hc)]
        exact hdesc i hi j hj
  | unmap virt _ ih =>
    obtain ⟨n,h,hdesc⟩ := ih
    obtain ⟨hpages,hframes⟩ := h.unmap virt.toNat
    refine ⟨n,hpages,fun i hi j hj => ?_⟩
    dsimp only
    rw [hframes i hi j hj, mappedFrame]
    by_cases hij : i = pageDirIndex virt.toNat ∧ j = pageTableIndex virt.toNat
    · rw [if_pos hij, if_pos ((page_eq_iff virt hj).mpr hij)]
      rfl
    · rw [if_neg hij, if_neg fun hc => hij ((page_eq_iff virt hj).mp hc)]
      exact hdesc i hi j hj
  | elsewhere he _ ih =>
    obtain ⟨n,h,hdesc⟩ := ih
    obtain ⟨hpages,hframes⟩ := h.elsewhere he
    exact ⟨n,hpages,fun i hi j hj => by rw [hframes i hi j hj]; exact hdesc i hi j hj⟩

theorem KernelPages.translate_congr {pg' : Paging} {p' : Phys} {n : ℕ} (h : KernelPages pg p n) (h' : KernelPages pg' p' n) {v : ℕ}
    (hv : frameAt p'.mem n (pageDirIndex v) (pageTableIndex v) = frameAt p.mem n (pageDirIndex v) (pageTableIndex v)) :
    pagingTranslate pg' p' v = pagingTranslate pg p v := by rw [h.translate_eq, h'.translate_eq, hv]

/-- The kernel's page map is a finite map. After any calls with any arguments, whatever
allocations fail: an address is translated to the frame its page was last mapped to, the first
16 MB to themselves where untouched, all else to 0; the processor's walk agrees, as do the two
records of every table; a call that fails changes no translation, and none changes that of
another page. -/
theorem pagingRun_translate (hrun : PagingRun pg₀ mem q calls (p, pg)) :
    (∀ v : UInt32, pagingTranslate pg p v.toNat =
      (mappedFrame calls (v.toNat / pageSize)).elim 0 fun f => f ||| v.toNat % pageSize) ∧
    (∀ v : UInt32, pagingTranslate pg p v.toNat = (translate p.mem pg.pdPhysicalAddress v.toNat).getD 0) ∧
    (∀ i < tablesPerDir, (isPresent (entry p.mem pg.pdPhysicalAddress i) ↔ pg.pdTables i ≠ 0) ∧
      (isPresent (entry p.mem pg.pdPhysicalAddress i) → pageFrame (entry p.mem pg.pdPhysicalAddress i) = pg.pdTables i)) ∧
    (∀ virt phys flags : UInt32, ∀ v : UInt32, MapFails pg p virt.toNat ∨ v.toNat / pageSize ≠ virt.toNat / pageSize →
      pagingTranslate (pagingMapPage pg p virt.toNat phys.toNat flags.toNat).2
        (pagingMapPage pg p virt.toNat phys.toNat flags.toNat).1 v.toNat = pagingTranslate pg p v.toNat) ∧
    ∀ virt v : UInt32, v.toNat / pageSize ≠ virt.toNat / pageSize →
      pagingTranslate pg (pagingUnmapPage pg p virt.toNat) v.toNat = pagingTranslate pg p v.toNat := by
  obtain ⟨n,h,hdesc⟩ := hrun.describes
  have hother : ∀ virt v : UInt32, v.toNat / pageSize ≠ virt.toNat / pageSize →
      ¬(pageDirIndex v.toNat = pageDirIndex virt.toNat ∧ pageTableIndex v.toNat = pageTableIndex virt.toNat) := by
    intro virt v hne hc
    rw [page_indices, page_indices, hc.1, hc.2] at hne
    exact hne rfl
  refine ⟨fun v => ?_,fun v => h.hardware_eq v.toNat,fun i hi => ?_,fun virt phys flags v hv => ?_,fun virt v hv => ?_⟩
  · rw [h.translate_eq, page_indices, ← hdesc _ (pageDirIndex_lt _) _ (pageTableIndex_lt _)]
    cases frameAt p.mem n (pageDirIndex v.toNat) (pageTableIndex v.toNat) with
    | none => rfl
    | some f => exact (frame_lor f (Nat.mod_lt v.toNat (by decide))).symm
  · rw [h.root]
    cases ht : target p.mem (n * pageSize) i with
    | none =>
      have hs := h.shadow i hi
      rw [ht, Option.elim_none] at hs
      have hp : ¬isPresent (entry p.mem (n * pageSize) i) := by
        intro hp
        rw [target, if_pos hp] at ht
        cases ht
      exact ⟨⟨fun hp' => absurd hp' hp,fun hne => absurd hs hne⟩,fun hp' => absurd hp' hp⟩
    | some t =>
      obtain ⟨htab,hne⟩ := h.table hi ht
      obtain ⟨hp,_,hf⟩ := target_eq_some ht
      exact ⟨⟨fun _ => hne,fun _ => hp⟩,fun _ => hf.trans htab.symm⟩
  · by_cases hfail : MapFails pg p virt.toNat
    · obtain ⟨hpages,hmem⟩ := h.map_failed phys.toNat flags.toNat hfail
      exact h.translate_congr hpages (by rw [hmem])
    · obtain ⟨hpages,hframes⟩ := h.map flags.toNat phys.toNat_lt hfail
      refine h.translate_congr hpages ?_
      rw [hframes _ (pageDirIndex_lt _) _ (pageTableIndex_lt _), if_neg (hother virt v (hv.resolve_left hfail))]
  · obtain ⟨hpages,hframes⟩ := h.unmap virt.toNat
    refine h.translate_congr hpages ?_
    rw [hframes _ (pageDirIndex_lt _) _ (pageTableIndex_lt _), if_neg (hother virt v hv)]

/-- After `paging_init` one page is mapped anew and another is unmapped; the last byte below 16 MB is still translated to
itself. -/
theorem pagingRun_translate_calls : ∃ p pg, PagingRun ⟨0,fun _ => 0,0⟩ (fun _ => 0) ⟨fun _ => 0,0,[]⟩
      [.unmap 0x200000, .map 0x300000 0xA00000] (p, pg) ∧
    pagingTranslate pg p 0x300123 = 0xA00123 ∧ pagingTranslate pg p 0x200000 = 0 ∧ pagingTranslate pg p 0xFFFFFF = 0xFFFFFF := by
  have hinit : PagingRun ⟨0,fun _ => 0,0⟩ (fun _ => 0) ⟨fun _ => 0,0,[]⟩ [] (pagingInit _ _) := .init
  generalize pagingInit _ _ = s at hinit
  obtain ⟨p,pg⟩ := s
  -- the page is translated, so its table is there
  have hmaps : ¬MapFails pg p (UInt32.toNat 0x300000) := by
    intro hfail
    have htranslate := (pagingRun_translate hinit).1 0x300000
    rw [pagingTranslate, if_pos hfail.1] at htranslate
    exact absurd htranslate (by decide)
  have hrun := (hinit.map 0x300000 0xA00000 3).unmap 0x200000
  rw [if_neg hmaps] at hrun
  obtain ⟨htranslate,-⟩ := pagingRun_translate hrun
  exact ⟨_,_,hrun,htranslate 0x300123,htranslate 0x200000,htranslate 0xFFFFFF⟩

end

end ApPa.Memory

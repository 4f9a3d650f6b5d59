import ApPa.Memory.Access
import Mathlib.Order.Interval.Finset.Nat

/-! # Memory at boot

`pmm_init` reserves the frames that are never handed out, and `paging_init` builds the
kernel's directory and its four identity tables. There are frames enough, so the loop of
`paging_init` runs to its end.
-/
namespace ApPa.Memory
open ByteMem Word32

/-- Reserved by `pmm_init`: the first 2 MB, the bitmap and the last megabyte. -/
def Reserved (f : ℕ) : Prop := f < 513 ∨ 3840 ≤ f ∧ f < totalFrames
instance (f : ℕ) : Decidable (Reserved f) := inferInstanceAs (Decidable (_ ∨ _))

def reservedFrames : Frames := fun f => if Reserved f then some .kernel else none

theorem count_reserved : Ledger.count (Finset.range totalFrames) reservedFrames = 769 := by
  have hset : ((Finset.range totalFrames).filter fun f => (reservedFrames f).isSome) =
      Finset.range 513 ∪ Finset.Ico 3840 totalFrames := by
    ext f
    rw [Finset.mem_filter, Finset.mem_union, Finset.mem_range, Finset.mem_range, Finset.mem_Ico, reservedFrames]
    by_cases h : Reserved f
    · rw [if_pos h]
      unfold Reserved at h
      simp only [totalFrames, Option.isSome_some, and_true] at *
      omega
    · rw [if_neg h]
      unfold Reserved at h
      simp only [totalFrames, Option.isSome_none, Bool.false_eq_true, and_false, false_iff] at *
      exact h
  have hdisj : Disjoint (Finset.range 513) (Finset.Ico 3840 totalFrames) := by
    refine Finset.disjoint_left.mpr fun f hf hf' => ?_
    rw [Finset.mem_range] at hf
    rw [Finset.mem_Ico] at hf'
    omega
  rw [Ledger.count, hset, Finset.card_union_of_disjoint hdisj, Finset.card_range, Nat.card_Ico]
  rfl

theorem accounts_init (p : Pmm) : Accounts reservedFrames p.init where
  used f := by
    rw [Pmm.testFrame_init]
    unfold reservedFrames Reserved
    by_cases h : f < 513 ∨ 3840 ≤ f ∧ f < 4096
    · simp [totalFrames, h]
    · simp [totalFrames, h]
  bound f hf := by
    by_contra hge
    refine hf (if_neg ?_)
    unfold Reserved totalFrames at *
    omega
  zero := by decide
  count := by
    rw [count_reserved, Pmm.usedFrames_init]
    rfl

/-! ## The kernel's tables -/

theorem identityTable_eq {i j : ℕ} (hi : i < 4) (hj : j < 1024) :
    identityTable i j = (i * 1024 + j) * pageSize + 3 ∧ identityTable i j < 2 ^ 32 := by
  have heq : i * 0x400000 + j * 0x1000 = (i * 1024 + j) * pageSize := by
    simp only [pageSize]
    omega
  have hid : identityTable i j = (i * 1024 + j) * pageSize + 3 := by
    rw [identityTable, heq, Nat.or_assoc]
    exact frame_lor _ (by decide)
  refine ⟨hid,?_⟩
  rw [hid]
  simp only [pageSize]
  omega

/-- The kernel's directory in frame `n`, with the tables of the chunks below `c`. -/
structure KernelTables (tables : ℕ → ℕ) (m : Mem) (L : Frames) (n c : ℕ) : Prop where
  dir : L n = some .kernel
  table : ∀ i < c, ∃ t, tables i = t * pageSize ∧ L t = some .kernelTable
  entries : ∀ i < c, entry m (n * pageSize) i = tables i + 3
  inj : ∀ i < c, ∀ j < c, tables i = tables j → i = j
  identity : ∀ i < c, ∀ j < 1024, entry m (tables i) j = identityTable i j

theorem entry_identity (m : Mem) {t i j : ℕ} (hi : i < 4) (hj : j < 1024) :
    entry (storeWords m (t * pageSize) (identityTable i) pagesPerTable) (t * pageSize) j = identityTable i j := by
  refine (read32_storeWords m _ _ hj).trans ?_
  rw [Nat.mod_eq_of_lt (identityTable_eq hi hj).2]

theorem identity_apply (m : Mem) {t i x : ℕ} (hx : x / pageSize ≠ t) :
    storeWords m (t * pageSize) (identityTable i) pagesPerTable x = m x := by
  refine storeWords_apply _ ?_
  simp only [pagesPerTable, pageSize] at *
  omega

theorem KernelTables.extend {tables : ℕ → ℕ} {m : Mem} {L : Frames} {n c t : ℕ} (h : KernelTables tables m L n c)
    (hc : c < 4) (ht : t < totalFrames) (hfree : L t = none) :
    KernelTables (Function.update tables c (t * pageSize))
      (setEntry (storeWords m (t * pageSize) (identityTable c) pagesPerTable) (n * pageSize) c
        (t * pageSize ||| pagePresent ||| pageWritable)) (Function.update L t (some .kernelTable)) n (c + 1) := by
  have hnt : n ≠ t := Ledger.ne_of_free h.dir hfree
  have hv : t * pageSize ||| pagePresent ||| pageWritable = t * pageSize + 3 := by
    rw [Nat.or_assoc]
    exact frame_lor t (by decide)
  have hvlt : t * pageSize + 3 < 2 ^ 32 := by
    simp only [totalFrames, pageSize] at ht ⊢
    omega
  have hc' : c < 1024 := by omega
  have hold : ∀ i < c, ∃ t', tables i = t' * pageSize ∧ L t' = some .kernelTable ∧ t' ≠ t ∧ t' ≠ n := by
    intro i hi
    obtain ⟨t',ht',hL⟩ := h.table i hi
    refine ⟨t',ht',hL,Ledger.ne_of_free hL hfree,?_⟩
    rintro rfl
    rw [h.dir] at hL
    cases hL
  have hsplit : ∀ i < c + 1, i ≠ c → i < c := by omega
  have hself : Function.update tables c (t * pageSize) c = t * pageSize := Function.update_self ..
  have hother : ∀ i, i ≠ c → Function.update tables c (t * pageSize) i = tables i :=
    fun i hi => Function.update_of_ne hi _ _
  refine ⟨?_,fun i hi => ?_,fun i hi => ?_,fun i hi j hj he => ?_,fun i hi j hj => ?_⟩
  · rw [Function.update_of_ne hnt, h.dir]
  · by_cases hic : i = c
    · subst hic
      exact ⟨t,hself,Function.update_self ..⟩
    · obtain ⟨t',ht',hL,htt,_⟩ := hold i (hsplit i hi hic)
      exact ⟨t',by rw [hother i hic, ht'],by rw [Function.update_of_ne htt, hL]⟩
  · rw [entry_setEntry _ _ hc' (by omega)]
    by_cases hic : i = c
    · subst hic
      rw [if_pos ⟨rfl,rfl⟩, hv, Nat.mod_eq_of_lt hvlt, hself]
    · rw [if_neg (fun hcon => hic hcon.2), hother i hic, ← h.entries i (hsplit i hi hic)]
      exact entry_congr (by omega) fun x hx => identity_apply m (hx ▸ hnt)
  · by_cases hic : i = c
    · by_cases hjc : j = c
      · rw [hic, hjc]
      · obtain ⟨t',ht',_,htt,_⟩ := hold j (hsplit j hj hjc)
        rw [hic, hself, hother j hjc, ht'] at he
        exact absurd (Nat.eq_of_mul_eq_mul_right (by decide) he).symm htt
    · by_cases hjc : j = c
      · obtain ⟨t',ht',_,htt,_⟩ := hold i (hsplit i hi hic)
        rw [hjc, hself, hother i hic, ht'] at he
        exact absurd (Nat.eq_of_mul_eq_mul_right (by decide) he) htt
      · rw [hother i hic, hother j hjc] at he
        exact h.inj i (hsplit i hi hic) j (hsplit j hj hjc) he
  · by_cases hic : i = c
    · subst hic
      rw [hself, entry_setEntry _ _ hc' hj, if_neg (fun hcon => hnt hcon.1.symm)]
      exact entry_identity m hc hj
    · obtain ⟨t',ht',_,htt,htn⟩ := hold i (hsplit i hi hic)
      rw [hother i hic, ht', entry_setEntry _ _ hc' hj, if_neg (fun hcon => htn hcon.1),
        ← h.identity i (hsplit i hi hic) j hj, ht']
      exact entry_congr hj fun x hx => identity_apply m (hx ▸ htt)

/-- The kernel's memory once `paging_init` is done. -/
structure Booted (pg : Paging) (p : Phys) (L : Frames) (c : ℕ) : Prop where
  accounts : Accounts L p.pmm
  tables : ∃ n, pg.kernelDirectory = n * pageSize ∧ KernelTables pg.pdTables p.mem L n c
  root : pg.pdPhysicalAddress = pg.kernelDirectory
  reserved : ∀ f, Reserved f → L f = some .kernel
  owners : ∀ f o, L f = some o → o = .kernel ∨ o = .kernelTable
  count : Ledger.count (Finset.range totalFrames) L = 770 + c

theorem Accounts.alloc_room {L : Frames} {p : Phys} (h : Accounts L p.pmm)
    (hroom : Ledger.count (Finset.range totalFrames) L < totalFrames) :
    ∃ n, 0 < n ∧ n < totalFrames ∧ L n = none ∧ p.allocPage = (n * pageSize, { p with pmm := p.pmm.setFrame n }) := by
  rcases Phys.alloc_cases h with ⟨_,hfull⟩ | hn
  · rw [Ledger.count_eq_card fun f hf => hfull f (Finset.mem_range.mp hf), Finset.card_range] at hroom
    exact absurd hroom (Nat.lt_irrefl _)
  · exact hn

/-- The kernel's state after a turn of the loop of `paging_init` that put table `c` into frame `t`. -/
def addIdentity (pg : Paging) (p : Phys) (c t : ℕ) : Paging × Phys :=
  ({ pg with pdTables := Function.update pg.pdTables c (t * pageSize) },
    ⟨setEntry (storeWords p.mem (t * pageSize) (identityTable c) pagesPerTable) pg.kernelDirectory c
      (t * pageSize ||| pagePresent ||| pageWritable),p.pmm.setFrame t⟩)

/-- What every turn that gets a frame keeps holds after the loop. -/
theorem pagingInitTables_rule {I : ℕ → Paging → Phys → Prop}
    (hstep : ∀ c < 4, ∀ pg p, I c pg p → ∃ t, t ≠ 0 ∧ p.allocPage = (t * pageSize, { p with pmm := p.pmm.setFrame t }) ∧
      I (c + 1) (addIdentity pg p c t).1 (addIdentity pg p c t).2)
    {pg : Paging} {p : Phys} {c d : ℕ} (h : I c pg p) (hd : c + d = 4) :
    I 4 (pagingInitTables pg p c d).2 (pagingInitTables pg p c d).1 := by
  induction d generalizing pg p c with
  | zero =>
    obtain rfl : c = 4 := hd
    exact h
  | succ d ih =>
    obtain ⟨t,hz,he,hnext⟩ := hstep c (by omega) pg p h
    rw [pagingInitTables, he]
    dsimp only
    rw [if_neg (Nat.mul_ne_zero hz (by decide))]
    exact ih hnext (by omega)

theorem Booted.extend {pg : Paging} {p : Phys} {L : Frames} {c t : ℕ} (h : Booted pg p L c) (hc : c < 4)
    (ht : t < totalFrames) (hfree : L t = none) :
    Booted (addIdentity pg p c t).1 (addIdentity pg p c t).2 (Function.update L t (some .kernelTable)) (c + 1) := by
  obtain ⟨n,hn,htables⟩ := h.tables
  have hnext := htables.extend hc ht hfree
  rw [← hn] at hnext
  refine ⟨h.accounts.take ht hfree _,⟨n,hn,hnext⟩,h.root,fun f hf => ?_,fun f o ho => ?_,?_⟩
  · have hL := h.reserved f hf
    rw [Function.update_of_ne (Ledger.ne_of_free hL hfree), hL]
  · by_cases hft : f = t
    · rw [hft, Function.update_self, Option.some.injEq] at ho
      exact Or.inr ho.symm
    · rw [Function.update_of_ne hft] at ho
      exact h.owners f o ho
  · rw [Ledger.count_take (Finset.mem_range.mpr ht) hfree, h.count]
    omega

theorem pagingInitTables_booted {pg : Paging} {p : Phys} {L : Frames} (h : Booted pg p L 0) :
    ∃ L', Booted (pagingInitTables pg p 0 4).2 (pagingInitTables pg p 0 4).1 L' 4 ∧
      (pagingInitTables pg p 0 4).1.pmm.errors = p.pmm.errors := by
  refine pagingInitTables_rule (I := fun c pg' p' => ∃ L, Booted pg' p' L c ∧ p'.pmm.errors = p.pmm.errors)
    (fun c hc pg' p' hbooted => ?_) ⟨L,h,rfl⟩ (Nat.zero_add 4)
  obtain ⟨L,hL,herr⟩ := hbooted
  obtain ⟨t,hpos,ht,hfree,he⟩ := hL.accounts.alloc_room (by rw [hL.count]; simp only [totalFrames]; omega)
  exact ⟨t,Nat.ne_of_gt hpos,he,_,hL.extend hc ht hfree,herr⟩

/-- The kernel's map after `pmm_init` and `paging_init`. -/
theorem pagingInit_booted (pg : Paging) {p : Phys} {q : Pmm} (hp : p.pmm = q.init) :
    ∃ L, Booted (pagingInit pg p).2 (pagingInit pg p).1 L 4 ∧ (pagingInit pg p).1.pmm.errors = q.errors := by
  have hacc : Accounts reservedFrames p.pmm := by
    rw [hp]
    exact accounts_init q
  obtain ⟨n,hpos,hn,hfree,he⟩ := hacc.alloc_room (by rw [count_reserved]; unfold totalFrames; omega)
  have hz : n * pageSize ≠ 0 := Nat.mul_ne_zero (Nat.ne_of_gt hpos) (by decide)
  rw [pagingInit, he]
  dsimp only
  rw [if_neg hz]
  have hstart : Booted ⟨n * pageSize,fun _ => 0,n * pageSize⟩
      (Phys.clearPage ⟨p.mem,p.pmm.setFrame n⟩ (n * pageSize))
      (Function.update reservedFrames n (some .kernel)) 0 := by
    refine ⟨hacc.take hn hfree _,⟨n,rfl,Function.update_self ..,?_,?_,?_,?_⟩,rfl,fun f hf => ?_,fun f o ho => ?_,?_⟩
    · intro i hi
      exact absurd hi (Nat.not_lt_zero i)
    · intro i hi
      exact absurd hi (Nat.not_lt_zero i)
    · intro i hi
      exact absurd hi (Nat.not_lt_zero i)
    · intro i hi
      exact absurd hi (Nat.not_lt_zero i)
    · have hL : reservedFrames f = some .kernel := if_pos hf
      rw [Function.update_of_ne (Ledger.ne_of_free hL hfree), hL]
    · left
      by_cases hfn : f = n
      · rw [hfn, Function.update_self, Option.some.injEq] at ho
        exact ho.symm
      · rw [Function.update_of_ne hfn, reservedFrames] at ho
        split at ho
        · exact (Option.some.inj ho).symm
        · cases ho
    · rw [Ledger.count_take (Finset.mem_range.mpr hn) hfree, count_reserved]
  obtain ⟨L,hL,herr⟩ := pagingInitTables_booted hstart
  refine ⟨L,hL,herr.trans ?_⟩
  rw [← q.errors_init, ← hp]
  rfl

namespace Booted
variable {pg : Paging} {p : Phys} {L : Frames}

theorem kernelMap (h : Booted pg p L 4) : KernelMap pg p.mem L := by
  obtain ⟨n,hn,ht⟩ := h.tables
  exact ⟨⟨n,hn,ht.dir⟩,ht.table,hn ▸ ht.entries,ht.inj⟩

theorem supervisor (h : Booted pg p L 4) {i j : ℕ} (hi : i < 4) (hj : j < 1024) : ¬isUser (entry p.mem (pg.pdTables i) j) := by
  obtain ⟨_,_,ht⟩ := h.tables
  rw [ht.identity i hi j hj, (identityTable_eq hi hj).1, isUser_iff]
  simp only [pageSize]
  omega

theorem kernelClosed (h : Booted pg p L 4) : KernelClosed pg p.mem := fun _ hi _ hj hu => absurd hu (h.supervisor hi hj)

end Booted

/-! ## Where the frames lie

Frames are handed out from below, so the directory and its tables follow the bitmap.
-/

/-- The reserved frames are in use and, of the others, the first `c`. -/
def Taken (p : Pmm) (c : ℕ) : Prop := ∀ f, p.testFrame f = decide (f < 513 + c ∨ 3840 ≤ f ∧ f < totalFrames)

theorem Taken.allocPage {p : Pmm} {c : ℕ} (h : Taken p c) (hc : c < 3327) :
    p.testFrame (513 + c) = false ∧ p.allocPage = ((513 + c) * pageSize, p.setFrame (513 + c)) ∧
      Taken (p.setFrame (513 + c)) (c + 1) := by
  have hfree : p.testFrame (513 + c) = false := by
    rw [h, decide_eq_false_iff_not]
    omega
  refine ⟨hfree,Pmm.allocPage_at hfree (by unfold totalFrames; omega) fun f hf => ?_,fun f => ?_⟩
  · rw [h, decide_eq_true_iff]
    exact Or.inl hf
  · rw [Pmm.testFrame_setFrame, h, Bool.eq_iff_iff]
    simp only [Bool.or_eq_true, decide_eq_true_eq]
    omega

theorem pagingInitTables_taken (pg : Paging) (p : Phys) (h : Taken p.pmm 1) (hdir : pg.kernelDirectory = 513 * pageSize) :
    Taken (pagingInitTables pg p 0 4).1.pmm 5 ∧ (pagingInitTables pg p 0 4).2.kernelDirectory = 513 * pageSize ∧
      ∀ x, x / pageSize < 513 ∨ 518 ≤ x / pageSize → (pagingInitTables pg p 0 4).1.mem x = p.mem x := by
  refine pagingInitTables_rule (I := fun c pg' p' => Taken p'.pmm (c + 1) ∧ pg'.kernelDirectory = 513 * pageSize ∧
      ∀ x, x / pageSize < 513 ∨ 518 ≤ x / pageSize → p'.mem x = p.mem x)
    (fun c hc pg' p' hinv => ?_) ⟨h,hdir,fun _ _ => rfl⟩ (Nat.zero_add 4)
  obtain ⟨htaken,hdir',hmem⟩ := hinv
  obtain ⟨_,he,hnext⟩ := htaken.allocPage (by omega)
  refine ⟨513 + (c + 1),by omega,by rw [Phys.allocPage, he],hnext,hdir',fun x hx => Eq.trans ?_ (hmem x hx)⟩
  have hentry : x < pg'.kernelDirectory + 4 * c ∨ pg'.kernelDirectory + 4 * c + 4 ≤ x := by
    rw [hdir']
    simp only [pageSize] at hx ⊢
    omega
  have hpage : x / pageSize ≠ 513 + (c + 1) := by omega
  exact (write32_apply hentry).trans (identity_apply p'.mem hpage)

/-- `paging_init` after `pmm_init` writes five frames, right behind the bitmap. -/
theorem pagingInit_taken (pg : Paging) (m : Mem) (q : Pmm) :
    Taken (pagingInit pg ⟨m,q.init⟩).1.pmm 5 ∧ (pagingInit pg ⟨m,q.init⟩).2.kernelDirectory = 513 * pageSize ∧
      ∀ x, x / pageSize < 513 ∨ 518 ≤ x / pageSize → (pagingInit pg ⟨m,q.init⟩).1.mem x = m x := by
  have hinit : Taken q.init 0 := fun f => q.testFrame_init f
  obtain ⟨_,he,htaken⟩ := hinit.allocPage (by omega)
  rw [Nat.add_zero] at he htaken
  have halloc : (⟨m,q.init⟩ : Phys).allocPage = (513 * pageSize, ⟨m,q.init.setFrame 513⟩) := by
    rw [Phys.allocPage, he]
  obtain ⟨dir,hdir⟩ : ∃ dir, dir = 513 * pageSize := ⟨_,rfl⟩
  have hz : dir ≠ 0 := hdir ▸ Nat.mul_ne_zero (by omega) (by decide)
  rw [← hdir] at halloc ⊢
  rw [pagingInit, halloc]
  dsimp only
  rw [if_neg hz]
  obtain ⟨hend,hdir',hmem⟩ := pagingInitTables_taken ⟨dir,fun _ => 0,dir⟩
    ⟨fill m dir pageSize 0,q.init.setFrame 513⟩ htaken hdir
  refine ⟨hend,hdir'.trans hdir.symm,fun x hx => (hmem x hx).trans ?_⟩
  have hpage : x < dir ∨ dir + pageSize ≤ x := by
    simp only [pageSize] at hx hdir ⊢
    omega
  exact fill_apply hpage

end ApPa.Memory

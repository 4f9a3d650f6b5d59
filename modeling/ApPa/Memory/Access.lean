import ApPa.Memory.UserSpace

/-! # What a task can reach

The processor's walk through a directory and its tables, and how mapping a page changes
it. A directory opens a list of pages when Ring 3 reaches these pages and no others.
-/
namespace ApPa.Memory
open ByteMem Word32

/-- The entries of the directory and of the table for an address, if both are present. -/
def walk (m : Mem) (dir virt : ℕ) : Option (ℕ × ℕ) :=
  let pde := entry m dir (pageDirIndex virt)
  if isPresent pde then
    let pte := entry m (pageFrame pde) (pageTableIndex virt)
    if isPresent pte then some (pde, pte) else none
  else none

/-- Ring 3 may access an address when both entries have the user bit. -/
def Accessible (m : Mem) (dir virt : ℕ) : Prop := ∃ e, walk m dir virt = some e ∧ isUser e.1 ∧ isUser e.2

def translate (m : Mem) (dir virt : ℕ) : Option ℕ := (walk m dir virt).map fun e => pageFrame e.2 + virt % pageSize

def isWritable (entry : ℕ) : Prop := entry &&& pageWritable ≠ 0
instance (entry : ℕ) : Decidable (isWritable entry) := inferInstanceAs (Decidable (_ ≠ _))

theorem isWritable_iff (e : ℕ) : isWritable e ↔ e / 2 % 2 = 1 := by
  unfold isWritable pageWritable
  rw [show (2 : ℕ) = 2 ^ 1 from rfl, Nat.and_two_pow e 1, Nat.testBit_eq_decide_div_mod_eq]
  simp

theorem isWritable_lor_user (e : ℕ) : isWritable (e ||| pageUser) ↔ isWritable e := by
  unfold isWritable
  rw [Nat.and_or_distrib_right, show pageUser &&& pageWritable = 0 from rfl, Nat.or_zero]

theorem isWritable_pteValue (phys flags : ℕ) : isWritable (pteValue phys flags) ↔ isWritable flags := by
  have hframe : phys &&& pageFrameMask &&& pageWritable = 0 := by
    rw [Nat.and_assoc, show pageFrameMask &&& pageWritable = 0 from rfl, Nat.and_zero]
  unfold isWritable pteValue
  rw [Nat.and_or_distrib_right, Nat.and_or_distrib_right, hframe, Nat.and_assoc flags,
    show (0xFFF : ℕ) &&& pageWritable = pageWritable from rfl, show pagePresent &&& pageWritable = 0 from rfl, Nat.or_zero,
    Nat.zero_or]

/-- The tables of a directory lie in frames of their own. -/
structure Separate (m : Mem) (n : ℕ) : Prop where
  ne_dir : ∀ k < 1024, ∀ t, target m (n * pageSize) k = some t → t ≠ n
  inj : ∀ k < 1024, ∀ k' < 1024, ∀ t, target m (n * pageSize) k = some t → target m (n * pageSize) k' = some t → k = k'

variable {pg : Paging} {L L' : Frames} {tag : Option (Fin 64)} {p p' : Phys} {m m' : Mem} {n t virt v pte : ℕ}

theorem UserSpace.label (h : UserSpace pg L tag m n) {k : ℕ} (hk : k < 1024) (ht : target m (n * pageSize) k = some t) :
    L t = some (.task tag .pt0) ∧ k = 0 ∨ L t = some .kernelTable ∧ 1 ≤ k ∧ k < kernelPdeCount ∨
      L t = some (.task tag (.table k)) := by
  by_cases h0 : k = 0
  · subst h0
    exact Or.inl ⟨h.owned.owned .pt0 t ht,rfl⟩
  · by_cases h4 : k < kernelPdeCount
    · obtain ⟨t',_,ht',hL⟩ := h.shared k (Nat.pos_of_ne_zero h0) h4
      rw [ht, Option.some.injEq] at ht'
      exact Or.inr (Or.inl ⟨ht' ▸ hL,Nat.pos_of_ne_zero h0,h4⟩)
    · exact Or.inr (Or.inr (h.owned.table (Nat.not_lt.mp h4) hk ht))

theorem UserSpace.table_used (h : UserSpace pg L tag m n) {k : ℕ} (hk : k < 1024) (hfree : L t = none) :
    target m (n * pageSize) k ≠ some t := by
  intro ht
  rcases h.label hk ht with ⟨hl,_⟩ | ⟨hl,_⟩ | hl
  · rw [hfree] at hl
    cases hl
  · rw [hfree] at hl
    cases hl
  · rw [hfree] at hl
    cases hl

theorem UserSpace.separate (h : UserSpace pg L tag m n) : Separate m n := by
  refine ⟨fun k hk t ht => ?_,fun k hk k' hk' t ht ht' => ?_⟩
  · rintro rfl
    have hd := h.owned.dir
    rcases h.label hk ht with ⟨hl,_⟩ | ⟨hl,_⟩ | hl <;> rw [hd] at hl <;> cases hl
  · rcases h.label hk ht with ⟨hl,rfl⟩ | ⟨hl,h1,h4⟩ | hl
    · rcases h.label hk' ht' with ⟨_,rfl⟩ | ⟨hl',_⟩ | hl'
      · rfl
      · rw [hl] at hl'
        cases hl'
      · rw [hl] at hl'
        cases hl'
    · rcases h.label hk' ht' with ⟨hl',_⟩ | ⟨_,h1',h4'⟩ | hl'
      · rw [hl] at hl'
        cases hl'
      · obtain ⟨a,ha,hta,_⟩ := h.shared k h1 h4
        obtain ⟨b,hb,htb,_⟩ := h.shared k' h1' h4'
        rw [ht, Option.some.injEq] at hta
        rw [ht', Option.some.injEq] at htb
        refine h.inj k h4 k' h4' ?_
        rw [ha, hb, ← hta, ← htb]
      · rw [hl] at hl'
        cases hl'
    · rcases h.label hk' ht' with ⟨hl',_⟩ | ⟨hl',_⟩ | hl'
      · rw [hl] at hl'
        cases hl'
      · rw [hl] at hl'
        cases hl'
      · rw [hl] at hl'
        cases hl'
        rfl

theorem walk_eq (m : Mem) (n v : ℕ) :
    walk m (n * pageSize) v = (target m (n * pageSize) (pageDirIndex v)).bind fun t =>
      if isPresent (entry m (t * pageSize) (pageTableIndex v)) then
        some (entry m (n * pageSize) (pageDirIndex v), entry m (t * pageSize) (pageTableIndex v))
      else none := by
  unfold walk
  cases ht : target m (n * pageSize) (pageDirIndex v) with
  | none =>
    have hp : ¬isPresent (entry m (n * pageSize) (pageDirIndex v)) := by
      intro hp
      rw [target, if_pos hp] at ht
      cases ht
    exact if_neg hp
  | some t =>
    obtain ⟨hp,_,hf⟩ := target_eq_some ht
    dsimp only
    rw [if_pos hp, hf, Option.bind_some]

theorem walk_congr {v : ℕ} (h : ∀ x, x / pageSize = n ∨ target m (n * pageSize) (pageDirIndex v) = some (x / pageSize) →
    m' x = m x) : walk m' (n * pageSize) v = walk m (n * pageSize) v := by
  have hi := pageDirIndex_lt v
  have hdir : ∀ x, x / pageSize = n → m' x = m x := fun x hx => h x (Or.inl hx)
  rw [walk_eq, walk_eq, target_congr hi hdir, entry_congr hi hdir]
  cases ht : target m (n * pageSize) (pageDirIndex v) with
  | none => rfl
  | some t =>
    have htab : ∀ x, x / pageSize = t → m' x = m x := fun x hx => h x (Or.inr (hx ▸ ht))
    rw [Option.bind_some, Option.bind_some, entry_congr (pageTableIndex_lt v) htab]

theorem UserSpace.walk_keep (h : UserSpace pg L tag m n)
    (hm : ∀ x o, L (x / pageSize) = some o → o ≠ .task tag .kstack → (∀ i j, o ≠ .task tag (.page i j)) → m' x = m x)
    (v : ℕ) : walk m' (n * pageSize) v = walk m (n * pageSize) v := by
  refine walk_congr fun x hx => ?_
  rcases hx with hx | ht
  · exact hm x _ (hx ▸ h.owned.dir) (by simp) (by simp)
  · rcases h.label (pageDirIndex_lt v) ht with ⟨hl,_⟩ | ⟨hl,_⟩ | hl
    · exact hm x _ hl (by simp) (by simp)
    · exact hm x _ hl (by simp) (by simp)
    · exact hm x _ hl (by simp) (by simp)

/-- The page of `virt` is mapped by `pte`, and its table is opened. -/
structure Adds (m m' : Mem) (n virt pte : ℕ) : Prop where
  self : ∃ pde, isUser pde ∧ ∀ v, pageDirIndex v = pageDirIndex virt → pageTableIndex v = pageTableIndex virt →
    walk m' (n * pageSize) v = some (pde, pte)
  table : ∀ v, pageDirIndex v = pageDirIndex virt → pageTableIndex v ≠ pageTableIndex virt →
    walk m' (n * pageSize) v = (walk m (n * pageSize) v).map fun e => (e.1 ||| pageUser, e.2)
  other : ∀ v, pageDirIndex v ≠ pageDirIndex virt → walk m' (n * pageSize) v = walk m (n * pageSize) v

theorem isUser_lor_user (e : ℕ) : isUser (e ||| pageUser) := by
  unfold isUser
  rw [Nat.and_or_distrib_right, Nat.and_self]
  intro hz
  exact absurd (Nat.or_eq_zero_iff.mp hz).2 (by decide)

/-- An entry of the directory for the table in frame `t`, and one of that table for the page. `m₁` is the memory with the
table as it was or as it has just been cleared. -/
theorem adds_entries {m₁ : Mem} {pde : ℕ} (hsep : Separate m n)
    (hm₁ : ∀ f k, f ≠ t → k < 1024 → entry m₁ (f * pageSize) k = entry m (f * pageSize) k) (htn : t ≠ n)
    (hown : ∀ k < 1024, target m (n * pageSize) k = some t → k = pageDirIndex virt) (hpde : pde < 2 ^ 32)
    (hframe : pde / pageSize = t) (hpresent : isPresent pde) (huser : isUser pde) (hpte : pte < 2 ^ 32) (hp : isPresent pte)
    (hold : ∀ v, pageDirIndex v = pageDirIndex virt → (walk m (n * pageSize) v).map (fun e => (e.1 ||| pageUser, e.2)) =
      if isPresent (entry m₁ (t * pageSize) (pageTableIndex v)) then
        some (pde, entry m₁ (t * pageSize) (pageTableIndex v)) else none) :
    Adds m (setEntry (setEntry m₁ (n * pageSize) (pageDirIndex virt) pde) (t * pageSize) (pageTableIndex virt) pte) n virt pte ∧
      entry (setEntry (setEntry m₁ (n * pageSize) (pageDirIndex virt) pde) (t * pageSize) (pageTableIndex virt) pte)
        (n * pageSize) (pageDirIndex virt) = pde := by
  have hi := pageDirIndex_lt virt
  have hj := pageTableIndex_lt virt
  let m₂ := setEntry (setEntry m₁ (n * pageSize) (pageDirIndex virt) pde) (t * pageSize) (pageTableIndex virt) pte
  have hdir : ∀ k < 1024, entry m₂ (n * pageSize) k = if k = pageDirIndex virt then pde else entry m (n * pageSize) k := by
    intro k hk
    refine (entry_setEntry _ pte hj hk).trans ?_
    rw [if_neg (fun hc => htn hc.1.symm), entry_setEntry _ _ hi hk, Nat.mod_eq_of_lt hpde, hm₁ n k htn.symm hk]
    simp
  have htab : ∀ f l, f ≠ n → l < 1024 → entry m₂ (f * pageSize) l =
      if f = t ∧ l = pageTableIndex virt then pte else entry m₁ (f * pageSize) l := by
    intro f l hf hl
    refine (entry_setEntry _ pte hj hl).trans ?_
    rw [entry_setEntry _ _ hi hl, if_neg (fun hc : f = n ∧ _ => hf hc.1), Nat.mod_eq_of_lt hpte]
  have htarget : ∀ k < 1024, target m₂ (n * pageSize) k =
      if k = pageDirIndex virt then some t else target m (n * pageSize) k := by
    intro k hk
    rw [target_eq, target_eq, hdir k hk]
    by_cases hki : k = pageDirIndex virt
    · rw [if_pos hki, if_pos hki, if_pos hpresent, hframe]
    · rw [if_neg hki, if_neg hki]
  refine ⟨⟨⟨_,huser,fun v hvi hvj => ?_⟩,fun v hvi hvj => ?_,fun v hvi => ?_⟩,(hdir _ hi).trans (if_pos rfl)⟩
  · have hself := (htab t _ htn (pageTableIndex_lt v)).trans (if_pos ⟨rfl,hvj⟩)
    rw [walk_eq, htarget _ (pageDirIndex_lt v), if_pos hvi, Option.bind_some, hself, if_pos hp, hdir _ (pageDirIndex_lt v),
      if_pos hvi]
  · have hkept := (htab t _ htn (pageTableIndex_lt v)).trans (if_neg fun hc => hvj hc.2)
    rw [hold v hvi, walk_eq, htarget _ (pageDirIndex_lt v), if_pos hvi, Option.bind_some, hkept, hdir _ (pageDirIndex_lt v),
      if_pos hvi]
  · rw [walk_eq, walk_eq, htarget _ (pageDirIndex_lt v), if_neg hvi, hdir _ (pageDirIndex_lt v), if_neg hvi]
    cases ht : target m (n * pageSize) (pageDirIndex v) with
    | none => rfl
    | some f =>
      have hft : f ≠ t := by
        rintro rfl
        exact hvi (hown _ (pageDirIndex_lt v) ht)
      have hkept := (htab f _ (hsep.ne_dir _ (pageDirIndex_lt v) f ht) (pageTableIndex_lt v)).trans
        (if_neg fun hc => hft hc.1)
      rw [Option.bind_some, Option.bind_some, hkept, hm₁ f _ hft (pageTableIndex_lt v)]

theorem adds_present (hsep : Separate m n) (ht : target m (n * pageSize) (pageDirIndex virt) = some t)
    (hlt : pte < 2 ^ 32) (hp : isPresent pte) :
    Adds m (setEntry (setEntry m (n * pageSize) (pageDirIndex virt)
        (entry m (n * pageSize) (pageDirIndex virt) ||| pageUser)) (t * pageSize) (pageTableIndex virt) pte) n virt pte ∧
      entry (setEntry (setEntry m (n * pageSize) (pageDirIndex virt)
        (entry m (n * pageSize) (pageDirIndex virt) ||| pageUser)) (t * pageSize) (pageTableIndex virt) pte)
        (n * pageSize) (pageDirIndex virt) = entry m (n * pageSize) (pageDirIndex virt) ||| pageUser := by
  have hi := pageDirIndex_lt virt
  obtain ⟨hpde,hframe,-⟩ := target_eq_some ht
  refine adds_entries hsep (fun _ _ _ _ => rfl) (hsep.ne_dir _ hi t ht) (fun k hk hk' => hsep.inj k hk _ hi t hk' ht)
    (lor_user_lt (entry_lt ..)) (by rw [lor_user_div, hframe]) ((isPresent_lor_user _).mpr hpde) (isUser_lor_user _) hlt hp
    fun v hvi => ?_
  rw [walk_eq, hvi, ht, Option.bind_some]
  split
  · rfl
  · rfl

theorem adds_fresh (hsep : Separate m n) (ht : target m (n * pageSize) (pageDirIndex virt) = none) (htlt : t < totalFrames)
    (htn : t ≠ n) (hnew : ∀ k < 1024, target m (n * pageSize) k ≠ some t) (hlt : pte < 2 ^ 32) (hp : isPresent pte) :
    Adds m (setEntry (setEntry (fill m (t * pageSize) pageSize 0) (n * pageSize) (pageDirIndex virt) (t * pageSize + 7))
        (t * pageSize) (pageTableIndex virt) pte) n virt pte ∧
      entry (setEntry (setEntry (fill m (t * pageSize) pageSize 0) (n * pageSize) (pageDirIndex virt) (t * pageSize + 7))
        (t * pageSize) (pageTableIndex virt) pte) (n * pageSize) (pageDirIndex virt) = t * pageSize + 7 := by
  have hclear : ∀ f k, k < 1024 → entry (fill m (t * pageSize) pageSize 0) (f * pageSize) k =
      if f = t then 0 else entry m (f * pageSize) k := fun f k hk => entry_clear m hk
  refine adds_entries hsep (fun f k hf hk => (hclear f k hk).trans (if_neg hf)) htn (fun k hk hk' => absurd hk' (hnew k hk))
    ?_ ?_ ?_ ?_ hlt hp fun v hvi => ?_
  · simp only [totalFrames, pageSize] at *
    omega
  · simp only [pageSize]
    omega
  · rw [isPresent_iff]
    simp only [pageSize]
    omega
  · rw [isUser_iff]
    simp only [pageSize]
    omega
  · rw [walk_eq, hvi, ht, hclear t _ (pageTableIndex_lt v), if_pos rfl]
    rfl

/-- The table of a mapped page has its user bit, and a fresh one can be written through. -/
theorem MapOutcome.opens_table {virt a flags : ℕ} (ho : MapOutcome tag L p n virt a flags L' p')
    (h : UserSpace pg L tag p.mem n) (ha : a < totalFrames) :
    (target p.mem (n * pageSize) (pageDirIndex virt) = none ∧ L' = L ∧ p' = p ∧ ∀ g < totalFrames, L g ≠ none) ∨
      Adds p.mem p'.mem n virt (pteValue (a * pageSize) flags) ∧
        isPresent (entry p'.mem (n * pageSize) (pageDirIndex virt)) ∧
        isUser (entry p'.mem (n * pageSize) (pageDirIndex virt)) ∧
        ((target p.mem (n * pageSize) (pageDirIndex virt) = none ∧
            isWritable (entry p'.mem (n * pageSize) (pageDirIndex virt)) ∧
            Ledger.count (Finset.range totalFrames) L' = Ledger.count (Finset.range totalFrames) L + 1) ∨
          (target p.mem (n * pageSize) (pageDirIndex virt) ≠ none ∧
            (isWritable (entry p'.mem (n * pageSize) (pageDirIndex virt)) ↔
              isWritable (entry p.mem (n * pageSize) (pageDirIndex virt))) ∧ L' = L)) := by
  obtain ⟨hlt,hp,_⟩ := pteValue_spec ha flags
  cases ho with
  | failed ht hfull => exact Or.inl ⟨ht,rfl,rfl,hfull⟩
  | present t ht =>
    obtain ⟨hadds,hself⟩ := adds_present h.separate ht hlt hp
    have hne : target p.mem (n * pageSize) (pageDirIndex virt) ≠ none := by simp [ht]
    refine Or.inr ⟨hadds,?_,?_,Or.inr ⟨hne,?_,rfl⟩⟩
    · rw [hself, isPresent_lor_user]
      exact (target_eq_some ht).1
    · rw [hself]
      exact isUser_lor_user _
    · rw [hself, isWritable_lor_user]
  | fresh t ht htlt hfree =>
    obtain ⟨hadds,hself⟩ := adds_fresh h.separate ht htlt (Ledger.ne_of_free h.owned.dir hfree).symm
      (fun k hk => h.table_used hk hfree) hlt hp
    refine Or.inr ⟨hadds,?_,?_,Or.inl ⟨ht,?_,Ledger.count_take (Finset.mem_range.mpr htlt) hfree _⟩⟩
    · rw [hself, isPresent_iff]
      simp only [pageSize]
      omega
    · rw [hself, isUser_iff]
      simp only [pageSize]
      omega
    · rw [hself, isWritable_iff]
      simp only [pageSize]
      omega

theorem MapOutcome.adds {a flags : ℕ} (ho : MapOutcome tag L p n virt a flags L' p') (h : UserSpace pg L tag p.mem n)
    (ha : a < totalFrames) :
    (L' = L ∧ p' = p ∧ ∀ f < totalFrames, L f ≠ none) ∨ Adds p.mem p'.mem n virt (pteValue (a * pageSize) flags) ∧
      (target p.mem (n * pageSize) (pageDirIndex virt) = none →
        Ledger.count (Finset.range totalFrames) L < totalFrames) := by
  rcases ho.opens_table h ha with ⟨_,hL,hp,hfull⟩ | ⟨hadds,_,_,⟨_,_,hcount⟩ | ⟨hne,_⟩⟩
  · exact Or.inl ⟨hL,hp,hfull⟩
  · have hle : Ledger.count (Finset.range totalFrames) L' ≤ (Finset.range totalFrames).card := Finset.card_filter_le ..
    rw [hcount, Finset.card_range] at hle
    exact Or.inr ⟨hadds,fun _ => hle⟩
  · exact Or.inr ⟨hadds,fun hnone => absurd hnone hne⟩

theorem MapOutcome.page_mem {virt a flags i j x : ℕ} (ho : MapOutcome tag L p n virt a flags L' p')
    (hd : DirOwned L tag p.mem n) (hi : kernelPdeCount ≤ pageDirIndex virt)
    (hx : L (x / pageSize) = some (.task tag (.page i j))) : p'.mem x = p.mem x := by
  refine ho.mem hx ?_ ?_
  · rintro rfl
    rw [hd.dir] at hx
    cases hx
  · rintro t ht rfl
    rw [hd.table hi (pageDirIndex_lt virt) ht] at hx
    cases hx

def SamePage (v w : ℕ) : Prop := pageDirIndex v = pageDirIndex w ∧ pageTableIndex v = pageTableIndex w

/-- Ring 3 reaches the pages of `vs`. The first page above 4 MB may also be open in the
table that all directories share, but then it is not in the directory. -/
structure Opens (m : Mem) (n : ℕ) (vs : List ℕ) : Prop where
  pde : ∀ v e, walk m (n * pageSize) v = some e → isUser e.1 → ∃ w ∈ vs, pageDirIndex w = pageDirIndex v
  pte : ∀ v e, walk m (n * pageSize) v = some e → isUser e.2 →
    (∃ w ∈ vs, SamePage w v) ∨ pageDirIndex v = 1 ∧ pageTableIndex v = 0
  mapped : ∀ w ∈ vs, Accessible m (n * pageSize) w

namespace Opens
variable {vs : List ℕ}

theorem congr (h : Opens m n vs) (hw : ∀ v, walk m' (n * pageSize) v = walk m (n * pageSize) v) : Opens m' n vs := by
  refine ⟨fun v e he => h.pde v e (hw v ▸ he),fun v e he => h.pte v e (hw v ▸ he),fun w hwm => ?_⟩
  obtain ⟨e,he,hu⟩ := h.mapped w hwm
  exact ⟨e,(hw w).trans he,hu⟩

theorem adds (h : Opens m n vs) (ha : Adds m m' n virt pte) (hu : isUser pte) : Opens m' n (vs ++ [virt]) := by
  obtain ⟨pde,hpde,hself⟩ := ha.self
  have hmem : virt ∈ vs ++ [virt] := by simp
  refine ⟨fun v e he hue => ?_,fun v e he hue => ?_,fun w hw => ?_⟩
  · by_cases hi : pageDirIndex v = pageDirIndex virt
    · exact ⟨virt,hmem,hi.symm⟩
    · rw [ha.other v hi] at he
      obtain ⟨w,hw,hwi⟩ := h.pde v e he hue
      exact ⟨w,List.mem_append_left _ hw,hwi⟩
  · by_cases hi : pageDirIndex v = pageDirIndex virt
    · by_cases hj : pageTableIndex v = pageTableIndex virt
      · exact Or.inl ⟨virt,hmem,hi.symm,hj.symm⟩
      · rw [ha.table v hi hj] at he
        obtain ⟨e',he',rfl⟩ := Option.map_eq_some_iff.mp he
        refine (h.pte v e' he' hue).imp_left ?_
        rintro ⟨w,hw,hs⟩
        exact ⟨w,List.mem_append_left _ hw,hs⟩
    · rw [ha.other v hi] at he
      refine (h.pte v e he hue).imp_left ?_
      rintro ⟨w,hw,hs⟩
      exact ⟨w,List.mem_append_left _ hw,hs⟩
  · by_cases hs : pageDirIndex w = pageDirIndex virt ∧ pageTableIndex w = pageTableIndex virt
    · exact ⟨(pde, pte),hself w hs.1 hs.2,hpde,hu⟩
    · have hold : w ∈ vs := by
        rcases List.mem_append.mp hw with hw | hw
        · exact hw
        · rw [List.mem_singleton] at hw
          exact absurd ⟨congrArg _ hw,congrArg _ hw⟩ hs
      obtain ⟨e,he,hu1,hu2⟩ := h.mapped w hold
      by_cases hi : pageDirIndex w = pageDirIndex virt
      · refine ⟨(e.1 ||| pageUser, e.2),?_,isUser_lor_user _,hu2⟩
        rw [ha.table w hi (fun hj => hs ⟨hi,hj⟩), he]
        rfl
      · exact ⟨e,(ha.other w hi).trans he,hu1,hu2⟩

theorem accessible_iff (h : Opens m n vs) (h1 : ∀ w ∈ vs, pageDirIndex w = 1 → pageTableIndex w = 0) :
    Accessible m (n * pageSize) v ↔ ∃ w ∈ vs, SamePage w v := by
  constructor
  · rintro ⟨e,he,hu1,hu2⟩
    rcases h.pte v e he hu2 with hw | ⟨hi,hj⟩
    · exact hw
    · obtain ⟨w,hw,hwi⟩ := h.pde v e he hu1
      exact ⟨w,hw,hwi,(h1 w hw (hwi.trans hi)).trans hj.symm⟩
  · rintro ⟨w,hw,hi,hj⟩
    obtain ⟨e,he,hu⟩ := h.mapped w hw
    refine ⟨e,?_,hu⟩
    unfold walk at he ⊢
    rw [← hi, ← hj]
    exact he

end Opens

theorem isUser_pteValue (phys : ℕ) {flags : ℕ} (hu : flags &&& pageUser ≠ 0) : isUser (pteValue phys flags) := by
  unfold isUser pteValue
  rw [Nat.and_or_distrib_right, Nat.and_or_distrib_right, Nat.and_assoc flags]
  intro hz
  exact hu (Nat.or_eq_zero_iff.mp (Nat.or_eq_zero_iff.mp hz).1).2

/-- A page that needs a table of its own is lost when there is no frame for that table. -/
theorem MapOutcome.whole_iff {a flags : ℕ}
    (ho : MapOutcome tag (Function.update L a (some (.task tag (.page (pageDirIndex virt) (pageTableIndex virt))))) p n virt
      a flags L' p') (hd : DirOwned L tag p.mem n) (hi : kernelPdeCount ≤ pageDirIndex virt) (ha : a < totalFrames)
    (hfree : L a = none) (hnone : target p.mem (n * pageSize) (pageDirIndex virt) = none) (hw : Whole L tag p.mem n) :
    Whole L' tag p'.mem n ↔ Ledger.count (Finset.range totalFrames) L + 2 ≤ totalFrames := by
  have hcount := Ledger.count_take (Finset.mem_range.mpr ha) hfree
    (Owner.task tag (.page (pageDirIndex virt) (pageTableIndex virt)))
  have hpage : dirFrame p.mem (n * pageSize) (.page (pageDirIndex virt) (pageTableIndex virt)) = none := by
    simp only [dirFrame]
    rw [hnone]
    simp
  have htable : dirFrame p.mem (n * pageSize) (.table (pageDirIndex virt)) = none := by
    simp only [dirFrame]
    rw [hnone, ite_self]
  cases ho with
  | present t ht =>
    rw [hnone] at ht
    cases ht
  | failed ht hfull =>
    have hall := Ledger.count_eq_card fun f hf => hfull f (Finset.mem_range.mp hf)
    rw [hcount, Finset.card_range] at hall
    refine ⟨fun hwhole => ?_,fun hroom => by omega⟩
    have hlost := hwhole a _ (by simp) (Function.update_self ..)
    rw [hpage] at hlost
    cases hlost
  | fresh t ht htlt htfree =>
    have hlt := Ledger.count_lt_card (Finset.mem_range.mpr htlt) htfree
    rw [hcount, Finset.card_range] at hlt
    refine ⟨fun _ => by omega,fun _ f s hs hf => ?_⟩
    rw [dirFrame_mapFresh (hd.take hfree _) hi ha flags ht htlt htfree]
    by_cases hft : f = t
    · rw [hft, Function.update_self, Option.some.injEq, Owner.task.injEq] at hf
      rw [← hf.2, if_neg (by simp), if_pos rfl, hft]
    rw [Function.update_of_ne hft] at hf
    by_cases hfa : f = a
    · rw [hfa, Function.update_self, Option.some.injEq, Owner.task.injEq] at hf
      rw [← hf.2, if_pos rfl, hfa]
    rw [Function.update_of_ne hfa] at hf
    have hold := hw f s hs hf
    rw [if_neg, if_neg, hold]
    · rintro rfl
      rw [htable] at hold
      cases hold
    · rintro rfl
      rw [hpage] at hold
      cases hold

/-- A frame is taken for a page above the kernel range, given any contents, and mapped. When
the last free frame went into the page, there may be none for its table. -/
theorem UserSpace.placePage {a : ℕ} (h : UserSpace pg L tag p.mem n) (virt flags : ℕ) (hacc : Accounts L p.pmm)
    (hi : kernelPdeCount ≤ pageDirIndex virt) (ha : a < totalFrames) (hfree : L a = none)
    (hm : ∀ x, x / pageSize ≠ a → m x = p.mem x) (hu : flags &&& pageUser ≠ 0) :
    ∃ L', (∀ W, Grows W tag L p L' (pagingMapPageIn ⟨m,p.pmm.setFrame a⟩ (n * pageSize) virt (a * pageSize) flags)) ∧
      UserSpace pg L' tag (pagingMapPageIn ⟨m,p.pmm.setFrame a⟩ (n * pageSize) virt (a * pageSize) flags).mem n ∧
      (target p.mem (n * pageSize) (pageDirIndex virt) = none → Whole L tag p.mem n →
        (Whole L' tag (pagingMapPageIn ⟨m,p.pmm.setFrame a⟩ (n * pageSize) virt (a * pageSize) flags).mem n ↔
          Ledger.count (Finset.range totalFrames) L + 2 ≤ totalFrames)) ∧
      (∀ f, L' f = some (.task tag .kstack) → L f = some (.task tag .kstack)) ∧
      ((∀ ws, Opens p.mem n ws → Opens
          (pagingMapPageIn ⟨m,p.pmm.setFrame a⟩ (n * pageSize) virt (a * pageSize) flags).mem n (ws ++ [virt])) ∧
          (target p.mem (n * pageSize) (pageDirIndex virt) = none →
            Ledger.count (Finset.range totalFrames) L + 2 ≤ totalFrames) ∨
        (∀ ws, Opens p.mem n ws → Opens
          (pagingMapPageIn ⟨m,p.pmm.setFrame a⟩ (n * pageSize) virt (a * pageSize) flags).mem n ws) ∧
          (∀ f < totalFrames, L' f ≠ none) ∧ Ledger.count (Finset.range totalFrames) L + 1 = totalFrames) := by
  have h1 := fun W => Grows.take W tag hacc ha hfree (.page (pageDirIndex virt) (pageTableIndex virt)) hm
  have hkeep : ∀ x o, L (x / pageSize) = some o → m x = p.mem x := fun x o ho => hm x (Ledger.ne_of_free ho hfree)
  have hd0 : DirOwned L tag m n := h.owned.congr (fun _ _ hf => hf) fun x s hx _ => hkeep x _ hx
  have hd1 := hd0.take hfree (.page (pageDirIndex virt) (pageTableIndex virt))
  have hdir : ∀ x, x / pageSize = n → m x = p.mem x := fun x hx => hkeep x _ (hx ▸ h.owned.dir)
  have hsp1 : UserSpace pg (Function.update L a (some (.task tag (.page (pageDirIndex virt) (pageTableIndex virt))))) tag
      m n := by
    refine h.congr hd1 (fun f hf => ?_) fun i hi => entry_congr (Nat.lt_trans hi (by decide)) hdir
    rw [Function.update_of_ne (Ledger.ne_of_free hf hfree), hf]
  have hwalk : ∀ v, walk m (n * pageSize) v = walk p.mem (n * pageSize) v := h.walk_keep fun x o ho _ _ => hkeep x o ho
  have hcount := Ledger.count_take (Finset.mem_range.mpr ha) hfree
    (Owner.task tag (.page (pageDirIndex virt) (pageTableIndex virt)))
  obtain ⟨L',ho⟩ := pagingMapPageIn_outcome tag n virt a (h1 fun _ => False).accounts hu
  have hg := fun W => ho.grows (h1 W).accounts hd1 hi W
  have hd2 := ho.dirOwned hd1 hi ha (Function.update_self ..)
  refine ⟨L',fun W => (h1 W).trans (hg W),hsp1.congr hd2 (fun f hf => (hg fun _ => False).ledger.keeps f _ hf)
    fun i hi4 => ?_,fun hnone hwhole => ?_,fun f hf => ?_,?_⟩
  · refine ho.entries hd1.dir (fun t ht => ?_) (Nat.lt_trans hi4 (by decide)) (by omega)
    exact (hsp1.separate.ne_dir _ (pageDirIndex_lt virt) t ht).symm
  · refine ho.whole_iff hd0 hi ha hfree ((target_congr (pageDirIndex_lt virt) hdir).trans hnone) fun f s hs hf => ?_
    rw [h.owned.dirFrame_congr fun x s hx _ => hkeep x _ hx]
    exact hwhole f s hs hf
  · rcases ho.ledger.fresh f _ hf with hold | ⟨_,he⟩
    · by_cases hfa : f = a
      · rw [hfa, Function.update_self] at hold
        cases hold
      · rwa [Function.update_of_ne hfa] at hold
    · cases he
  · rcases ho.adds hsp1 ha with ⟨rfl,hp',hfull⟩ | ⟨hadds,hroom⟩
    · refine Or.inr ⟨fun ws hws => ?_,hfull,?_⟩
      · rw [hp']
        exact hws.congr hwalk
      · have hall := Ledger.count_eq_card fun f hf => hfull f (Finset.mem_range.mp hf)
        rwa [hcount, Finset.card_range] at hall
    · refine Or.inl ⟨fun ws hws => (hws.congr hwalk).adds hadds (isUser_pteValue _ hu),fun hnone => ?_⟩
      have hlt := hroom ((target_congr (pageDirIndex_lt virt) hdir).trans hnone)
      rw [hcount] at hlt
      exact hlt

/-- Ring 3 is kept out of the kernel's tables, apart from the first page above 4 MB. -/
def KernelClosed (pg : Paging) (m : Mem) : Prop :=
  ∀ i < kernelPdeCount, ∀ j < 1024, isUser (entry m (pg.pdTables i) j) → i = 1 ∧ j = 0

theorem Cloned.opens (h : Cloned pg tag L p n t L' p') (hk : KernelMap pg p.mem L)
    (hc : KernelClosed pg p.mem) : Opens p'.mem n [] := by
  have hthree : ∀ f, ¬isUser (f * pageSize + 3) := by
    intro f
    rw [isUser_iff]
    simp only [pageSize]
    omega
  have hsp := h.userSpace hk
  have hentry : ∀ i < 1024, ¬isUser (entry p'.mem (n * pageSize) i) := by
    intro i hi
    by_cases h0 : i = 0
    · rw [h0, h.entry_zero]
      exact hthree t
    · by_cases h4 : i < kernelPdeCount
      · obtain ⟨f,hf,_⟩ := hk.table i h4
        rw [h.entry_low i (Nat.pos_of_ne_zero h0) h4, hk.entries i h4, hf]
        exact hthree f
      · rw [h.entry_high i (Nat.not_lt.mp h4) hi]
        decide
  have hwalk : ∀ v e, walk p'.mem (n * pageSize) v = some e → e.1 = entry p'.mem (n * pageSize) (pageDirIndex v) ∧
      ∃ f, target p'.mem (n * pageSize) (pageDirIndex v) = some f ∧
        e.2 = entry p'.mem (f * pageSize) (pageTableIndex v) := by
    intro v e he
    rw [walk_eq] at he
    obtain ⟨f,hf,he⟩ := Option.bind_eq_some_iff.mp he
    split at he
    · cases he
      exact ⟨rfl,f,hf,rfl⟩
    · cases he
  refine ⟨fun v e he hu => ?_,fun v e he hu => ?_,fun w hw => absurd hw List.not_mem_nil⟩
  · rw [(hwalk v e he).1] at hu
    exact absurd hu (hentry _ (pageDirIndex_lt v))
  · obtain ⟨_,f,hf,he2⟩ := hwalk v e he
    have hi := pageDirIndex_lt v
    have hj := pageTableIndex_lt v
    rw [he2] at hu
    refine Or.inr ?_
    by_cases h0 : pageDirIndex v = 0
    · rw [h0] at hf
      have htf : target p'.mem (n * pageSize) 0 = some t := h.dirFrame_eq .pt0
      rw [htf, Option.some.injEq] at hf
      rw [← hf, h.table_zero _ hj] at hu
      obtain ⟨hc1,_⟩ := hc 0 (by decide) _ hj hu
      cases hc1
    · by_cases h4 : pageDirIndex v < kernelPdeCount
      · obtain ⟨f',hf',hLf,ht⟩ := h.target_low hk (Nat.pos_of_ne_zero h0) h4
        rw [hf, Option.some.injEq] at ht
        subst ht
        have hmem : entry p'.mem (f * pageSize) (pageTableIndex v) = entry p.mem (f * pageSize) (pageTableIndex v) :=
          entry_congr hj fun x hx => (h.grows fun _ => False).mem x _ (hx ▸ hLf) not_false fun s => Owner.noConfusion
        rw [hmem, ← hf'] at hu
        exact hc _ h4 _ hj hu
      · rw [target, h.entry_high _ (Nat.not_lt.mp h4) hi, if_neg (by decide)] at hf
        cases hf

theorem Grows.kernelClosed {W : Owner → Prop} (hg : Grows W tag L p L' p') (hw : ¬W .kernelTable)
    (hk : KernelMap pg p.mem L) (hc : KernelClosed pg p.mem) : KernelClosed pg p'.mem := by
  intro i hi j hj hu
  obtain ⟨f,hf,hLf⟩ := hk.table i hi
  refine hc i hi j hj ?_
  rw [hf] at hu ⊢
  rwa [entry_congr hj fun x hx => hg.mem x _ (hx ▸ hLf) hw fun s => Owner.noConfusion] at hu

section
variable {a flags : ℕ} (h : UserSpace pg L tag p.mem n) (hi : pageDirIndex virt < kernelPdeCount)
  (ha : a < totalFrames) (hu : flags &&& pageUser ≠ 0)
include h hi ha hu

theorem UserSpace.mapLow_adds : Adds p.mem (pagingMapPageIn p (n * pageSize) virt (a * pageSize) flags).mem n virt
    (pteValue (a * pageSize) flags) := by
  obtain ⟨t,ht,_⟩ := h.low hi
  obtain ⟨hlt,hp,_⟩ := pteValue_spec ha flags
  rw [pagingMapPageIn_present hu ht]
  exact (adds_present h.separate ht hlt hp).1

theorem UserSpace.mapLow_closed (hk : KernelMap pg p.mem L) (hc : KernelClosed pg p.mem) (hv : virt < 0x401000) :
    KernelClosed pg (pagingMapPageIn p (n * pageSize) virt (a * pageSize) flags).mem := by
  obtain ⟨t,ht,_⟩ := h.low hi
  obtain ⟨hlt,_,_⟩ := pteValue_spec ha flags
  have hilt := pageDirIndex_lt virt
  have hjlt := pageTableIndex_lt virt
  intro k hk4 j hj huser
  obtain ⟨f,hf,hLf⟩ := hk.table k hk4
  have hfn : f ≠ n := by
    rintro rfl
    rw [h.owned.dir] at hLf
    cases hLf
  by_cases hkt : f = t ∧ j = pageTableIndex virt
  · obtain ⟨rfl,rfl⟩ := hkt
    have hidx : pageDirIndex virt = k := by
      rcases h.label hilt ht with ⟨hl,_⟩ | ⟨_,h1,h4⟩ | hl
      · rw [hLf] at hl
        cases hl
      · obtain ⟨f',hf',htf,_⟩ := h.shared _ h1 h4
        rw [ht, Option.some.injEq] at htf
        refine h.inj _ h4 k hk4 ?_
        rw [hf', hf, htf]
      · rw [hLf] at hl
        cases hl
    by_cases hz : k = 0
    · obtain ⟨t₀,ht₀⟩ := h.pt0
      have hl := h.owned.owned .pt0 t₀ ht₀
      rw [hidx, hz, ht₀, Option.some.injEq] at ht
      rw [ht, hLf] at hl
      cases hl
    · rw [pageDirIndex_eq] at hidx
      rw [pageTableIndex_eq]
      constructor
      · omega
      · omega
  · refine hc k hk4 j hj ?_
    rw [pagingMapPageIn_present hu ht, hf] at huser
    rw [hf]
    rwa [entry_setEntry _ _ hjlt hj, if_neg hkt, entry_setEntry _ _ hilt hj, if_neg (fun hc => hfn hc.1)] at huser

end

end ApPa.Memory

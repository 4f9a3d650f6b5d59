import ApPa.Exec.Loader

/-! # The pages that a load maps

Each planned page gets a frame of its own with the bytes of its segment. A page planned
twice shows what was loaded last. The loader does not notice when the table of the last
page cannot be allocated; then that page is missing.
-/
namespace ApPa.Exec
open ByteMem Memory Tasks Word32

theorem isWritable_segFlags (ph : Phdr) : isWritable (segFlags ph) ↔ ph.flags &&& pfW ≠ 0 := by
  unfold segFlags
  by_cases hw : ph.flags &&& pfW ≠ 0
  · rw [if_pos hw]
    exact iff_of_true (by decide) hw
  · rw [if_neg hw]
    exact iff_of_false (by decide) hw

/-! ## The contents of a page -/

/-- Byte `o` of the page at `v`: file data where the segment has it, zero elsewhere. -/
def pageByte (f : File) (ph : Phdr) (v o : ℕ) : UInt8 :=
  match copyRange ph v with
  | none => 0
  | some (dst, off, len) => if dst ≤ o ∧ o < dst + len then f (add32 off (o - dst)) else 0

theorem fillPage_byte (f : File) (ph : Phdr) (m : Mem) (a v : ℕ) {o : ℕ} (ho : o < pageSize) :
    fillPage f ph m a v (a + o) = pageByte f ph v o := by
  have hzero : fill m a pageSize 0 (a + o) = 0 := if_pos ⟨Nat.le_add_right a o,Nat.add_lt_add_left ho a⟩
  unfold fillPage pageByte
  cases hc : copyRange ph v with
  | none => exact hzero
  | some r =>
    obtain ⟨dst,off,len⟩ := r
    dsimp only
    have hlen : (bytesAt f off len).length = len := by rw [bytesAt, List.length_map, List.length_range]
    by_cases hin : dst ≤ o ∧ o < dst + len
    · obtain ⟨i,rfl⟩ := Nat.exists_eq_add_of_le hin.1
      have hi : i < (bytesAt f off len).length := by omega
      rw [if_pos hin, ← Nat.add_assoc, store_apply_add _ _ hi, Nat.add_sub_cancel_left]
      simp [bytesAt]
    · rw [if_neg hin]
      by_cases hlt : o < dst
      · rw [store_apply_of_lt _ (Nat.add_lt_add_left hlt a), hzero]
      · rw [store_apply_of_ge (by omega), hzero]

/-! ## Placing pages -/

/-- The header a page was loaded for last. -/
def placed (pages : List (Phdr × ℕ)) : ℕ → Option Phdr :=
  pages.foldl (fun g x => Function.update g x.2 (some x.1)) fun _ => none

theorem placed_append (pages : List (Phdr × ℕ)) (x : Phdr × ℕ) :
    placed (pages ++ [x]) = Function.update (placed pages) x.2 (some x.1) := by
  rw [placed, List.foldl_append]
  rfl

theorem placed_eq_none {pages : List (Phdr × ℕ)} {v : ℕ} : placed pages v = none ↔ v ∉ pages.map (·.2) := by
  induction pages using List.reverseRecOn with
  | nil => exact iff_of_true rfl List.not_mem_nil
  | append_singleton pages x ih =>
    rw [placed_append, List.map_append, List.mem_append, List.map_singleton, List.mem_singleton]
    by_cases hv : v = x.2
    · rw [hv, Function.update_self]
      exact iff_of_false (Option.some_ne_none _) (not_not.mpr (Or.inr rfl))
    · rw [Function.update_of_ne hv, ih]
      simp [hv]

theorem placed_eq_some {pages : List (Phdr × ℕ)} (hnodup : (pages.map (·.2)).Nodup) {x : Phdr × ℕ} (hx : x ∈ pages) :
    placed pages x.2 = some x.1 := by
  induction pages using List.reverseRecOn with
  | nil => cases hx
  | append_singleton pages y ih =>
    rw [List.map_append, List.nodup_append] at hnodup
    rw [placed_append]
    rcases List.mem_append.mp hx with hx | hx
    · have hne : x.2 ≠ y.2 := hnodup.2.2 x.2 (List.mem_map_of_mem hx) y.2 (List.mem_singleton_self _)
      rw [Function.update_of_ne hne, ih hnodup.1 hx]
    · rw [List.mem_singleton.mp hx, Function.update_self]

/-- What the directory shows at a page: nothing, or the bytes of a header's segment. -/
def Shown (f : File) (L : Frames) (m : Mem) (n v : ℕ) : Option Phdr → Prop
  | none => walk m (n * pageSize) v = none
  | some ph => ∃ a pde, a < totalFrames ∧ L a = some (.task none (.page (pageDirIndex v) (pageTableIndex v))) ∧
      walk m (n * pageSize) v = some (pde, pteValue (a * pageSize) (segFlags ph)) ∧
      ∀ o < pageSize, m (a * pageSize + o) = pageByte f ph v o

theorem Shown.congr {f : File} {L L' : Frames} {m m' : Mem} {n v : ℕ} {x : Option Phdr} (h : Shown f L m n v x)
    (hL : ∀ g i j, L g = some (.task none (.page i j)) → L' g = some (.task none (.page i j)))
    (hmem : ∀ y, L (y / pageSize) = some (.task none (.page (pageDirIndex v) (pageTableIndex v))) → m' y = m y) {g : ℕ → ℕ}
    (hwalk : walk m' (n * pageSize) v = (walk m (n * pageSize) v).map fun e => (g e.1, e.2)) : Shown f L' m' n v x := by
  cases x with
  | none =>
    have hnone : walk m (n * pageSize) v = none := h
    exact hwalk.trans (by rw [hnone]; rfl)
  | some ph =>
    obtain ⟨a,pde,ha,hLa,hw,hbytes⟩ := h
    refine ⟨a,g pde,ha,hL _ _ _ hLa,by rw [hwalk, hw]; rfl,fun o ho => ?_⟩
    rw [← hbytes o ho]
    refine hmem _ ?_
    rw [Nat.add_comm, Nat.add_mul_div_right _ _ (by decide), Nat.div_eq_of_lt ho, Nat.zero_add, hLa]

theorem Shown.adds {f : File} {L L' : Frames} {m m' : Mem} {n v w pte : ℕ} {x : Option Phdr} (h : Shown f L m n w x)
    (hadds : Adds m m' n v pte) (hv : UserPage v) (hw : UserPage w) (hne : w ≠ v)
    (hL : ∀ g i j, L g = some (.task none (.page i j)) → L' g = some (.task none (.page i j)))
    (hmem : ∀ y i j, L (y / pageSize) = some (.task none (.page i j)) → m' y = m y) : Shown f L' m' n w x := by
  by_cases hi : pageDirIndex w = pageDirIndex v
  · exact h.congr hL (fun y hy => hmem y _ _ hy) (g := (· ||| pageUser)) (hadds.table w hi fun hj => hne (hw.ext hv hi hj))
  · refine h.congr hL (fun y hy => hmem y _ _ hy) (g := id) ?_
    rw [hadds.other w hi]
    exact Option.map_id'.symm

/-- The given pages are mapped in the directory of frame `n`, in order, out of `F` free frames. -/
structure Populated (f : File) (pg : Paging) (n F : ℕ) (pages : List (Phdr × ℕ)) (L : Frames) (p : Phys) : Prop where
  accounts : Accounts L p.pmm
  space : UserSpace pg L none p.mem n
  tables : ∀ i, kernelPdeCount ≤ i → i < 1024 →
    (target p.mem (n * pageSize) i ≠ none ↔ i ∈ (pages.map (·.2)).map pageDirIndex)
  opened : ∀ i, kernelPdeCount ≤ i → i < 1024 → target p.mem (n * pageSize) i ≠ none →
    isUser (entry p.mem (n * pageSize) i) ∧ isWritable (entry p.mem (n * pageSize) i)
  shown : ∀ v, UserPage v → Shown f L p.mem n v (placed pages v)
  budget : Ledger.count (Finset.range totalFrames) L + F = totalFrames + need (pages.map (·.2))

section
variable {f : File} {pg : Paging} {n F t : ℕ} {L L' : Frames} {p p' : Phys}

theorem populated_cloned (h : Cloned pg none L p n t L' p') (hk : KernelMap pg p.mem L) (hacc : Accounts L p.pmm) :
    Populated f pg n (totalFrames - p.pmm.usedFrames.toNat - 2) [] L' p' := by
  have hnone : ∀ i, kernelPdeCount ≤ i → i < 1024 → target p'.mem (n * pageSize) i = none := by
    intro i hi hi'
    rw [target, h.entry_high i hi hi']
    exact if_neg (by decide)
  refine ⟨h.accounts,h.userSpace hk,fun i hi hi' => ?_,fun i hi hi' ht => absurd (hnone i hi hi') ht,fun v hv => ?_,?_⟩
  · exact iff_of_false (not_not.mpr (hnone i hi hi')) List.not_mem_nil
  · show walk p'.mem (n * pageSize) v = none
    rw [walk_eq, hnone _ hv.dirIndex (pageDirIndex_lt v)]
    rfl
  · have hle := Tallies.count_le L'
    have hcount := h.count
    rw [hacc.count]
    show _ = totalFrames + 0
    omega

theorem need_lt_append (vs : List ℕ) (v : ℕ) : need vs < need (vs ++ [v]) := by
  by_cases h : pageDirIndex v ∈ vs.map pageDirIndex
  · rw [need_append_old h]
    exact Nat.lt_succ_self _
  · rw [need_append_new h]
    omega

theorem need_le_append (vs ws : List ℕ) : need vs ≤ need (vs ++ ws) := by
  induction ws generalizing vs with
  | nil => rw [List.append_nil]
  | cons w ws ih =>
    have h := ih (vs ++ [w])
    rw [List.append_assoc, List.singleton_append] at h
    exact (need_lt_append vs w).le.trans h

variable {pages : List (Phdr × ℕ)}

/-- One turn of the page loop. Without a frame for its table, the page is not mapped and
memory is full. -/
theorem Populated.step (h : Populated f pg n F pages L p) (ph : Phdr) {v a : ℕ} (hv : UserPage v) (ha : a < totalFrames)
    (hfree : L a = none) {m : Mem} (hm : ∀ x, x / pageSize ≠ a → m x = p.mem x)
    (hbytes : ∀ o < pageSize, m (a * pageSize + o) = pageByte f ph v o)
    (hp' : pagingMapPageIn ⟨m,p.pmm.setFrame a⟩ (n * pageSize) v (a * pageSize) (segFlags ph) = p') :
    (∃ L', Populated f pg n F (pages ++ [(ph, v)]) L' p' ∧
        L' a = some (.task none (.page (pageDirIndex v) (pageTableIndex v))) ∧
        ∃ pde, walk p'.mem (n * pageSize) v = some (pde, pteValue (a * pageSize) (segFlags ph))) ∨
      F < need (pages.map (·.2) ++ [v]) ∧ (∀ w, walk p'.mem (n * pageSize) w = walk p.mem (n * pageSize) w) ∧
        v ∉ pages.map (·.2) ∧ ∃ L', Accounts L' p'.pmm ∧ ∀ g < totalFrames, L' g ≠ none := by
  obtain ⟨p₁,hp₁⟩ : ∃ p₁ : Phys, p₁ = ⟨m,p.pmm.setFrame a⟩ := ⟨_,rfl⟩
  obtain rfl : p₁.mem = m := by rw [hp₁]
  have hkeep : ∀ x o, L (x / pageSize) = some o → p₁.mem x = p.mem x := fun x o ho => hm x (Ledger.ne_of_free ho hfree)
  have h1 : Fills n L p (Function.update L a (some (.task none (.page (pageDirIndex v) (pageTableIndex v))))) p₁ := by
    have htake := fills_take h.accounts h.space.owned ha hfree (i := pageDirIndex v) (j := pageTableIndex v) hm
    rwa [← hp₁] at htake
  have hsp := h1.userSpace h.space
  have hwalk := h.space.walk_keep fun x o ho _ _ => hkeep x o ho
  have hentry : ∀ i < 1024, entry p₁.mem (n * pageSize) i = entry p.mem (n * pageSize) i :=
    fun i hi => entry_congr hi fun x hx => hkeep x _ (hx ▸ h.space.owned.dir)
  have htarget : ∀ i < 1024, target p₁.mem (n * pageSize) i = target p.mem (n * pageSize) i :=
    fun i hi => by rw [target, target, hentry i hi]
  have hcount := Ledger.count_take (Finset.mem_range.mpr ha) hfree
    (Owner.task none (.page (pageDirIndex v) (pageTableIndex v)))
  have hbudget := h.budget
  have hi := hv.dirIndex
  have hilt := pageDirIndex_lt v
  have htables := h.tables _ hi hilt
  obtain ⟨L₂,ho⟩ := pagingMapPageIn_outcome none n v a h1.grows.accounts (segFlags_user ph)
  rw [hp₁, hp', ← hp₁] at ho
  have h2 := fills_map h1.grows.accounts h1.owned hi ha (Function.update_self ..) ho
  rcases ho.opens_table hsp ha with ⟨hnone,rfl,rfl,hfull⟩ | ⟨hadds,hpres,huser,htable⟩
  · rw [htarget _ hilt] at hnone
    have hnew : pageDirIndex v ∉ (pages.map (·.2)).map pageDirIndex := fun hmem => htables.mpr hmem hnone
    have hall := Ledger.count_eq_card fun g hg => hfull g (Finset.mem_range.mp hg)
    rw [hcount, Finset.card_range] at hall
    refine Or.inr ⟨?_,hwalk,fun hmem => hnew (List.mem_map_of_mem hmem),_,h1.grows.accounts,hfull⟩
    rw [need_append_new hnew]
    omega
  · have hother : ∀ i < 1024, i ≠ pageDirIndex v → entry p'.mem (n * pageSize) i = entry p.mem (n * pageSize) i := by
      intro i hi' hne
      rw [ho.entries h1.owned.dir (fun t ht => (hsp.separate.ne_dir _ hilt t ht).symm) hi' hne, hentry i hi']
    have hself : target p'.mem (n * pageSize) (pageDirIndex v) ≠ none := by
      rw [target, if_pos hpres]
      exact Option.some_ne_none _
    have hpages : ∀ x i j, L (x / pageSize) = some (.task none (.page i j)) → p'.mem x = p.mem x := by
      intro x i j hx
      rw [ho.page_mem h1.owned hi (h1.grows.ledger.keeps _ _ hx), hkeep x _ hx]
    have hlabels := fun g i j hg => (h1.trans h2).grows.ledger.keeps g (.task none (.page i j)) hg
    have hadds' : Adds p.mem p'.mem n v (pteValue (a * pageSize) (segFlags ph)) :=
      ⟨hadds.self,fun w hi hj => by rw [hadds.table w hi hj, hwalk],fun w hi => by rw [hadds.other w hi, hwalk]⟩
    obtain ⟨pde,_,hfound⟩ := hadds.self
    refine Or.inl ⟨L₂,⟨h2.grows.accounts,h2.userSpace hsp,fun i hi4 hi' => ?_,fun i hi4 hi' ht => ?_,fun w hw => ?_,?_⟩,
      h2.grows.ledger.keeps _ _ (Function.update_self ..),pde,hfound v rfl rfl⟩
    · rw [List.map_append, List.map_append, List.mem_append]
      by_cases hiv : i = pageDirIndex v
      · rw [hiv]
        exact iff_of_true hself (Or.inr (List.mem_singleton_self _))
      · rw [target, hother i hi' hiv, ← target, h.tables i hi4 hi']
        exact (or_iff_left fun hc => hiv (List.mem_singleton.mp hc)).symm
    · by_cases hiv : i = pageDirIndex v
      · rw [hiv]
        refine ⟨huser,?_⟩
        rcases htable with ⟨_,hw,_⟩ | ⟨hold,hw,_⟩
        · exact hw
        · rw [htarget _ hilt] at hold
          rw [hw, hentry _ hilt]
          exact (h.opened _ hi hilt hold).2
      · rw [target, hother i hi' hiv] at ht
        rw [hother i hi' hiv]
        exact h.opened i hi4 hi' ht
    · rw [placed_append]
      by_cases hwv : w = v
      · -- the page itself
        subst hwv
        rw [Function.update_self]
        refine ⟨a,pde,ha,h2.grows.ledger.keeps _ _ (Function.update_self ..),hfound w rfl rfl,fun o hlt => ?_⟩
        rw [← hbytes o hlt]
        refine ho.page_mem h1.owned hi (i := pageDirIndex w) (j := pageTableIndex w) ?_
        rw [Nat.add_comm, Nat.add_mul_div_right _ _ (by decide), Nat.div_eq_of_lt hlt, Nat.zero_add]
        exact Function.update_self ..
      · rw [Function.update_of_ne hwv]
        exact (h.shown w hw).adds hadds' hv hw hwv hlabels hpages
    · rw [List.map_append, List.map_singleton]
      rcases htable with ⟨hnone,_,hc⟩ | ⟨hsome,_,rfl⟩
      · rw [htarget _ hilt] at hnone
        rw [hc, hcount, need_append_new fun hmem => htables.mpr hmem hnone]
        omega
      · rw [htarget _ hilt] at hsome
        rw [hcount, need_append_old (htables.mp hsome)]
        omega

/-- As many frames as the pages and their tables need are enough. With fewer, a load that
succeeds lacks a page. -/
theorem loadAll_populates {l : List (Phdr × ℕ)} (h : Populated f pg n F pages L p) (hl : ∀ x ∈ l, UserPage x.2) :
    (need ((pages ++ l).map (·.2)) ≤ F → (loadAll f (n * pageSize) p l).1 = true ∧
        ∃ L', Populated f pg n F (pages ++ l) L' (loadAll f (n * pageSize) p l).2) ∧
      (F < need ((pages ++ l).map (·.2)) → (loadAll f (n * pageSize) p l).1 = true →
        (∃ x ∈ l, walk (loadAll f (n * pageSize) p l).2.mem (n * pageSize) x.2 = none) ∧
        ∀ v, UserPage v → v ∉ (pages ++ l).map (·.2) →
          walk (loadAll f (n * pageSize) p l).2.mem (n * pageSize) v = none) := by
  induction l generalizing pages L p with
  | nil =>
    rw [List.append_nil]
    refine ⟨fun _ => ⟨rfl,L,h⟩,fun hlt => ?_⟩
    have hbudget := h.budget
    have hle := Tallies.count_le L
    omega
  | cons x l ih =>
    obtain ⟨ph,v⟩ := x
    have hv : UserPage v := hl _ List.mem_cons_self
    have happend : pages ++ (ph, v) :: l = (pages ++ [(ph, v)]) ++ l := by rw [List.append_assoc, List.singleton_append]
    have hmono : need (pages.map (·.2) ++ [v]) ≤ need ((pages ++ (ph, v) :: l).map (·.2)) := by
      rw [happend, List.map_append, List.map_append]
      exact need_le_append _ _
    rcases loadAll_turn f (n * pageSize) ph v h.accounts with ⟨hfull,hload⟩ | ⟨a,ha,hfree,_,hload⟩
    · rw [hload]
      refine ⟨fun hroom => ?_,fun _ hok => Bool.noConfusion hok⟩
      have hall := Ledger.count_eq_card fun g hg => hfull g (Finset.mem_range.mp hg)
      have hbudget := h.budget
      have hlt := need_lt_append (pages.map (·.2)) v
      rw [hall, Finset.card_range] at hbudget
      omega
    · rw [hload]
      have hfill : ∀ x, x / pageSize ≠ a → fillPage f ph p.mem (a * pageSize) v x = p.mem x :=
        fun x hx => fillPage_apply f ph p.mem v hx
      have hbytes : ∀ o < pageSize, fillPage f ph p.mem (a * pageSize) v (a * pageSize + o) = pageByte f ph v o :=
        fun o ho => fillPage_byte f ph p.mem (a * pageSize) v ho
      have hstep := h.step ph hv ha hfree hfill hbytes rfl
      revert hstep
      generalize pagingMapPageIn ⟨fillPage f ph p.mem (a * pageSize) v,p.pmm.setFrame a⟩ (n * pageSize) v (a * pageSize)
        (segFlags ph) = p'
      rintro (⟨L₁,h₁,_⟩ | ⟨hlt,hwalk,hnew,L₁,hacc,hfull⟩)
      · rw [happend]
        obtain ⟨hgood,hbad⟩ := ih h₁ fun x hx => hl x (List.mem_cons_of_mem _ hx)
        refine ⟨hgood,fun hlt hok => ?_⟩
        obtain ⟨⟨x,hx,hmiss⟩,hrest⟩ := hbad hlt hok
        exact ⟨⟨x,List.mem_cons_of_mem _ hx,hmiss⟩,hrest⟩
      · refine ⟨fun hroom => absurd hlt (Nat.not_lt.mpr (hmono.trans hroom)),fun _ hok => ?_⟩
        -- no frame is left, so this was the last page
        obtain rfl := loadAll_full f _ hacc hfull hok
        refine ⟨⟨(ph, v),List.mem_cons_self,?_⟩,fun w hw hmem => ?_⟩
        · have hshown := h.shown v hv
          rw [placed_eq_none.mpr hnew] at hshown
          exact (hwalk v).trans hshown
        · have hold : w ∉ pages.map (·.2) := by
            rw [List.map_append, List.mem_append] at hmem
            exact fun hc => hmem (Or.inl hc)
          have hshown := h.shown w hw
          rw [placed_eq_none.mpr hold] at hshown
          exact (hwalk w).trans hshown

end

end ApPa.Exec

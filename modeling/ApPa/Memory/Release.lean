import ApPa.Memory.AddressSpace
import Mathlib.Data.List.Nodup

/-! # Freeing a directory

`paging_free_directory` frees the frame of every place of a directory once, in a fixed
order of the places.
-/
namespace ApPa.Memory
open ByteMem Word32

/-- The places of a directory in the order in which their frames are freed. -/
def freeOrder : List Slot :=
  .pt0 :: ((List.range' kernelPdeCount (tablesPerDir - kernelPdeCount)).flatMap fun i =>
    (List.range pagesPerTable).map (.page i) ++ [.table i]) ++ [.dir]

theorem freeOrder_nodup : freeOrder.Nodup := by
  have hinner : ∀ i, ((List.range pagesPerTable).map (Slot.page i) ++ [Slot.table i]).Nodup := by
    intro i
    rw [List.nodup_append]
    refine ⟨List.nodup_range.map fun j j' hj => (Slot.page.inj hj).2,List.nodup_singleton _,?_⟩
    rintro s hs s' hs' rfl
    obtain ⟨j,_,rfl⟩ := List.mem_map.mp hs
    simp at hs'
  have htables : ((List.range' kernelPdeCount (tablesPerDir - kernelPdeCount)).flatMap fun i =>
      (List.range pagesPerTable).map (Slot.page i) ++ [Slot.table i]).Nodup := by
    have hrange : (List.range' kernelPdeCount (tablesPerDir - kernelPdeCount)).Nodup := List.nodup_range'
    rw [List.nodup_flatMap]
    refine ⟨fun i _ => hinner i,hrange.imp fun {i k} hik => ?_⟩
    rintro s hs hs'
    simp only [List.mem_append, List.mem_map, List.mem_singleton] at hs hs'
    rcases hs with ⟨j,_,rfl⟩ | rfl
    · rcases hs' with ⟨j',_,he⟩ | he
      · exact hik (Slot.page.inj he).1.symm
      · cases he
    · rcases hs' with ⟨j',_,he⟩ | he
      · cases he
      · exact hik (Slot.table.inj he)
  rw [freeOrder, List.cons_append, List.nodup_cons, List.nodup_append]
  refine ⟨by simp,htables,List.nodup_singleton _,?_⟩
  rintro s hs s' hs' rfl
  rw [List.mem_singleton] at hs'
  subst hs'
  simp at hs

variable {m : Mem} {n : ℕ}

theorem mem_freeOrder {s : Slot} {f : ℕ} (h : dirFrame m (n * pageSize) s = some f) : s ∈ freeOrder := by
  unfold freeOrder
  cases s with
  | kstack => cases h
  | dir => simp
  | pt0 => simp
  | table i =>
    simp only [dirFrame] at h
    split at h
    · rename_i hi
      simp only [kernelPdeCount, tablesPerDir, pagesPerTable] at *
      simp
      omega
    · cases h
  | page i j =>
    simp only [dirFrame] at h
    split at h
    · rename_i hi
      simp only [kernelPdeCount, tablesPerDir, pagesPerTable] at *
      simp
      omega
    · cases h

def freeAt (m : Mem) (d : ℕ) (q : Pmm) (s : Slot) : Pmm :=
  match dirFrame m d s with
  | some f => q.freePage (f * pageSize)
  | none => q

theorem freeTable_eq {i t : ℕ} (hi : kernelPdeCount ≤ i ∧ i < tablesPerDir)
    (ht : target m (n * pageSize) i = some t) (q : Pmm) :
    freeTable m (t * pageSize) q =
      ((List.range pagesPerTable).map (Slot.page i) ++ [Slot.table i]).foldl (freeAt m (n * pageSize)) q := by
  rw [List.foldl_append, List.foldl_map, List.foldl_cons, List.foldl_nil]
  have hpages : ∀ q, (List.range pagesPerTable).foldl (fun q j => freeAt m (n * pageSize) q (.page i j)) q =
      (List.range pagesPerTable).foldl (fun q j =>
        if isPresent (entry m (t * pageSize) j) then q.freePage (entry m (t * pageSize) j &&& pageFrameMask) else q)
        q := by
    intro q
    refine List.foldl_ext _ _ _ fun q j hj => ?_
    have hf : dirFrame m (n * pageSize) (.page i j) = target m (t * pageSize) j := by
      simp only [dirFrame]
      rw [if_pos ⟨hi,List.mem_range.mp hj⟩, ht, Option.bind_some]
    rw [freeAt, hf, target_eq]
    by_cases hp : isPresent (entry m (t * pageSize) j)
    · rw [if_pos hp, if_pos hp]
      exact congrArg q.freePage (pageFrame_eq (entry_lt _ _ _)).symm
    · rw [if_neg hp, if_neg hp]
  have htable : dirFrame m (n * pageSize) (.table i) = some t := by
    simp only [dirFrame]
    rw [if_pos hi, ht]
  rw [hpages, freeAt, htable]
  rfl

theorem freeTables_eq (q : Pmm) :
    freeTables m (n * pageSize) q =
      ((List.range' kernelPdeCount (tablesPerDir - kernelPdeCount)).flatMap fun i =>
        (List.range pagesPerTable).map (Slot.page i) ++ [Slot.table i]).foldl (freeAt m (n * pageSize)) q := by
  rw [List.foldl_flatMap, freeTables]
  refine List.foldl_ext _ _ _ fun q i hi => ?_
  have hi' : kernelPdeCount ≤ i ∧ i < tablesPerDir := by
    rw [List.mem_range'_1] at hi
    simp only [kernelPdeCount, tablesPerDir] at *
    omega
  by_cases hp : isPresent (entry m (n * pageSize) i)
  · have ht : target m (n * pageSize) i = some (entry m (n * pageSize) i / pageSize) := by
      rw [target_eq, if_pos hp]
    rw [if_pos hp, ← freeTable_eq hi' ht]
    exact congrArg (freeTable m · q) (pageFrame_eq (entry_lt _ _ _))
  · have ht : target m (n * pageSize) i = none := by rw [target_eq, if_neg hp]
    rw [if_neg hp]
    have hnone : ∀ s ∈ (List.range pagesPerTable).map (Slot.page i) ++ [Slot.table i],
        dirFrame m (n * pageSize) s = none := by
      intro s hs
      rcases List.mem_append.mp hs with hs | hs
      · obtain ⟨j,hj,rfl⟩ := List.mem_map.mp hs
        simp only [dirFrame]
        rw [if_pos ⟨hi',List.mem_range.mp hj⟩, ht]
        rfl
      · rw [List.mem_singleton.mp hs]
        simp only [dirFrame]
        rw [if_pos hi', ht]
    have hskip : ∀ l : List Slot, (∀ s ∈ l, dirFrame m (n * pageSize) s = none) →
        l.foldl (freeAt m (n * pageSize)) q = q := by
      intro l
      induction l with
      | nil => intro _; rfl
      | cons s l ih =>
        intro hl
        rw [List.foldl_cons, freeAt, hl s List.mem_cons_self]
        exact ih fun s hs => hl s (List.mem_cons_of_mem _ hs)
    exact (hskip _ hnone).symm

theorem pagingFreeDirectory_eq {p : Phys} (hn : 0 < n) :
    pagingFreeDirectory p (n * pageSize) =
      { p with pmm := freeOrder.foldl (freeAt p.mem (n * pageSize)) p.pmm } := by
  have hnz : n * pageSize ≠ 0 := Nat.mul_ne_zero (Nat.ne_of_gt hn) (by decide)
  have hpt0 : (if isPresent (entry p.mem (n * pageSize) 0) then
      p.pmm.freePage (entry p.mem (n * pageSize) 0 &&& pageFrameMask) else p.pmm) =
        freeAt p.mem (n * pageSize) p.pmm .pt0 := by
    rw [freeAt, dirFrame, target_eq]
    by_cases hp : isPresent (entry p.mem (n * pageSize) 0)
    · rw [if_pos hp, if_pos hp]
      exact congrArg p.pmm.freePage (pageFrame_eq (entry_lt _ _ _))
    · rw [if_neg hp, if_neg hp]
  have hdir : ∀ q, freeAt p.mem (n * pageSize) q .dir = q.freePage (n * pageSize) := by
    intro q
    rw [freeAt, dirFrame]
    dsimp only
    rw [Nat.mul_div_cancel n (by decide)]
  rw [pagingFreeDirectory, if_neg hnz, hpt0]
  dsimp only
  rw [freeTables_eq, freeOrder, List.foldl_append, List.foldl_cons, List.foldl_cons, List.foldl_nil, hdir]

def dirFrames (m : Mem) (d : ℕ) : List ℕ := freeOrder.filterMap (dirFrame m d)

theorem mem_dirFrames {f : ℕ} : f ∈ dirFrames m (n * pageSize) ↔ ∃ s, dirFrame m (n * pageSize) s = some f := by
  rw [dirFrames, List.mem_filterMap]
  constructor
  · rintro ⟨s,_,hs⟩
    exact ⟨s,hs⟩
  · rintro ⟨s,hs⟩
    exact ⟨s,mem_freeOrder hs,hs⟩

/-- Every frame of a directory is freed, without a refusal, and no other frame is. -/
theorem pagingFreeDirectory_spec {L : Frames} {tag : Option (Fin 64)} {p : Phys} (h : Accounts L p.pmm)
    (hd : DirOwned L tag p.mem n) :
    Accounts (L.release (dirFrames p.mem (n * pageSize))) (pagingFreeDirectory p (n * pageSize)).pmm ∧
      (pagingFreeDirectory p (n * pageSize)).pmm.errors = p.pmm.errors ∧
      (pagingFreeDirectory p (n * pageSize)).mem = p.mem := by
  have hn : 0 < n := by
    refine Nat.pos_of_ne_zero ?_
    rintro rfl
    have hdir := hd.dir
    rw [h.zero] at hdir
    cases hdir
  have hnodup : (dirFrames p.mem (n * pageSize)).Nodup := by
    refine freeOrder_nodup.filterMap fun s s' f hs hs' => ?_
    have h1 := hd.owned s f hs
    rw [hd.owned s' f hs', Option.some.injEq, Owner.task.injEq] at h1
    exact h1.2.symm
  have hused : ∀ f ∈ dirFrames p.mem (n * pageSize), L f ≠ none := by
    intro f hf
    obtain ⟨s,hs⟩ := mem_dirFrames.mp hf
    simp [hd.owned s f hs]
  have hzero : 0 ∉ dirFrames p.mem (n * pageSize) := by
    intro h0
    obtain ⟨s,hs⟩ := mem_dirFrames.mp h0
    have hL := hd.owned s 0 hs
    rw [h.zero] at hL
    cases hL
  have hfold : freeOrder.foldl (freeAt p.mem (n * pageSize)) p.pmm =
      (dirFrames p.mem (n * pageSize)).foldl (fun q f => q.freePage (f * pageSize)) p.pmm := by
    rw [dirFrames, List.foldl_filterMap]
    refine List.foldl_ext _ _ _ fun q s _ => ?_
    rw [freeAt]
    cases dirFrame p.mem (n * pageSize) s with
    | none => rfl
    | some f => rfl
  rw [pagingFreeDirectory_eq hn, hfold]
  obtain ⟨hacc,herr⟩ := h.freeAll hnodup hused hzero
  exact ⟨hacc,herr,rfl⟩

theorem pagingFreeDirectory_testFrame {L : Frames} {tag : Option (Fin 64)} {p : Phys} (h : Accounts L p.pmm)
    (hd : DirOwned L tag p.mem n) (f : ℕ) : (pagingFreeDirectory p (n * pageSize)).pmm.testFrame f = true ↔
      p.pmm.testFrame f = true ∧ ∀ s, dirFrame p.mem (n * pageSize) s ≠ some f := by
  rw [(pagingFreeDirectory_spec h hd).1.used, h.used, Ledger.release]
  by_cases hf : f ∈ dirFrames p.mem (n * pageSize)
  · obtain ⟨s,hs⟩ := mem_dirFrames.mp hf
    rw [if_pos hf]
    exact ⟨fun hnone => Bool.noConfusion hnone,fun hall => absurd hs (hall.2 s)⟩
  · rw [if_neg hf]
    exact ⟨fun hsome => ⟨hsome,fun s hs => hf (mem_dirFrames.mpr ⟨s,hs⟩)⟩,fun hall => hall.1⟩

/-! ## Any directory -/

theorem freeTable_fewer (m : Mem) (pt : ℕ) (q : Pmm) : Pmm.Fewer (freeTable m pt q) q := by
  refine (Pmm.freePage_fewer _ _).trans (Pmm.foldl_fewer (fun p j => ?_) _ _)
  split
  · exact Pmm.freePage_fewer _ _
  · exact Pmm.Fewer.refl _

theorem pagingFreeDirectory_fewer (p : Phys) (dir : ℕ) : Pmm.Fewer (pagingFreeDirectory p dir).pmm p.pmm := by
  unfold pagingFreeDirectory freeTables
  by_cases hd : dir = 0
  · rw [if_pos hd]
    exact Pmm.Fewer.refl _
  rw [if_neg hd]
  refine (Pmm.freePage_fewer _ _).trans ((Pmm.foldl_fewer (fun q i => ?_) _ _).trans ?_)
  · split
    · exact freeTable_fewer _ _ _
    · exact Pmm.Fewer.refl _
  · split
    · exact Pmm.freePage_fewer _ _
    · exact Pmm.Fewer.refl _

end ApPa.Memory

import ApPa.System.Run

/-! # The reaper and the task that runs

`task_exit` marks the current task dead before it yields, and `task_reap` looks at states
only. Called in between, it frees the stack it runs on.
-/
namespace ApPa.System
open ByteMem Memory Tasks Linked

variable {img : Image} {k k' : Kernel} {live : List (Fin 64)} {L : Frames} {i : Fin 64} {f : ℕ}

/-! ## What the reaper does in any state -/

structure Relinked (k k' : Kernel) : Prop where
  phys : k'.phys = k.phys
  tasks : ∀ r, k'.tasks r = { k.tasks r with next := (k'.tasks r).next }

theorem Relinked.refl (k : Kernel) : Relinked k k := ⟨rfl,fun _ => rfl⟩

theorem Relinked.trans {k₁ k₂ k₃ : Kernel} (h : Relinked k₁ k₂) (h' : Relinked k₂ k₃) : Relinked k₁ k₃ := by
  refine ⟨h'.phys.trans h.phys,fun r => ?_⟩
  rw [h'.tasks r, h.tasks r]

theorem setNext_relinked (k : Kernel) (r : TaskRef) (n : Option TaskRef) : Relinked k (k.setNext r n) := by
  refine ⟨rfl,fun x => ?_⟩
  unfold Kernel.setNext Kernel.setTask
  by_cases hx : x = r
  · subst hx
    simp
  · simp [hx]

theorem unlinkAfter_relinked (k : Kernel) (prev task head : TaskRef) : Relinked k (unlinkAfter k prev task head) := by
  unfold unlinkAfter
  refine (setNext_relinked k prev (k.next task)).trans (Relinked.trans ?_ (setNext_relinked _ task none))
  split
  · exact ⟨rfl,fun _ => rfl⟩
  · exact Relinked.refl _

theorem schedRemoveTask_relinked {r : TaskRef} (h : schedRemoveTask k r = some k') : Relinked k k' := by
  unfold schedRemoveTask at h
  split at h
  · cases h
    exact Relinked.refl k
  · split at h
    · cases h
      exact Relinked.refl k
    · split at h
      · cases h
        have hhead : Relinked k { k with readyHead := none } := ⟨rfl,fun _ => rfl⟩
        exact hhead.trans (setNext_relinked _ r none)
      · split at h
        · cases h
        · cases h
          exact Relinked.refl k
        · cases h
          exact unlinkAfter_relinked k _ r _

theorem pagingUnmapPage_pmm (pg : Paging) (p : Phys) (virt : ℕ) : (pagingUnmapPage pg p virt).pmm = p.pmm := by
  unfold pagingUnmapPage
  split
  · rfl
  · split
    · rfl
    · rfl

theorem releaseTask_fewer (k : Kernel) (t : Task) : Pmm.Fewer (releaseTask k t).pmm (k.phys.freePage t.kernelStack).pmm := by
  unfold releaseTask
  dsimp only
  split
  · exact pagingFreeDirectory_fewer _ _
  · split
    · refine (Pmm.freePage_fewer _ _).trans ?_
      rw [pagingUnmapPage_pmm]
      exact Pmm.Fewer.refl _
    · exact Pmm.Fewer.refl _

theorem reapSlot_spec (h : reapSlot k i = some k') :
    (k' = k ∧ ¬((k.tasks (.slot i)).state = .dead ∧ (k.tasks (.slot i)).kernelStack ≠ 0)) ∨
      (∀ r, r ≠ .slot i → k'.tasks r = { k.tasks r with next := (k'.tasks r).next }) ∧
        Pmm.Fewer k'.phys.pmm (k.phys.pmm.freePage (k.tasks (.slot i)).kernelStack) := by
  unfold reapSlot at h
  dsimp only at h
  split at h
  · obtain ⟨k₁,hrem,rfl⟩ := Option.map_eq_some_iff.mp h
    have hlink := schedRemoveTask_relinked hrem
    refine Or.inr ⟨fun r hr => ?_,?_⟩
    · have hsame : (dropTcb { k₁ with phys := releaseTask k₁ (k.tasks (.slot i)) } i).tasks r = k₁.tasks r :=
        Function.update_of_ne hr _ _
      rw [hsame]
      exact hlink.tasks r
    · have hfewer := releaseTask_fewer k₁ (k.tasks (.slot i))
      rw [hlink.phys] at hfewer
      exact hfewer
  · rename_i hskip
    cases h
    exact Or.inl ⟨rfl,hskip⟩

theorem reapSlot_fewer (h : reapSlot k i = some k') : Pmm.Fewer k'.phys.pmm k.phys.pmm := by
  rcases reapSlot_spec h with ⟨rfl,_⟩ | ⟨_,hfewer⟩
  · exact Pmm.Fewer.refl _
  · exact hfewer.trans (Pmm.freePage_fewer _ _)

theorem reapSlots_fewer {l : List (Fin 64)} (h : l.foldlM reapSlot k = some k') : Pmm.Fewer k'.phys.pmm k.phys.pmm := by
  induction l generalizing k with
  | nil =>
    cases h
    exact Pmm.Fewer.refl _
  | cons j l ih =>
    rw [List.foldlM_cons] at h
    obtain ⟨k₁,hj,hl⟩ := Option.bind_eq_some_iff.mp h
    exact (ih hl).trans (reapSlot_fewer hj)

theorem reapSlots_other {l : List (Fin 64)} (hi : i ∉ l) (h : l.foldlM reapSlot k = some k') :
    k'.tasks (.slot i) = { k.tasks (.slot i) with next := (k'.tasks (.slot i)).next } := by
  induction l generalizing k with
  | nil =>
    cases h
    rfl
  | cons j l ih =>
    rw [List.foldlM_cons] at h
    obtain ⟨k₁,hj,hl⟩ := Option.bind_eq_some_iff.mp h
    have hrest := ih (fun hm => hi (List.mem_cons_of_mem _ hm)) hl
    rcases reapSlot_spec hj with ⟨rfl,_⟩ | ⟨hothers,_⟩
    · exact hrest
    · have hne : TaskRef.slot i ≠ .slot j := by
        intro he
        exact hi (TaskRef.slot.inj he ▸ List.mem_cons_self)
      rw [hrest, hothers _ hne]

/-- The kernel stack of a dead task is free after the reaper, whichever task is the current one. -/
theorem taskReap_frees (hdead : (k.tasks (.slot i)).state = .dead) (hstack : (k.tasks (.slot i)).kernelStack = f * pageSize)
    (hpos : 0 < f) (hf : f < totalFrames) (h : taskReap k = some k') : k'.phys.pmm.testFrame f = false := by
  obtain ⟨pre,post,hl⟩ := List.append_of_mem (List.mem_finRange i)
  have hnot : i ∉ pre := by
    have hnodup := List.nodup_finRange 64
    rw [hl] at hnodup
    intro hp
    exact (List.nodup_append.mp hnodup).2.2 i hp i List.mem_cons_self rfl
  rw [taskReap, hl, List.foldlM_append] at h
  obtain ⟨k₁,hpre,hrest⟩ := Option.bind_eq_some_iff.mp h
  rw [List.foldlM_cons] at hrest
  obtain ⟨k₂,hslot,hpost⟩ := Option.bind_eq_some_iff.mp hrest
  have hself := reapSlots_other hnot hpre
  have hstack₁ : (k₁.tasks (.slot i)).kernelStack = f * pageSize := by
    rw [hself]
    exact hstack
  have hdead₁ : (k₁.tasks (.slot i)).state = .dead := by
    rw [hself]
    exact hdead
  by_contra hused
  rw [Bool.not_eq_false] at hused
  have hused₂ := reapSlots_fewer hpost f hused
  rcases reapSlot_spec hslot with ⟨_,hskip⟩ | ⟨_,hfewer⟩
  · refine hskip ⟨hdead₁,?_⟩
    rw [hstack₁]
    exact Nat.mul_ne_zero (Nat.ne_of_gt hpos) (by decide)
  · have hfree := Pmm.testFrame_freePage_self k₁.phys.pmm hf
    rw [hstack₁] at hfewer
    rw [hfewer f hused₂] at hfree
    cases hfree

/-! ## The current task -/

/-- The current task keeps its kernel stack, its directory and its place in the ready queue. -/
structure Spares (k k' : Kernel) : Prop where
  stack : ∀ i, k.current = .slot i → k'.phys.pmm.testFrame ((k.tasks (.slot i)).kernelStack / pageSize) = true
  dir : ∀ i, k.current = .slot i → (k.tasks (.slot i)).pageDir ≠ 0 →
    k'.phys.pmm.testFrame ((k.tasks (.slot i)).pageDir / pageSize) = true
  linked : ∃ l, Ring k'.next .boot l ∧ k.current ∈ .boot :: l

theorem taskReap_spares (hs : SchedOk k live) (hown : Owns k live L) (halive : (k.tasks k.current).state ≠ .dead) :
    ∃ k', taskReap k = some k' ∧ Spares k k' := by
  obtain ⟨k',hr,hok,hreap⟩ := hs.taskReap_reaping halive
  obtain ⟨_,_,hframes,_⟩ := taskReap_frames hs hown halive hr
  have hkeep : ∀ i s f, k.current = .slot i → L f = some (.task (some i) s) → k'.phys.pmm.testFrame f = true := by
    intro i s f hcur hf
    refine (hframes f).mpr ⟨by rw [hown.accounts.used, hf]; rfl,fun j hj hdead s' hs' => ?_⟩
    have hlabel := (hown.taskFrame_label hj hs').symm.trans hf
    cases hlabel
    exact halive (hcur ▸ hdead)
  have hmem : ∀ i, k.current = .slot i → i ∈ live := fun i hcur => slot_mem_members.mp (hcur ▸ hs.current)
  refine ⟨k',hr,fun i hcur => ?_,fun i hcur hd => ?_,(survivors k live).map .slot,hok.ring,hreap.current ▸ hok.current⟩
  · obtain ⟨f,hf,hL⟩ := (hown.task i (hmem i hcur)).stack
    rw [hf, Nat.mul_div_cancel _ (by decide)]
    exact hkeep i .kstack f hcur hL
  · obtain ⟨n,hn,hL⟩ := (hown.task i (hmem i hcur)).dir hd
    rw [hn, Nat.mul_div_cancel _ (by decide)]
    exact hkeep i .dir n hcur hL.dir

/-- At every point of a run, `task_reap` returns and leaves the current task its kernel stack,
its directory and its place in the ready queue exactly when that task is not marked dead. -/
theorem taskReap_spares_iff {k₀ : Kernel} (hrun : Reachable img k₀ k live) :
    (∃ k', taskReap k = some k' ∧ Spares k k') ↔ (k.tasks k.current).state ≠ .dead := by
  obtain ⟨hs,L,hown⟩ := hrun.sound.1
  refine ⟨?_,taskReap_spares hs hown⟩
  rintro ⟨k',hr,hspare⟩ hdead
  cases hcur : k.current with
  | boot => exact hs.bootAlive (hcur ▸ hdead)
  | slot i =>
    obtain ⟨f,hf,hL⟩ := (hown.task i (slot_mem_members.mp (hcur ▸ hs.current))).stack
    have hfree := taskReap_frees (hcur ▸ hdead) hf (hown.accounts.pos hL) (hown.accounts.lt hL) hr
    have hused := hspare.stack i hcur
    rw [hf, Nat.mul_div_cancel _ (by decide), hfree] at hused
    cases hused

/-- The reaper called by the first Ring 3 task. -/
theorem taskReap_spares_running : ∃ k i k', Reachable flatImage idleKernel k [i] ∧ k.current = .slot i ∧
    taskReap k = some k' ∧ Spares k k' := by
  have hentry : 0x100000 < 0x400000 := by decide
  obtain ⟨k,i,hrun,hcur,hstate⟩ := first_user_runs flatImage (k := idleKernel) (fun _ => rfl) hentry []
  obtain ⟨k',hr,hspare⟩ := (taskReap_spares_iff hrun).mpr (by rw [hstate]; exact TaskState.noConfusion)
  exact ⟨k,i,k',hrun,hcur,hr,hspare⟩

theorem reapSlots_skip {l : List (Fin 64)} (h : ∀ j ∈ l, (k.tasks (.slot j)).kernelStack = 0) :
    l.foldlM reapSlot k = some k := by
  induction l with
  | nil => rfl
  | cons j l ih =>
    have hskip : reapSlot k j = some k := if_neg fun hj => hj.2 (h j List.mem_cons_self)
    rw [List.foldlM_cons, hskip]
    exact ih fun j hj => h j (List.mem_cons_of_mem _ hj)

/-- A dead task alone in the pool is unlinked, also when it is the current one. -/
theorem taskReap_sole (hs : SchedOk k [i]) (hdead : (k.tasks (.slot i)).state = .dead) :
    ∃ k', taskReap k = some k' ∧ k'.current = k.current ∧ Ring k'.next .boot [] := by
  obtain ⟨pre,post,hl⟩ := List.append_of_mem (List.mem_finRange i)
  have hnodup := List.nodup_finRange 64
  rw [hl] at hnodup
  obtain ⟨_,hpost,hpre⟩ := List.nodup_append.mp hnodup
  obtain ⟨_,prev,_,_,_,hrem,hring⟩ := hs.schedRemoveTask_ring List.mem_cons_self
  have hlink := schedRemoveTask_relinked hrem
  have hfree : ∀ j, j ≠ i → (k.tasks (.slot j)).kernelStack = 0 := by
    intro j hj
    rw [hs.free j (by simpa using hj)]
    rfl
  obtain ⟨k₁,hk₁⟩ : ∃ k₁, k₁ = unlinkAfter k prev (.slot i) .boot := ⟨_,rfl⟩
  rw [← hk₁] at hrem hring hlink
  let k' := dropTcb { k₁ with phys := releaseTask k₁ (k.tasks (.slot i)) } i
  have hother : ∀ r, r ≠ .slot i → k'.tasks r = k₁.tasks r := fun r hr => Function.update_of_ne hr _ _
  have hslot : reapSlot k i = some k' := by
    rw [reapSlot, if_pos ⟨hdead,hs.created i List.mem_cons_self⟩, hrem]
    rfl
  have hrest : post.foldlM reapSlot k' = some k' := by
    refine reapSlots_skip fun j hj => ?_
    have hji : j ≠ i := by
      rintro rfl
      exact (List.nodup_cons.mp hpost).1 hj
    rw [hother _ (by simpa using hji), hlink.tasks]
    exact hfree j hji
  refine ⟨k',?_,?_,?_⟩
  · rw [taskReap, hl, List.foldlM_append, reapSlots_skip fun j hj => hfree j fun he => hpre j hj i List.mem_cons_self he]
    change List.foldlM reapSlot k (i :: post) = _
    rw [List.foldlM_cons, hslot]
    exact hrest
  · change k₁.current = _
    rw [hk₁]
    rfl
  · have hnone : [i].filter (· ≠ i) = [] := by simp
    rw [hnone] at hring
    refine hring.congr fun r hr => ?_
    rw [List.map_nil, List.mem_singleton] at hr
    rw [Kernel.next, hother r (by rw [hr]; exact TaskRef.noConfusion)]
    rfl

/-- In the middle of `task_exit`, the reaper frees the kernel stack in use and unlinks the
current task. -/
theorem taskReap_frees_current : ∃ k i k', Reachable flatImage idleKernel k [i] ∧ k.current = .slot i ∧
    taskReap k = some k' ∧ k.phys.pmm.testFrame ((k.tasks (.slot i)).kernelStack / pageSize) = true ∧
    k'.phys.pmm.testFrame ((k.tasks (.slot i)).kernelStack / pageSize) = false ∧
    k'.current = .slot i ∧ Ring k'.next .boot [] := by
  have hentry : 0x100000 < 0x400000 := by decide
  obtain ⟨k,i,hrun,hcur,_⟩ := first_user_runs flatImage (k := idleKernel) (fun _ => rfl) hentry []
  have hexit : Step flatImage (k, [i]) (markDead k, [i]) := by
    refine ⟨.task .exitMark,?_,rfl⟩
    change k.current ≠ .boot
    rw [hcur]
    exact TaskRef.noConfusion
  have hrun' : Reachable flatImage idleKernel (markDead k) [i] := ⟨hrun.1,hrun.2.tail hexit⟩
  obtain ⟨hs,L,hown⟩ := hrun'.sound.1
  have hdead : ((markDead k).tasks (.slot i)).state = .dead := by
    rw [markDead, hcur]
    simp [Kernel.setState, Kernel.setTask]
  obtain ⟨k',hr,hcur',hring⟩ := taskReap_sole hs hdead
  obtain ⟨f,hf,hL⟩ := (hown.task i List.mem_cons_self).stack
  refine ⟨markDead k,i,k',hrun',hcur,hr,?_,?_,hcur'.trans hcur,hring⟩
  · rw [hf, Nat.mul_div_cancel _ (by decide), hown.accounts.used, hL]
    rfl
  · rw [hf, Nat.mul_div_cancel _ (by decide)]
    exact taskReap_frees hdead hf (hown.accounts.pos hL) (hown.accounts.lt hL) hr

end ApPa.System

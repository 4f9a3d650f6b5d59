import ApPa.Task.Queue

/-! # Lives of tasks

What creating, ending, scheduling and reaping tasks do to the ready queue and to the task
pool. Each routine is shown to return, and to leave a queue of `boot_task` and the live
pool tasks.
-/
namespace ApPa.Tasks
open Loop Linked Memory

/-- Scheduling changes the state, the saved stack pointer and the link of a control block. -/
def Task.Kept (t t' : Task) : Prop := t' = { t with state := t'.state, esp := t'.esp, next := t'.next }

theorem Task.Kept.refl (t : Task) : t.Kept t := rfl

theorem Task.Kept.trans {t t' t'' : Task} (h : t.Kept t') (h' : t'.Kept t'') : t.Kept t'' := by
  unfold Task.Kept at *
  rw [h']
  dsimp only
  rw [h]

/-- Scheduling alone leaves physical memory and the frames in the control blocks as they are, and gives no time slice longer
than a full one. -/
structure Kernel.Kept (k k' : Kernel) : Prop where
  phys : k'.phys = k.phys
  paging : k'.paging = k.paging
  slice : k'.sliceRemaining ≤ max k.sliceRemaining schedTimeSlice
  tasks : ∀ r, (k.tasks r).Kept (k'.tasks r)

theorem Kernel.Kept.refl (k : Kernel) : k.Kept k := ⟨rfl,rfl,Nat.le_max_left _ _,fun _ => rfl⟩

theorem switchTo_kept (k : Kernel) (r : TaskRef) : k.Kept (switchTo k r) := by
  by_cases hr : r = k.current
  · have hk : switchTo k r = k := if_pos hr
    rw [hk]
    exact Kernel.Kept.refl k
  · refine ⟨?_,?_,?_,fun x => ?_⟩
    · unfold switchTo Kernel.setState Kernel.setTask
      rw [if_neg hr]
      by_cases hrun : (k.tasks k.current).state = .running <;> simp [hrun]
    · unfold switchTo Kernel.setState Kernel.setTask
      rw [if_neg hr]
      by_cases hrun : (k.tasks k.current).state = .running <;> simp [hrun]
    · unfold switchTo
      rw [if_neg hr]
      exact Nat.le_max_right _ _
    · rw [Queue.switchTo_tasks hr]
      by_cases hxr : x = r
      · rw [if_pos hxr, hxr]
        rfl
      · rw [if_neg hxr]
        by_cases hxc : x = k.current
        · rw [if_pos hxc]
          rfl
        · rw [if_neg hxc]
          rfl

theorem switchTo_dead {k : Kernel} {r x : TaskRef} (hr : Runnable k r) (hx : (k.tasks x).state = .dead) :
    ((switchTo k r).tasks x).state = .dead := by
  by_cases hc : r = k.current
  · have hk : switchTo k r = k := if_pos hc
    rw [hk, hx]
  · rw [Queue.switchTo_tasks hc]
    have hxr : x ≠ r := by
      rintro rfl
      rcases hr with hr | hr
      · rw [hx] at hr
        cases hr
      · rw [hx] at hr
        cases hr
    rw [if_neg hxr]
    by_cases hxc : x = k.current
    · rw [if_pos hxc]
      simp [hx]
    · rw [if_neg hxc, hx]

theorem setState_kept (k : Kernel) (r : TaskRef) (s : TaskState) : k.Kept (k.setState r s) := by
  refine ⟨rfl,rfl,Nat.le_max_left _ _,fun x => ?_⟩
  unfold Kernel.setState Kernel.setTask
  by_cases hx : x = r
  · subst hx
    simp [Task.Kept]
  · simp [hx, Task.Kept]

/-- The queue of the live tasks, with every other slot of the pool cleared. -/
structure SchedOk (k : Kernel) (live : List (Fin 64)) : Prop extends Queue k live where
  free : ∀ i, i ∉ live → k.tasks (.slot i) = Task.zero

namespace SchedOk
variable {k : Kernel} {live : List (Fin 64)}

theorem current_boot (h : SchedOk k []) : k.current = .boot := by simpa [members] using h.current

theorem allocTcb_ne_none (h : SchedOk k live) (hlen : live.length < 64) : allocTcb k ≠ none := by
  obtain ⟨i,-,hi⟩ : ∃ i ∈ (Finset.univ : Finset (Fin 64)), i ∉ live.toFinset :=
    Finset.exists_mem_notMem_of_card_lt_card (by simpa using (List.toFinset_card_le live).trans_lt hlen)
  have hfree : slotFree k i := by
    rw [slotFree, h.free i (by simpa using hi)]
    exact ⟨rfl,rfl⟩
  simpa [allocTcb] using ⟨i,hfree⟩

theorem allocTcb_not_mem (h : SchedOk k live) {i : Fin 64} (hi : allocTcb k = some i) : i ∉ live := by
  intro hm
  have hfree := List.find?_some hi
  simp only [decide_eq_true_eq] at hfree
  exact h.created i hm hfree.2

theorem switchTo_ok (h : SchedOk k live) {r : TaskRef} (hr : r ∈ members live) : SchedOk (switchTo k r) live := by
  refine ⟨h.toQueue.switchTo_spec hr,fun i hi => ?_⟩
  by_cases hc : r = k.current
  · have hk : switchTo k r = k := if_pos hc
    rw [hk]
    exact h.free i hi
  · have hir : TaskRef.slot i ≠ r := by
      rintro rfl
      exact hi (slot_mem_members.mp hr)
    have hic : TaskRef.slot i ≠ k.current := by
      intro he
      exact hi (slot_mem_members.mp (he ▸ h.current))
    rw [Queue.switchTo_tasks hc, if_neg hir, if_neg hic]
    exact h.free i hi

/-- What a scheduling step keeps: the live tasks, the frames, and that the dead are dead. -/
structure Kept (k : Kernel) (live : List (Fin 64)) (k' : Kernel) : Prop where
  ok : SchedOk k' live
  kept : k.Kept k'
  dead : ∀ r, (k.tasks r).state = .dead → (k'.tasks r).state = .dead

theorem schedYield_ok (h : SchedOk k live) : ∃ k', schedYield k = some k' ∧ Kept k live k' := by
  obtain ⟨r,hr,hrun,hy⟩ := h.schedYield_spec
  exact ⟨_,hy,h.switchTo_ok hr,switchTo_kept k r,fun x hx => switchTo_dead hrun hx⟩

theorem congr {k' : Kernel} (h : SchedOk k live) (hcur : k'.current = k.current)
    (hhead : k'.readyHead = k.readyHead) (htasks : k'.tasks = k.tasks) : SchedOk k' live :=
  ⟨h.toQueue.congr hcur hhead fun r _ => congrFun htasks r,fun i hi => (congrFun htasks _).trans (h.free i hi)⟩

theorem withPhys (h : SchedOk k live) (p : Phys) : SchedOk { k with phys := p } live := h.congr rfl rfl rfl

theorem schedule_ok (h : SchedOk k live) : ∃ k', schedule k = some k' ∧ Kept k live k' := by
  unfold schedule
  by_cases hon : k.schedulerOn = true
  · have hk : SchedOk { k with sliceRemaining := k.sliceRemaining - 1 } live := h.congr rfl rfl rfl
    rw [if_neg (by simp [hon])]
    dsimp only
    by_cases hslice : 0 < k.sliceRemaining - 1
    · rw [if_pos hslice]
      exact ⟨_,rfl,hk,⟨rfl,rfl,by dsimp only; omega,fun _ => rfl⟩,fun _ hx => hx⟩
    · rw [if_neg hslice]
      obtain ⟨k',hy,hok⟩ := hk.schedYield_ok
      have hle : k'.sliceRemaining ≤ max (k.sliceRemaining - 1) schedTimeSlice := hok.kept.slice
      exact ⟨k',hy,hok.ok,⟨hok.kept.phys,hok.kept.paging,by omega,hok.kept.tasks⟩,hok.dead⟩
  · rw [if_pos (by simp [hon])]
    exact ⟨k,rfl,h,Kernel.Kept.refl k,fun _ hx => hx⟩

theorem markDead_ok (h : SchedOk k live) (hboot : k.current ≠ .boot) : Kept k live (markDead k) := by
  have htasks : ∀ r, (markDead k).tasks r =
      if r = k.current then { k.tasks r with state := .dead } else k.tasks r := by
    intro r
    unfold markDead Kernel.setState Kernel.setTask
    by_cases hr : r = k.current
    · simp [hr]
    · simp [hr]
  have hcur : (markDead k).current = k.current := rfl
  refine ⟨⟨⟨?_,h.head,h.current,?_,?_,?_,?_⟩,?_⟩,setState_kept k _ _,?_⟩
  · refine h.ring.congr fun r _ => ?_
    rw [Kernel.next, htasks]
    split
    · rfl
    · rfl
  · rw [hcur, htasks, if_pos rfl]
    exact Or.inr rfl
  · intro r hr hne
    rw [hcur] at hne
    rw [htasks, if_neg hne]
    exact h.otherState r hr hne
  · rw [htasks, if_neg (Ne.symm hboot)]
    exact h.bootAlive
  · intro i hi
    rw [htasks]
    split
    · exact h.created i hi
    · exact h.created i hi
  · intro i hi
    have hne : TaskRef.slot i ≠ k.current := by
      intro he
      exact hi (slot_mem_members.mp (he ▸ h.current))
    rw [htasks, if_neg hne]
    exact h.free i hi
  · intro r hr
    rw [htasks]
    split
    · rfl
    · exact hr

end SchedOk

/-- Preparing the control block of slot `i`: nothing else of the scheduler moves. -/
structure Apart (i : Fin 64) (k k' : Kernel) : Prop where
  paging : k'.paging = k.paging
  cpu : k'.cpu = k.cpu
  current : k'.current = k.current
  readyHead : k'.readyHead = k.readyHead
  slice : k'.sliceRemaining = k.sliceRemaining
  tasks : ∀ r, r ≠ .slot i → k'.tasks r = k.tasks r

namespace Apart
variable {i : Fin 64} {k k' k'' : Kernel}

theorem trans (h : Apart i k k') (h' : Apart i k' k'') : Apart i k k'' :=
  ⟨h'.paging.trans h.paging,h'.cpu.trans h.cpu,h'.current.trans h.current,h'.readyHead.trans h.readyHead,
    h'.slice.trans h.slice,fun r hr => (h'.tasks r hr).trans (h.tasks r hr)⟩

theorem setTask (k : Kernel) (i : Fin 64) (t : Task) : Apart i k (k.setTask (.slot i) t) :=
  ⟨rfl,rfl,rfl,rfl,rfl,fun _ hr => Function.update_of_ne hr _ _⟩

theorem withPhys (k : Kernel) (i : Fin 64) (p : Phys) : Apart i k { k with phys := p } :=
  ⟨rfl,rfl,rfl,rfl,rfl,fun _ _ => rfl⟩

theorem andTask (h : Apart i k k') (t : Task) : Apart i k (k'.setTask (.slot i) t) := h.trans (setTask k' i t)

theorem andPhys (h : Apart i k k') (p : Phys) : Apart i k { k' with phys := p } := h.trans (withPhys k' i p)

theorem assignIdentity (k : Kernel) (i : Fin 64) (name : List UInt8) (u : Bool) :
    Apart i k (assignIdentity k i name u) :=
  (setTask k i _).trans ⟨rfl,rfl,rfl,rfl,rfl,fun _ _ => rfl⟩

end Apart

/-- A creation that gave up: the slot is cleared again. -/
structure Dropped (k : Kernel) (i : Fin 64) (k' : Kernel) : Prop extends Apart i k k' where
  cleared : k'.tasks (.slot i) = Task.zero

/-- The scheduler and the control blocks are as before. -/
structure Kernel.Unchanged (k k' : Kernel) : Prop where
  paging : k'.paging = k.paging
  cpu : k'.cpu = k.cpu
  current : k'.current = k.current
  readyHead : k'.readyHead = k.readyHead
  tasks : k'.tasks = k.tasks

theorem Dropped.unchanged {k k' : Kernel} {i : Fin 64} (h : Dropped k i k') (hi : k.tasks (.slot i) = Task.zero) :
    k.Unchanged k' := by
  refine ⟨h.paging,h.cpu,h.current,h.readyHead,?_⟩
  funext r
  by_cases hr : r = .slot i
  · rw [hr, h.cleared, hi]
  · exact h.tasks r hr

theorem Apart.dropTcb {k k₁ : Kernel} {i : Fin 64} (hk : Apart i k k₁) : Dropped k i (dropTcb k₁ i) :=
  ⟨hk.trans (Apart.setTask k₁ i _),Function.update_self ..⟩

/-- A task queued from the prepared kernel `k₁`. -/
structure Launched (k k₁ : Kernel) (i : Fin 64) (frame : List ℕ) (k' : Kernel) : Prop where
  phys : k'.phys = { k₁.phys with mem := (push k₁.phys.mem (k₁.tasks (.slot i)).esp0 frame).1 }
  paging : k'.paging = k.paging
  cpu : k'.cpu = k.cpu
  current : k'.current = k.current
  slice : k'.sliceRemaining = k.sliceRemaining
  others : ∀ r, r ≠ .slot i → (k.tasks r).Kept (k'.tasks r) ∧ (k'.tasks r).state = (k.tasks r).state
  self : (k₁.tasks (.slot i)).Kept (k'.tasks (.slot i))
  esp : (k'.tasks (.slot i)).esp = (push k₁.phys.mem (k₁.tasks (.slot i)).esp0 frame).2
  ready : (k'.tasks (.slot i)).state = .ready

namespace SchedOk
variable {k k₁ k' : Kernel} {live : List (Fin 64)} {i : Fin 64}

theorem apart (h : SchedOk k live) (hi : i ∉ live) (hk : Apart i k k') : Queue k' live := by
  refine h.toQueue.congr hk.current hk.readyHead fun r hr => hk.tasks r ?_
  rintro rfl
  exact hi (slot_mem_members.mp hr)

theorem dropped (h : SchedOk k live) (hi : i ∉ live) (hk : Dropped k i k') : SchedOk k' live := by
  refine ⟨h.apart hi hk.toApart,fun j hj => ?_⟩
  by_cases hji : j = i
  · rw [hji]
    exact hk.cleared
  · rw [hk.tasks _ (by simpa using hji)]
    exact h.free j hj

theorem launch_ok (h : SchedOk k live) (hi : i ∉ live) (hk : Apart i k k₁)
    (hstack : (k₁.tasks (.slot i)).kernelStack ≠ 0) (frame : List ℕ) :
    ∃ k', launch k₁ i frame = some k' ∧ SchedOk k' (live ++ [i]) ∧ Launched k k₁ i frame k' := by
  let t := k₁.tasks (.slot i)
  let m := push k₁.phys.mem t.esp0 frame
  let k₂ : Kernel := { k₁ with phys := { k₁.phys with mem := m.1 } }
  let k₃ : Kernel := k₂.setTask (.slot i) { t with esp := m.2, state := .ready, next := none }
  have h3 : Apart i k k₃ := (hk.trans (Apart.withPhys k₁ i _)).trans (Apart.setTask k₂ i _)
  have hself : k₃.tasks (.slot i) = { t with esp := m.2, state := .ready, next := none } := Function.update_self ..
  obtain ⟨tail,ht,hadd,hqueue⟩ := (h.apart hi h3).schedAddTask_spec hi (by rw [hself])
    (by rw [hself]; exact hstack)
  have hne : tail ≠ .slot i := by
    rintro rfl
    exact hi (slot_mem_members.mp ht)
  have htasks := Queue.insertAfter_tasks k₃ hne
  refine ⟨insertAfter k₃ tail (.slot i),hadd,⟨hqueue,?_⟩,rfl,hk.paging,hk.cpu,hk.current,hk.slice,?_,?_,?_,?_⟩
  · intro j hj
    have hji : TaskRef.slot j ≠ .slot i := by
      rintro he
      cases he
      exact hj (by simp)
    have hjl : j ∉ live := fun hm => hj (List.mem_append_left _ hm)
    have hjt : TaskRef.slot j ≠ tail := by
      rintro rfl
      exact hjl (slot_mem_members.mp ht)
    rw [htasks, Function.update_of_ne hjt, Function.update_of_ne hji, Kernel.next, h3.tasks _ hji]
    exact h.free j hjl
  · intro r hr
    rw [htasks, h3.tasks r hr]
    exact ⟨rfl,rfl⟩
  · rw [htasks, hself]
    rfl
  · rw [htasks, hself]
  · rw [htasks, hself]

/-- What a creation leaves: the tasks that were live, unchanged, and the new one if there is one. -/
structure Spawned (k : Kernel) (live : List (Fin 64)) (res : Option (Fin 64)) (k' : Kernel) : Prop where
  ok : SchedOk k' (live ++ res.toList)
  fresh : ∀ i ∈ res, i ∉ live
  paging : k'.paging = k.paging
  cpu : k'.cpu = k.cpu
  current : k'.current = k.current
  slice : k'.sliceRemaining = k.sliceRemaining
  tasks : ∀ r ∈ members live, (k.tasks r).Kept (k'.tasks r)
  states : ∀ r ∈ members live, (k'.tasks r).state = (k.tasks r).state

theorem spawned_full (h : SchedOk k live) : Spawned k live none k :=
  ⟨by simpa using h,by simp,rfl,rfl,rfl,rfl,fun _ _ => rfl,fun _ _ => rfl⟩

theorem spawned_dropped (h : SchedOk k live) (hi : i ∉ live) (hk : Dropped k i k') : Spawned k live none k' := by
  have hne : ∀ r ∈ members live, r ≠ .slot i := by
    rintro r hr rfl
    exact hi (slot_mem_members.mp hr)
  refine ⟨by simpa using h.dropped hi hk,by simp,hk.paging,hk.cpu,hk.current,hk.slice,fun r hr => ?_,
    fun r hr => ?_⟩
  · rw [hk.tasks r (hne r hr)]
    rfl
  · rw [hk.tasks r (hne r hr)]

theorem spawned_launched (h : SchedOk k live) (hi : i ∉ live) (hk : Apart i k k₁)
    (hstack : (k₁.tasks (.slot i)).kernelStack ≠ 0) (frame : List ℕ) :
    ∃ k', launch k₁ i frame = some k' ∧ Spawned k live (some i) k' ∧ Launched k k₁ i frame k' := by
  obtain ⟨k',hl,hok,hlaunch⟩ := h.launch_ok hi hk hstack frame
  have hne : ∀ r ∈ members live, r ≠ .slot i := by
    rintro r hr rfl
    exact hi (slot_mem_members.mp hr)
  refine ⟨k',hl,⟨hok,?_,hlaunch.paging,hlaunch.cpu,hlaunch.current,hlaunch.slice,?_,?_⟩,hlaunch⟩
  · intro j hj
    cases hj
    exact hi
  · intro r hr
    exact (hlaunch.others r (hne r hr)).1
  · intro r hr
    exact (hlaunch.others r (hne r hr)).2

theorem launched_of_call {frame : List ℕ} {res : Option (Fin 64)} (h : SchedOk k live) (hi : i ∉ live) (hk : Apart i k k₁)
    (hstack : (k₁.tasks (.slot i)).kernelStack ≠ 0) (hcall : (launch k₁ i frame).map (some i, ·) = some (res, k')) :
    res = some i ∧ Launched k k₁ i frame k' := by
  obtain ⟨k₂,hl,_,hlaunch⟩ := h.launch_ok hi hk hstack frame
  rw [hl, Option.map_some, Option.some.injEq, Prod.mk.injEq] at hcall
  obtain ⟨rfl,rfl⟩ := hcall
  exact ⟨rfl,hlaunch⟩

/-- The two ways a creation ends that has found slot `i`: what it did is undone, or the task is queued. -/
inductive Ending (k : Kernel) (i : Fin 64) (frame : List ℕ) : Option (Option (Fin 64) × Kernel) → Prop where
  | dropped {k₁ : Kernel} : Apart i k k₁ → Ending k i frame (some (none, dropTcb k₁ i))
  | launched {k₁ : Kernel} : Apart i k k₁ → (k₁.tasks (.slot i)).kernelStack ≠ 0 →
      Ending k i frame ((launch k₁ i frame).map (some i, ·))

theorem ending_ok {frame : List ℕ} {r : Option (Option (Fin 64) × Kernel)} (h : SchedOk k live) (hi : allocTcb k = some i)
    (hr : Ending k i frame r) : ∃ res k', r = some (res, k') ∧ Spawned k live res k' := by
  have hfree := h.allocTcb_not_mem hi
  cases hr with
  | dropped hk => exact ⟨none,_,rfl,h.spawned_dropped hfree hk.dropTcb⟩
  | launched hk hstack =>
    obtain ⟨k',hl,hsp,_⟩ := h.spawned_launched hfree hk hstack frame
    exact ⟨some i,k',congrArg (Option.map (some i, ·)) hl,hsp⟩

theorem taskCreate_ending (hi : allocTcb k = some i) (img : Image) (entry : ℕ) (name : List UInt8) :
    Ending k i (kernelFrame img entry) (taskCreate img k entry name) := by
  rw [taskCreate, hi]
  have h1 := (Apart.assignIdentity k i name false).andPhys (assignIdentity k i name false).phys.allocPage.2
  dsimp only
  split
  · exact .dropped h1
  · rename_i hs
    exact .launched (h1.andTask _) (by simpa [setStack, Kernel.setTask] using hs)

theorem taskCreateUserMapped_ending (hi : allocTcb k = some i) (img : Image) (entryVaddr : ℕ) (name : List UInt8)
    (dir dirPhys userEsp : ℕ) :
    Ending k i (userFrame img userEsp entryVaddr) (taskCreateUserMapped img k entryVaddr name dir dirPhys userEsp) := by
  rw [taskCreateUserMapped, hi]
  have h1 := (Apart.assignIdentity k i name true).andPhys (assignIdentity k i name true).phys.allocPage.2
  dsimp only
  split
  · exact .dropped h1
  · rename_i hs
    exact .launched ((h1.andTask _).andTask _) (by simpa [setStack, Kernel.setTask] using hs)

theorem taskCreateUser_ending (hi : allocTcb k = some i) (img : Image) (entry : ℕ) (name : List UInt8) :
    Ending k i (userFrame img userStackTop entry) (taskCreateUser img k entry name) := by
  rw [taskCreateUser, hi]
  have h1 := Apart.assignIdentity k i name true
  dsimp only
  split
  · exact .dropped (h1.andPhys _)
  rename_i hs
  split
  · exact .dropped (((h1.andPhys _).andTask _).andPhys _)
  split
  · exact .dropped (((((h1.andPhys _).andTask _).andPhys _).andTask _).andPhys _)
  · exact .launched ((((((h1.andPhys _).andTask _).andPhys _).andTask _).andTask _).andPhys _)
      (by simpa [setStack, Kernel.setTask] using hs)

theorem taskCreate_ok (h : SchedOk k live) (img : Image) (entry : ℕ) (name : List UInt8) :
    ∃ res k', taskCreate img k entry name = some (res, k') ∧ Spawned k live res k' := by
  cases hi : allocTcb k with
  | none => exact ⟨none,k,by rw [taskCreate, hi],h.spawned_full⟩
  | some i => exact h.ending_ok hi (taskCreate_ending hi img entry name)

theorem taskCreateUser_ok (h : SchedOk k live) (img : Image) (entry : ℕ) (name : List UInt8) :
    ∃ res k', taskCreateUser img k entry name = some (res, k') ∧ Spawned k live res k' := by
  cases hi : allocTcb k with
  | none => exact ⟨none,k,by rw [taskCreateUser, hi],h.spawned_full⟩
  | some i => exact h.ending_ok hi (taskCreateUser_ending hi img entry name)

theorem taskCreateUserMapped_ok (h : SchedOk k live) (img : Image) (entryVaddr : ℕ) (name : List UInt8)
    (dir dirPhys userEsp : ℕ) :
    ∃ res k', taskCreateUserMapped img k entryVaddr name dir dirPhys userEsp = some (res, k') ∧
      Spawned k live res k' := by
  cases hi : allocTcb k with
  | none => exact ⟨none,k,by rw [taskCreateUserMapped, hi],h.spawned_full⟩
  | some i => exact h.ending_ok hi (taskCreateUserMapped_ending hi img entryVaddr name dir dirPhys userEsp)

/-- A dead task taken off the queue, its frames given back and its slot cleared. -/
structure Reaped (k : Kernel) (live : List (Fin 64)) (i : Fin 64) (k' : Kernel) : Prop where
  ok : SchedOk k' (live.filter (· ≠ i))
  phys : k'.phys = releaseTask k (k.tasks (.slot i))
  paging : k'.paging = k.paging
  cpu : k'.cpu = k.cpu
  current : k'.current = k.current
  slice : k'.sliceRemaining = k.sliceRemaining
  others : ∀ r, r ≠ .slot i → (k.tasks r).Kept (k'.tasks r) ∧ (k'.tasks r).state = (k.tasks r).state

theorem reapSlot_dead (h : SchedOk k live) (hi : i ∈ live) (hdead : (k.tasks (.slot i)).state = .dead)
    (halive : (k.tasks k.current).state ≠ .dead) : ∃ k', reapSlot k i = some k' ∧ Reaped k live i k' := by
  have hc : TaskRef.slot i ≠ k.current := by
    intro he
    exact halive (he ▸ hdead)
  obtain ⟨prev,hrem,hqueue,hprev,hne⟩ := h.schedRemoveTask_spec hi hc
  have htasks := Queue.unlinkAfter_tasks k hne
  let kr := unlinkAfter k prev (.slot i) .boot
  let k' := dropTcb { kr with phys := releaseTask kr (k.tasks (.slot i)) } i
  have hother : ∀ r, r ≠ .slot i → k'.tasks r = kr.tasks r := fun r hr => Function.update_of_ne hr _ _
  have hmem : ∀ r ∈ members (live.filter (· ≠ i)), r ≠ .slot i := by
    rintro r hr rfl
    have hm := List.of_mem_filter (slot_mem_members.mp hr)
    simp at hm
  refine ⟨k',?_,⟨hqueue.congr rfl rfl fun r hr => hother r (hmem r hr),?_⟩,rfl,rfl,rfl,rfl,?_,?_⟩
  · rw [reapSlot, if_pos ⟨hdead,h.created i hi⟩, hrem]
    rfl
  · intro j hj
    by_cases hji : j = i
    · rw [hji]
      exact Function.update_self ..
    · have hjl : j ∉ live := fun hm => hj (List.mem_filter.mpr ⟨hm,by simpa using hji⟩)
      have hjs : TaskRef.slot j ≠ .slot i := by simpa using hji
      have hjp : TaskRef.slot j ≠ prev := by
        rintro rfl
        exact hjl (slot_mem_members.mp hprev)
      rw [hother _ hjs, htasks, Function.update_of_ne hjs, Function.update_of_ne hjp]
      exact h.free j hjl
  · change (unlinkAfter k prev (.slot i) .boot).sliceRemaining = _
    unfold unlinkAfter
    dsimp only
    split <;> rfl
  · intro r hr
    rw [hother r hr, htasks]
    exact ⟨rfl,rfl⟩

theorem reapSlot_skip (h : SchedOk k live) (hi : ¬(i ∈ live ∧ (k.tasks (.slot i)).state = .dead)) :
    reapSlot k i = some k := by
  refine if_neg ?_
  rintro ⟨hdead,hstack⟩
  by_cases hm : i ∈ live
  · exact hi ⟨hm,hdead⟩
  · rw [h.free i hm] at hstack
    exact hstack rfl

end SchedOk

/-- The live tasks that a reaper leaves. -/
def survivors (k : Kernel) (live : List (Fin 64)) : List (Fin 64) :=
  live.filter fun i => (k.tasks (.slot i)).state ≠ .dead

/-- The live tasks that are left when a reaper has visited the slots `pre`. -/
def unreaped (k : Kernel) (live pre : List (Fin 64)) : List (Fin 64) :=
  live.filter fun i => ¬((k.tasks (.slot i)).state = .dead ∧ i ∈ pre)

section
variable {k : Kernel} {live pre : List (Fin 64)} {i : Fin 64}

theorem unreaped_nil : unreaped k live [] = live := by simp [unreaped]

theorem unreaped_finRange : unreaped k live (List.finRange 64) = survivors k live := by simp [unreaped, survivors]

theorem mem_unreaped (hi : i ∈ live) (hpre : i ∉ pre) : i ∈ unreaped k live pre :=
  List.mem_filter.mpr ⟨hi,by simp [hpre]⟩

theorem unreaped_skip (h : ¬(i ∈ live ∧ (k.tasks (.slot i)).state = .dead)) :
    unreaped k live (pre ++ [i]) = unreaped k live pre := by
  refine List.filter_congr fun j hj => ?_
  by_cases hji : j = i
  · subst hji
    have hd : (k.tasks (.slot j)).state ≠ .dead := fun hd => h ⟨hj,hd⟩
    simp [hd]
  · simp [hji]

theorem unreaped_reap (hdead : (k.tasks (.slot i)).state = .dead) :
    unreaped k live (pre ++ [i]) = (unreaped k live pre).filter (· ≠ i) := by
  rw [unreaped, unreaped, List.filter_filter]
  refine List.filter_congr fun j _ => ?_
  by_cases hj : j = i
  · subst hj
    simp [hdead]
  · simp [hj]

end

namespace SchedOk
variable {k : Kernel} {live : List (Fin 64)}

/-- `task_reap` run over the first slots of the pool. -/
structure Reaping (k : Kernel) (live : List (Fin 64)) (pre : List (Fin 64)) (k' : Kernel) : Prop where
  ok : SchedOk k' (unreaped k live pre)
  paging : k'.paging = k.paging
  cpu : k'.cpu = k.cpu
  current : k'.current = k.current
  slice : k'.sliceRemaining = k.sliceRemaining
  others : ∀ r, (k.tasks r).state ≠ .dead ∨ (∀ i ∈ pre, r ≠ .slot i) →
    (k.tasks r).Kept (k'.tasks r) ∧ (k'.tasks r).state = (k.tasks r).state

/-- The reaper returns; `Mem` is whatever its releases preserve of the kernel. -/
theorem taskReap_ok (h : SchedOk k live) (halive : (k.tasks k.current).state ≠ .dead)
    (Mem : List (Fin 64) → Kernel → Prop) (hmem : Mem [] k)
    (hskip : ∀ pre i k', Mem pre k' → ¬(i ∈ live ∧ (k.tasks (.slot i)).state = .dead) → Mem (pre ++ [i]) k')
    (hreap : ∀ pre i k' k'', Mem pre k' → Reaping k live pre k' → i ∈ live → (k.tasks (.slot i)).state = .dead →
      i ∉ pre → Reaped k' (unreaped k live pre) i k'' →
      Mem (pre ++ [i]) k'') :
    ∃ k', taskReap k = some k' ∧ SchedOk k' (survivors k live) ∧ Reaping k live (List.finRange 64) k' ∧
      Mem (List.finRange 64) k' := by
  have hfold := foldlM_total (f := reapSlot) (l := List.finRange 64) (b := k)
    (fun pre k' => Reaping k live pre k' ∧ Mem pre k') ?_ ⟨⟨by rwa [unreaped_nil],rfl,rfl,rfl,rfl,fun r _ => ⟨rfl,rfl⟩⟩,hmem⟩
  · obtain ⟨k',hf,hr,hm⟩ := hfold
    refine ⟨k',hf,?_,hr,hm⟩
    rw [← unreaped_finRange]
    exact hr.ok
  · rintro pre i post k' hl ⟨hr,hm⟩
    have hi : i ∉ pre := by
      have hnodup := List.nodup_finRange 64
      rw [hl] at hnodup
      intro hp
      exact (List.nodup_append.mp hnodup).2.2 i hp i List.mem_cons_self rfl
    have hsame := hr.others (.slot i) (Or.inr fun j hj he => hi (TaskRef.slot.inj he ▸ hj))
    by_cases hcase : i ∈ live ∧ (k.tasks (.slot i)).state = .dead
    · have hlive : i ∈ unreaped k live pre := mem_unreaped hcase.1 hi
      have halive' : (k'.tasks k'.current).state ≠ .dead := by
        rw [hr.current, (hr.others k.current (Or.inl halive)).2]
        exact halive
      obtain ⟨k'',hreap',hrd⟩ := hr.ok.reapSlot_dead hlive (hsame.2.trans hcase.2) halive'
      refine ⟨k'',hreap',⟨?_,hrd.paging.trans hr.paging,hrd.cpu.trans hr.cpu,hrd.current.trans hr.current,
        hrd.slice.trans hr.slice,?_⟩,hreap pre i k' k'' hm hr hcase.1 hcase.2 hi hrd⟩
      · rw [unreaped_reap hcase.2]
        exact hrd.ok
      · intro r hr'
        have hri : r ≠ .slot i := by
          rintro rfl
          rcases hr' with hr' | hr'
          · exact hr' hcase.2
          · exact hr' i (by simp) rfl
        have hprev := hr.others r (hr'.imp_right fun hp j hj => hp j (List.mem_append_left _ hj))
        have hnow := hrd.others r hri
        exact ⟨hprev.1.trans hnow.1,hnow.2.trans hprev.2⟩
    · have hskip' : reapSlot k' i = some k' := by
        refine hr.ok.reapSlot_skip fun hc => hcase ⟨(List.mem_filter.mp hc.1).1,hsame.2 ▸ hc.2⟩
      refine ⟨k',hskip',⟨?_,hr.paging,hr.cpu,hr.current,hr.slice,?_⟩,hskip pre i k' hm hcase⟩
      · rw [unreaped_skip hcase]
        exact hr.ok
      · intro r hr'
        exact hr.others r (hr'.imp_right fun hp j hj => hp j (List.mem_append_left _ hj))

theorem taskReap_reaping (h : SchedOk k live) (halive : (k.tasks k.current).state ≠ .dead) :
    ∃ k', taskReap k = some k' ∧ SchedOk k' (survivors k live) ∧ Reaping k live (List.finRange 64) k' := by
  obtain ⟨k',hr,hok,hreap,-⟩ := h.taskReap_ok halive (fun _ _ => True) trivial (fun _ _ _ _ _ => trivial)
    fun _ _ _ _ _ _ _ _ _ _ => trivial
  exact ⟨k',hr,hok,hreap⟩

end SchedOk

end ApPa.Tasks

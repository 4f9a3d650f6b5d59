import ApPa.Task.Lifecycle
import ApPa.Task.RoundRobin
import Mathlib.Logic.Relation

/-! # Runs of the task system

Tasks are created, end, yield, are preempted and are reaped in any order. The second
component of a state lists the pool tasks created and not yet reaped, oldest first.
-/
namespace ApPa.Tasks
open Linked Memory

inductive Op where
  | create (entry : ℕ) (name : List UInt8)
  | createUser (entry : ℕ) (name : List UInt8)
  | createUserMapped (entryVaddr : ℕ) (name : List UInt8) (dir dirPhys userEsp : ℕ)
  | exitMark
  | yield
  | tick
  | enable
  | disable
  | reap

/-- Only a pool task ends, and a dead task does not call the reaper. -/
def Op.Allowed (k : Kernel) : Op → Prop
  | .exitMark => k.current ≠ .boot
  | .reap => (k.tasks k.current).state ≠ .dead
  | _ => True

/-- The calls, with the book-keeping of live tasks. -/
def exec (img : Image) (op : Op) (s : Kernel × List (Fin 64)) : Option (Kernel × List (Fin 64)) :=
  match op with
  | .create entry name => (taskCreate img s.1 entry name).map fun r => (r.2, s.2 ++ r.1.toList)
  | .createUser entry name => (taskCreateUser img s.1 entry name).map fun r => (r.2, s.2 ++ r.1.toList)
  | .createUserMapped entryVaddr name dir dirPhys userEsp =>
    (taskCreateUserMapped img s.1 entryVaddr name dir dirPhys userEsp).map fun r => (r.2, s.2 ++ r.1.toList)
  | .exitMark => some (markDead s.1, s.2)
  | .yield => (schedYield s.1).map (·, s.2)
  | .tick => (schedule s.1).map (·, s.2)
  | .enable => some (schedEnable s.1, s.2)
  | .disable => some (schedDisable s.1, s.2)
  | .reap => (taskReap s.1).map (·, survivors s.1 s.2)

def Step (img : Image) (s s' : Kernel × List (Fin 64)) : Prop :=
  ∃ op : Op, op.Allowed s.1 ∧ exec img op s = some s'

variable {img : Image} {k : Kernel} {live : List (Fin 64)}

/-- What a call leaves of the queue, of the time slice and of the dead. -/
structure Advances (op : Op) (k : Kernel) (live : List (Fin 64)) (s' : Kernel × List (Fin 64)) : Prop where
  ok : SchedOk s'.1 s'.2
  slice : s'.1.sliceRemaining ≤ max k.sliceRemaining schedTimeSlice
  dead : op ≠ .reap → ∀ i ∈ live, (k.tasks (.slot i)).state = .dead →
    i ∈ s'.2 ∧ (s'.1.tasks (.slot i)).state = .dead
  reaped : op = .reap → ∀ i ∈ live, i ∈ s'.2 ↔ (k.tasks (.slot i)).state ≠ .dead

theorem advances_kept {op : Op} {k' : Kernel} (hop : op ≠ .reap) (h : SchedOk.Kept k live k') :
    Advances op k live (k', live) :=
  ⟨h.ok,h.kept.slice,fun _ _ hi hd => ⟨hi,h.dead _ hd⟩,fun he => absurd he hop⟩

theorem advances_spawned {op : Op} {k' : Kernel} {res : Option (Fin 64)} (hop : op ≠ .reap)
    (h : SchedOk.Spawned k live res k') : Advances op k live (k', live ++ res.toList) := by
  refine ⟨h.ok,h.slice ▸ Nat.le_max_left _ _,fun _ i hi hd => ⟨List.mem_append_left _ hi,?_⟩,fun he => absurd he hop⟩
  rw [h.states _ (slot_mem_members.mpr hi)]
  exact hd

/-- Calls that take and give back no frames. -/
def Op.Scheduling : Op → Prop
  | .exitMark => True
  | .yield => True
  | .tick => True
  | .enable => True
  | .disable => True
  | _ => False

theorem exec_scheduling (img : Image) (h : SchedOk k live) {op : Op} (hop : op.Allowed k) (hs : op.Scheduling) :
    ∃ k', exec img op (k, live) = some (k', live) ∧ SchedOk.Kept k live k' := by
  cases op with
  | create entry name => exact hs.elim
  | createUser entry name => exact hs.elim
  | createUserMapped entryVaddr name dir dirPhys userEsp => exact hs.elim
  | exitMark => exact ⟨_,rfl,h.markDead_ok hop⟩
  | yield =>
    obtain ⟨k',hy,hk⟩ := h.schedYield_ok
    exact ⟨k',by rw [exec, hy]; rfl,hk⟩
  | tick =>
    obtain ⟨k',ht,hk⟩ := h.schedule_ok
    exact ⟨k',by rw [exec, ht]; rfl,hk⟩
  | enable => exact ⟨_,rfl,h.congr rfl rfl rfl,⟨rfl,rfl,Nat.le_max_left _ _,fun _ => rfl⟩,fun _ hd => hd⟩
  | disable => exact ⟨_,rfl,h.congr rfl rfl rfl,⟨rfl,rfl,Nat.le_max_left _ _,fun _ => rfl⟩,fun _ hd => hd⟩
  | reap => exact hs.elim

theorem exec_ok (img : Image) (h : SchedOk k live) (op : Op) (hop : op.Allowed k) :
    ∃ s', exec img op (k, live) = some s' ∧ Advances op k live s' := by
  have hsched : op.Scheduling → op ≠ .reap → ∃ s', exec img op (k, live) = some s' ∧ Advances op k live s' := by
    intro hs hne
    obtain ⟨k',hk,hkept⟩ := exec_scheduling img h hop hs
    exact ⟨(k', live),hk,advances_kept hne hkept⟩
  cases op with
  | create entry name =>
    obtain ⟨res,k',hc,hs⟩ := h.taskCreate_ok img entry name
    exact ⟨(k', live ++ res.toList),by rw [exec, hc]; rfl,advances_spawned Op.noConfusion hs⟩
  | createUser entry name =>
    obtain ⟨res,k',hc,hs⟩ := h.taskCreateUser_ok img entry name
    exact ⟨(k', live ++ res.toList),by rw [exec, hc]; rfl,advances_spawned Op.noConfusion hs⟩
  | createUserMapped entryVaddr name dir dirPhys userEsp =>
    obtain ⟨res,k',hc,hs⟩ := h.taskCreateUserMapped_ok img entryVaddr name dir dirPhys userEsp
    exact ⟨(k', live ++ res.toList),by rw [exec, hc]; rfl,advances_spawned Op.noConfusion hs⟩
  | exitMark => exact hsched trivial Op.noConfusion
  | yield => exact hsched trivial Op.noConfusion
  | tick => exact hsched trivial Op.noConfusion
  | enable => exact hsched trivial Op.noConfusion
  | disable => exact hsched trivial Op.noConfusion
  | reap =>
    obtain ⟨k',hr,hok,hreap⟩ := h.taskReap_reaping hop
    refine ⟨(k', survivors k live),by rw [exec, hr]; rfl,hok,hreap.slice ▸ Nat.le_max_left _ _,fun hne => absurd rfl hne,fun _ i hi => ?_⟩
    simp [survivors, hi]

theorem schedInit_boot (k : Kernel) : (schedInit k).tasks .boot = { Task.zero with
    name := Klibc.strncpy Task.zero.name [0x69, 0x64, 0x6C, 0x65] taskNameMax
    state := .running
    next := some .boot } := by simp [schedInit, Kernel.setTask]

theorem schedInit_ok (hpool : ∀ i, k.tasks (.slot i) = Task.zero) : SchedOk (schedInit k) [] := by
  have hboot := schedInit_boot k
  refine ⟨⟨⟨⟨rfl,.boot,?_,rfl⟩,by simp⟩,rfl,List.mem_cons_self,Or.inl ?_,?_,?_,by simp⟩,fun i _ => ?_⟩
  · rw [Kernel.next, hboot]
  · exact congrArg Task.state hboot
  · intro r hr hne
    exact absurd (List.mem_singleton.mp hr) hne
  · rw [hboot]
    exact TaskState.noConfusion
  · have hslot : (schedInit k).tasks (.slot i) = k.tasks (.slot i) := by simp [schedInit, Kernel.setTask]
    exact hslot.trans (hpool i)

/-- No run gives a task more than a full time slice. -/
theorem run_ok (hpool : ∀ i, k.tasks (.slot i) = Task.zero) {s : Kernel × List (Fin 64)}
    (hrun : Relation.ReflTransGen (Step img) (schedInit k, []) s) :
    SchedOk s.1 s.2 ∧ s.1.sliceRemaining ≤ schedTimeSlice := by
  induction hrun with
  | refl => exact ⟨schedInit_ok hpool,Nat.le_refl _⟩
  | tail _ hstep ih =>
    obtain ⟨op,hop,hexec⟩ := hstep
    obtain ⟨s',hs',hadv⟩ := exec_ok img ih.1 op hop
    rw [hexec, Option.some.injEq] at hs'
    subst hs'
    exact ⟨hadv.ok,Nat.le_trans hadv.slice (Nat.max_le.mpr ⟨ih.2,Nat.le_refl _⟩)⟩

/-- At every point of a run at which a task runs and another is ready, the timer gives each of them its turn in the order of
the ring, and no turn is longer than a time slice. -/
theorem run_turns (hpool : ∀ i, k.tasks (.slot i) = Task.zero) {s : Kernel × List (Fin 64)}
    (hrun : Relation.ReflTransGen (Step img) (schedInit k, []) s) (hstate : (s.1.tasks s.1.current).state = .running)
    (hon : s.1.schedulerOn = true) :
    ∃ l, (s.1.current :: l).Perm (members s.2) ∧ Ring s.1.next s.1.current l ∧ (2 ≤ (turnOrder s.1 l).length →
      ∃ k', Chain (TurnWithin schedTimeSlice) s.1 (turnOrder s.1 l) k' ∧ k'.current = s.1.current) := by
  obtain ⟨h,hslice⟩ := run_ok hpool hrun
  obtain ⟨p,q,hpq⟩ := List.append_of_mem h.current
  have hring := h.ring.rotate hpq
  have hperm : (s.1.current :: (q ++ p)).Perm (members s.2) := by
    rw [hpq, ← List.cons_append]
    exact List.perm_append_comm
  refine ⟨q ++ p,hperm,hring,fun htwo => ?_⟩
  have hothers : ∀ r ∈ q ++ p, (s.1.tasks r).state ≠ .running := by
    intro r hr
    have hne : r ≠ s.1.current := by
      rintro rfl
      exact (List.nodup_cons.mp hring.nodup).1 hr
    rcases h.otherState r (hperm.subset (List.mem_cons_of_mem _ hr)) hne with hs | hs
    · rw [hs]
      exact TaskState.noConfusion
    · rw [hs]
      exact TaskState.noConfusion
  obtain ⟨k',hchain,hcur,-⟩ := turn timed_switching hring hstate hothers hon htwo
  exact ⟨k',hchain.within hslice,hcur⟩

/-- At every point of a run the links from `boot_task` form one cycle through `boot_task`
and the tasks created and not yet reaped; the states are as the scheduler expects them;
every call returns; a dead task stays dead until it is reaped; `pick_next_ready` finds a
task that is not dead, and `alloc_tcb` never returns a slot of the cycle. -/
theorem run_scheduler (img : Image) (k₀ : Kernel) (hpool : ∀ i, k₀.tasks (.slot i) = Task.zero) {k : Kernel}
    {live : List (Fin 64)} (hrun : Relation.ReflTransGen (Step img) (schedInit k₀, []) (k, live)) :
    (Path k.next .boot (members live) .boot ∧ (members live).Nodup) ∧
    k.current ∈ members live ∧
    ((k.tasks k.current).state = .running ∨ (k.tasks k.current).state = .dead) ∧
    (∀ r ∈ members live, r ≠ k.current → (k.tasks r).state = .ready ∨ (k.tasks r).state = .dead) ∧
    (k.tasks .boot).state ≠ .dead ∧
    (∀ op : Op, op.Allowed k → ∃ s', exec img op (k, live) = some s' ∧
      (op ≠ .reap → ∀ i ∈ live, (k.tasks (.slot i)).state = .dead →
        i ∈ s'.2 ∧ (s'.1.tasks (.slot i)).state = .dead) ∧
      (op = .reap → ∀ i ∈ live, i ∈ s'.2 ↔ (k.tasks (.slot i)).state ≠ .dead)) ∧
    (∃ r ∈ members live, pickNextReady k = some r ∧ (k.tasks r).state ≠ .dead) ∧
    ∀ i, allocTcb k = some i → .slot i ∉ members live := by
  have h := (run_ok hpool hrun).1
  refine ⟨⟨h.ring.path,h.ring.nodup⟩,h.current,h.currentState,h.otherState,h.bootAlive,?_,?_,?_⟩
  · intro op hop
    obtain ⟨s',hs',hadv⟩ := exec_ok img h op hop
    exact ⟨s',hs',hadv.dead,hadv.reaped⟩
  · obtain ⟨r,hr,hpick,hrun⟩ := h.pickNextReady_spec
    refine ⟨r,hr,hpick,fun hd => ?_⟩
    cases hrun with
    | inl hs => exact TaskState.noConfusion (hs.symm.trans hd)
    | inr hs => exact TaskState.noConfusion (hs.symm.trans hd)
  · intro i hi hm
    exact h.allocTcb_not_mem hi (slot_mem_members.mp hm)

/-- A machine with an empty pool and every frame but the first free. -/
def idleKernel : Kernel where
  phys := ⟨fun _ => 0,⟨fun i => if i = 0 then 1 else 0,1,[]⟩⟩
  paging := ⟨0,fun _ => 0,0⟩
  tasks := fun _ => Task.zero
  nextTaskId := 0
  current := .boot
  readyHead := none
  schedulerOn := false
  sliceRemaining := 0
  cpu := ⟨0,0,0⟩

def flatImage : Image where
  taskWrapper := 0x100000
  enterUsermode := 0x100010
  sysExit := 0x100020
  sysWrite := 0x100030
  sysRead := 0x100040
  sysYield := 0x100050
  sysGetpid := 0x100060
  sysSleep := 0x100070
  below := by decide

/-- One task created on the idle machine. -/
theorem run_scheduler_created : ∃ k, exec flatImage (.create 0x100000 []) (schedInit idleKernel, []) = some (k, [0]) ∧
    Path k.next .boot [.boot, .slot 0] .boot ∧ ∃ r ∈ members [0], pickNextReady k = some r ∧
      (k.tasks r).state ≠ .dead := by
  have hcall : ∃ k, exec flatImage (.create 0x100000 []) (schedInit idleKernel, []) = some (k, [0]) := ⟨_,rfl⟩
  obtain ⟨k,hk⟩ := hcall
  have h := run_scheduler flatImage idleKernel (fun _ => rfl)
    (Relation.ReflTransGen.single ⟨.create 0x100000 [],trivial,hk⟩)
  exact ⟨k,hk,h.1.1,h.2.2.2.2.2.2.1⟩

end ApPa.Tasks

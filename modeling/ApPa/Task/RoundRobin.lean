import ApPa.Task.Queue
import Mathlib.Data.List.Perm.Basic

/-! # Round robin

Over any ring of control blocks, whatever tasks in it are dead or blocked, successive
switches visit the tasks that may run in the order of the ring and come back to the first
one with every state as it was. A yield makes one switch; so does a run of timer ticks, once
the time slice is used up.
-/
namespace ApPa.Tasks
open Linked

/-- `b` is `a` after a switch to `r`, as far as the queue is concerned. -/
structure Moves (a : Kernel) (r : TaskRef) (b : Kernel) : Prop where
  current : b.current = r
  next : b.next = a.next
  state : ∀ x, (b.tasks x).state = if x = r then .running else if x = a.current then .ready else (a.tasks x).state

theorem switchTo_moves {k : Kernel} {r : TaskRef} (hr : r ≠ k.current) (hrun : (k.tasks k.current).state = .running) :
    Moves k r (switchTo k r) where
  current := Queue.switchTo_current r
  next := Queue.switchTo_next r
  state x := by
    rw [Queue.switchTo_tasks hr]
    by_cases hxr : x = r
    · rw [if_pos hxr, if_pos hxr]
    · rw [if_neg hxr, if_neg hxr]
      by_cases hxc : x = k.current
      · rw [if_pos hxc, if_pos hxc, hxc]
        exact if_pos hrun
      · rw [if_neg hxc, if_neg hxc]

/-- Successive switches by `S`, with the tasks that become current. -/
inductive Chain (S : Kernel → Kernel → Prop) : Kernel → List TaskRef → Kernel → Prop
  | nil (k : Kernel) : Chain S k [] k
  | cons {k k₁ k₂ : Kernel} {rs : List TaskRef} (h : S k k₁) (ht : Chain S k₁ rs k₂) : Chain S k (k₁.current :: rs) k₂

/-- `S` switches to the task that `pick_next_ready` finds, from kernels with `P` to kernels with `P`. -/
def Switching (S : Kernel → Kernel → Prop) (P : Kernel → Prop) : Prop :=
  ∀ k r, P k → pickNextReady k = some r → r ≠ k.current → (k.tasks k.current).state = .running →
    ∃ k', S k k' ∧ P k' ∧ Moves k r k'

/-- Inside a turn that began in `s` with the states `st`: the tasks of `todo` have not run yet,
those of `done` have, and the current one is between them. -/
structure Midway (st : TaskRef → TaskState) (s : TaskRef) (k : Kernel) (todo done : List TaskRef) : Prop where
  ring : Ring k.next k.current (todo ++ s :: done)
  waiting : ∀ x ∈ todo, st x ≠ .running
  current : st k.current = .ready
  state : ∀ x, (k.tasks x).state = if x = k.current then .running else if x = s then .ready else st x

namespace Midway
variable {st : TaskRef → TaskState} {s : TaskRef} {k k' : Kernel} {todo done : List TaskRef}

theorem running (h : Midway st s k todo done) : (k.tasks k.current).state = .running := by rw [h.state, if_pos rfl]

theorem ne_current (h : Midway st s k todo done) : ∀ x ∈ todo ++ s :: done, x ≠ k.current := by
  rintro x hx rfl
  exact (List.nodup_cons.mp h.ring.nodup).1 hx

theorem start_runnable (h : Midway st s k todo done) : Runnable k s :=
  Or.inl (by rw [h.state, if_neg (h.ne_current s (by simp)), if_pos rfl])

theorem runnable_iff (h : Midway st s k todo done) : ∀ x ∈ todo, Runnable k x ↔ st x = .ready := by
  intro x hx
  have hxs : x ≠ s := by
    rintro rfl
    exact (List.nodup_append.mp (List.nodup_cons.mp h.ring.nodup).2).2.2 x hx x (by simp) rfl
  rw [Runnable, h.state, if_neg (h.ne_current x (by simp [hx])), if_neg hxs]
  exact or_iff_left (h.waiting x hx)

theorem move {u v : List TaskRef} {r : TaskRef} (h : Midway st s k (u ++ r :: v) done) (hr : st r = .ready)
    (hmoves : Moves k r k') : Midway st s k' v (done ++ k.current :: u) where
  ring := by
    rw [hmoves.current, hmoves.next]
    have hring : Ring k.next k.current (u ++ r :: (v ++ s :: done)) := by simpa using h.ring
    simpa using hring.rotate (p := k.current :: u) (q := v ++ s :: done) rfl
  waiting x hx := h.waiting x (by simp [hx])
  current := by rw [hmoves.current, hr]
  state x := by
    have hsc : s ≠ k.current := h.ne_current s (by simp)
    rw [hmoves.state, hmoves.current, h.state]
    by_cases hxr : x = r
    · rw [if_pos hxr, if_pos hxr]
    · by_cases hxc : x = k.current
      · rw [if_neg hxr, if_pos hxc, if_neg hxr, hxc, if_neg (Ne.symm hsc), h.current]
      · rw [if_neg hxr, if_neg hxc, if_neg hxc, if_neg hxr]

/-- Back in the task the turn began in, every state is what it was. -/
theorem finish (h : Midway st s k todo done) (hs : st s = .running) (hmoves : Moves k s k') (x : TaskRef) :
    (k'.tasks x).state = st x := by
  rw [hmoves.state, h.state]
  by_cases hxs : x = s
  · rw [if_pos hxs, hxs, hs]
  · by_cases hxc : x = k.current
    · rw [if_neg hxs, if_pos hxc, hxc, h.current]
    · rw [if_neg hxs, if_neg hxc, if_neg hxc, if_neg hxs]

/-- The rest of the turn visits the tasks that wait and may run, then `s`. -/
theorem rest {S : Kernel → Kernel → Prop} {P : Kernel → Prop} (hS : Switching S P) (hs : st s = .running)
    (h : Midway st s k todo done) (hP : P k) {rs : List TaskRef} (hrs : todo.filter (st · = .ready) = rs) :
    ∃ k', Chain S k (rs ++ [s]) k' ∧ k'.current = s ∧ ∀ x, (k'.tasks x).state = st x := by
  induction rs generalizing k todo done with
  | nil =>
    have hnone : ∀ x ∈ todo, ¬Runnable k x := by
      intro x hx
      rw [h.runnable_iff x hx]
      simpa using List.filter_eq_nil_iff.mp hrs x hx
    obtain ⟨k',hstep,_,hmoves⟩ := hS k s hP (pickNextReady_first h.ring hnone h.start_runnable)
      (h.ne_current s (by simp)) h.running
    refine ⟨k',?_,hmoves.current,h.finish hs hmoves⟩
    have hchain := Chain.cons hstep (Chain.nil k')
    rwa [hmoves.current] at hchain
  | cons r rs ih =>
    obtain ⟨u,v,rfl,hu,hr,hv⟩ := List.filter_eq_cons_iff.mp hrs
    have hr : st r = .ready := by simpa using hr
    have hnone : ∀ x ∈ u, ¬Runnable k x := by
      intro x hx
      rw [h.runnable_iff x (by simp [hx])]
      simpa using hu x hx
    have hring : Ring k.next k.current (u ++ r :: (v ++ s :: done)) := by simpa using h.ring
    obtain ⟨k',hstep,hP',hmoves⟩ := hS k r hP (pickNextReady_first hring hnone ((h.runnable_iff r (by simp)).mpr hr))
      (h.ne_current r (by simp)) h.running
    obtain ⟨k'',hchain,hend⟩ := ih (h.move hr hmoves) hP' hv
    refine ⟨k'',?_,hend⟩
    have hcons := Chain.cons hstep hchain
    rwa [hmoves.current] at hcons

end Midway

section
variable {k : Kernel} {l : List TaskRef}

/-- The tasks of a ring that may run, in the order in which they follow the current one, which
comes last. -/
def turnOrder (k : Kernel) (l : List TaskRef) : List TaskRef := l.filter (fun r => (k.tasks r).state = .ready) ++ [k.current]

/-- A turn visits the tasks in order, when there is another one to switch to. -/
theorem turn {S : Kernel → Kernel → Prop} {P : Kernel → Prop} (hS : Switching S P) (hring : Ring k.next k.current l)
    (hrun : (k.tasks k.current).state = .running) (hothers : ∀ r ∈ l, (k.tasks r).state ≠ .running) (hP : P k)
    (htwo : 2 ≤ (turnOrder k l).length) :
    ∃ k', Chain S k (turnOrder k l) k' ∧ k'.current = k.current ∧ ∀ x, (k'.tasks x).state = (k.tasks x).state := by
  cases hrs : l.filter (fun r => (k.tasks r).state = .ready) with
  | nil =>
    rw [turnOrder, hrs] at htwo
    exact absurd htwo (Nat.lt_irrefl 1)
  | cons r rs =>
    obtain ⟨u,v,rfl,hu,hr,hv⟩ := List.filter_eq_cons_iff.mp hrs
    have hr : (k.tasks r).state = .ready := by simpa using hr
    have hnone : ∀ x ∈ u, ¬Runnable k x := by
      intro x hx hx'
      exact hx'.elim (by simpa using hu x hx) (hothers x (by simp [hx]))
    have hrc : r ≠ k.current := by
      rintro rfl
      exact (List.nodup_cons.mp hring.nodup).1 (by simp)
    obtain ⟨k',hstep,hP',hmoves⟩ := hS k r hP (pickNextReady_first hring hnone (Or.inl hr)) hrc hrun
    have hmid : Midway (fun x => (k.tasks x).state) k.current k' v u := by
      refine ⟨?_,fun x hx => hothers x (by simp [hx]),by rw [hmoves.current, hr],fun x => ?_⟩
      · rw [hmoves.current, hmoves.next]
        simpa using hring.rotate (p := k.current :: u) (q := v) rfl
      · rw [hmoves.state, hmoves.current]
    obtain ⟨k'',hchain,hend⟩ := hmid.rest hS hrun hP' hv
    refine ⟨k'',?_,hend⟩
    rw [turnOrder, hrs]
    have hcons := Chain.cons hstep hchain
    rwa [hmoves.current] at hcons

theorem schedYield_switching : Switching (fun a b => schedYield a = some b) fun _ => True := by
  intro k r _ hpick hr hrun
  have hcall : schedYield k = some (switchTo k r) := congrArg (Option.map (switchTo k)) hpick
  exact ⟨switchTo k r,hcall,trivial,switchTo_moves hr hrun⟩

/-! ## Timer ticks -/

def ticks : ℕ → Kernel → Option Kernel
  | 0, k => some k
  | n + 1, k => (schedule k).bind (ticks n)

/-- The current task of `a` runs for at most `n` ticks more; the last of them switches to `b`. -/
def TurnWithin (n : ℕ) (a b : Kernel) : Prop :=
  ∃ t ≤ n, ticks t a = some b ∧ b.current ≠ a.current ∧ ∀ j < t, ∃ c, ticks j a = some c ∧ c.current = a.current

theorem schedule_counts (hon : k.schedulerOn = true) (hslice : 1 < k.sliceRemaining) :
    schedule k = some { k with sliceRemaining := k.sliceRemaining - 1 } := by
  have hpos : 0 < k.sliceRemaining - 1 := by omega
  rw [schedule, hon]
  exact if_pos hpos

theorem schedule_expires (hon : k.schedulerOn = true) (hslice : k.sliceRemaining ≤ 1) :
    schedule k = schedYield { k with sliceRemaining := 0 } := by
  have hzero : k.sliceRemaining - 1 = 0 := by omega
  rw [schedule, hon]
  dsimp only
  rw [hzero]
  rfl

theorem ticks_switch {r : TaskRef} (hon : k.schedulerOn = true) (hpick : pickNextReady k = some r) (hr : r ≠ k.current) :
    TurnWithin (max 1 k.sliceRemaining) k (switchTo { k with sliceRemaining := 0 } r) := by
  have hlast : ∀ {k : Kernel}, k.schedulerOn = true → pickNextReady k = some r → k.sliceRemaining ≤ 1 →
      ticks 1 k = some (switchTo { k with sliceRemaining := 0 } r) := by
    intro k hon hpick hslice
    have hcall : schedYield { k with sliceRemaining := 0 } = some (switchTo { k with sliceRemaining := 0 } r) :=
      congrArg (Option.map (switchTo { k with sliceRemaining := 0 })) hpick
    rw [ticks, schedule_expires hon hslice, hcall]
    rfl
  have hcur : (switchTo { k with sliceRemaining := 0 } r).current ≠ k.current := by
    rw [Queue.switchTo_current]
    exact hr
  induction hn : k.sliceRemaining generalizing k with
  | zero =>
    refine ⟨1,Nat.le_refl 1,hlast hon hpick (by omega),hcur,fun j hj => ⟨k,?_,rfl⟩⟩
    rw [Nat.lt_one_iff.mp hj]
    rfl
  | succ n ih =>
    by_cases hn0 : n = 0
    · refine ⟨1,Nat.le_max_left _ _,hlast hon hpick (by omega),hcur,fun j hj => ⟨k,?_,rfl⟩⟩
      rw [Nat.lt_one_iff.mp hj]
      rfl
    · have hcounts := schedule_counts hon (by omega)
      rw [hn, Nat.add_sub_cancel] at hcounts
      obtain ⟨t,ht,hticks,_,hbefore⟩ := ih (k := { k with sliceRemaining := n }) hon hpick hr hcur rfl
      refine ⟨t + 1,by omega,?_,hcur,fun j hj => ?_⟩
      · rw [ticks, hcounts]
        exact hticks
      · cases j with
        | zero => exact ⟨k,rfl,rfl⟩
        | succ j =>
          obtain ⟨c,hc,hcc⟩ := hbefore j (by omega)
          refine ⟨c,?_,hcc⟩
          rw [ticks, hcounts]
          exact hc

theorem switchTo_slice {r : TaskRef} (hr : r ≠ k.current) : (switchTo k r).sliceRemaining = schedTimeSlice := by
  rw [switchTo, if_neg hr]
  rfl

theorem switchTo_schedulerOn (r : TaskRef) : (switchTo k r).schedulerOn = k.schedulerOn := by
  unfold switchTo Kernel.setState Kernel.setTask
  dsimp only
  split
  · rfl
  · split <;> rfl

/-- A turn driven by the timer: as long as the time slice at its start, and the next one has a
full slice. -/
def Timed (a b : Kernel) : Prop := TurnWithin (max 1 a.sliceRemaining) a b ∧ b.sliceRemaining = schedTimeSlice

theorem timed_switching : Switching Timed fun k => k.schedulerOn = true := by
  intro k r hon hpick hr hrun
  refine ⟨switchTo { k with sliceRemaining := 0 } r,⟨ticks_switch hon hpick hr,switchTo_slice hr⟩,?_,?_⟩
  · exact (switchTo_schedulerOn r).trans hon
  · have hmoves := switchTo_moves (k := { k with sliceRemaining := 0 }) hr hrun
    exact ⟨hmoves.current,hmoves.next,hmoves.state⟩

theorem Chain.within {k k' : Kernel} {rs : List TaskRef} (h : Chain Timed k rs k') (hslice : k.sliceRemaining ≤ schedTimeSlice) :
    Chain (TurnWithin schedTimeSlice) k rs k' := by
  induction h with
  | nil k => exact .nil k
  | cons hturn _ ih =>
    obtain ⟨⟨t,ht,hrest⟩,hfull⟩ := hturn
    exact .cons ⟨t,Nat.le_trans ht (Nat.max_le.mpr ⟨by decide,hslice⟩),hrest⟩ (ih (Nat.le_of_eq hfull))

theorem schedYield_alone (hring : Ring k.next k.current l) (hrun : (k.tasks k.current).state = .running)
    (hnone : ∀ r ∈ l, ¬Runnable k r) : schedYield k = some k := by
  have hfind : l.find? (Runnable k ·) = none := List.find?_eq_none.mpr (by simpa using hnone)
  have hcur : Runnable k k.current := Or.inr hrun
  have hpick : pickNextReady k = some k.current := by
    rw [pickNextReady_ring hring, List.find?_append, hfind]
    simp [hcur]
  rw [schedYield, hpick]
  exact congrArg some (if_pos rfl)

/-- Round robin: as many yields as there are tasks that may run visit each of them once, in the
order of the ring behind the current task, pass over all others, and end where they began with
every state as it was. Driven by the timer, with another task to switch to, the turns come in
the same order and none is longer than a time slice. -/
theorem roundRobin (hring : Ring k.next k.current l) (hrun : (k.tasks k.current).state = .running)
    (hothers : ∀ r ∈ l, (k.tasks r).state ≠ .running) :
    (turnOrder k l).length = ((k.current :: l).filter (Runnable k ·)).length ∧ (turnOrder k l).Nodup ∧
    (∀ r, r ∈ turnOrder k l ↔ r ∈ k.current :: l ∧ Runnable k r) ∧ (turnOrder k l).Sublist (l ++ [k.current]) ∧
    (∃ k', Chain (fun a b => schedYield a = some b) k (turnOrder k l) k' ∧ k'.current = k.current ∧
      ∀ r, (k'.tasks r).state = (k.tasks r).state) ∧
    (2 ≤ (turnOrder k l).length → k.schedulerOn = true →
      ∃ k', Chain Timed k (turnOrder k l) k' ∧
        (k.sliceRemaining ≤ schedTimeSlice → Chain (TurnWithin schedTimeSlice) k (turnOrder k l) k') ∧
        k'.current = k.current ∧ ∀ r, (k'.tasks r).state = (k.tasks r).state) := by
  have hready : l.filter (fun r => (k.tasks r).state = .ready) = l.filter (Runnable k ·) := by
    refine List.filter_congr fun r hr => ?_
    simp [Runnable, hothers r hr]
  have hcur : Runnable k k.current := Or.inr hrun
  have hsub : (turnOrder k l).Sublist (l ++ [k.current]) := List.Sublist.append_right List.filter_sublist _
  refine ⟨?_,?_,?_,hsub,?_,?_⟩
  · rw [turnOrder, hready]
    simp [hcur]
  · exact hsub.nodup (List.nodup_append_comm.mp hring.nodup)
  · intro r
    rw [turnOrder, hready]
    rw [List.mem_append, List.mem_filter, List.mem_singleton, List.mem_cons, decide_eq_true_eq]
    constructor
    · rintro (⟨hr,hr'⟩ | rfl)
      · exact ⟨Or.inr hr,hr'⟩
      · exact ⟨Or.inl rfl,hcur⟩
    · rintro ⟨rfl | hr,hr'⟩
      · exact Or.inr rfl
      · exact Or.inl ⟨hr,hr'⟩
  · by_cases htwo : 2 ≤ (turnOrder k l).length
    · exact turn schedYield_switching hring hrun hothers trivial htwo
    · have hnil : l.filter (fun r => (k.tasks r).state = .ready) = [] := by
        rw [turnOrder, List.length_append, List.length_singleton] at htwo
        exact List.length_eq_zero_iff.mp (by omega)
      have hnone : ∀ r ∈ l, ¬Runnable k r := by
        rw [hready] at hnil
        simpa using hnil
      refine ⟨k,?_,rfl,fun _ => rfl⟩
      rw [turnOrder, hnil]
      exact .cons (schedYield_alone hring hrun hnone) (.nil k)
  · intro htwo hon
    obtain ⟨k',hchain,hend⟩ := turn timed_switching hring hrun hothers hon htwo
    exact ⟨k',hchain,hchain.within,hend⟩

end

/-- `boot_task` runs; behind it come a task that is ready and one that is dead. -/
def threeTasks (ready dead : TaskRef) : Kernel :=
  { phys := ⟨fun _ => 0,⟨fun _ => 0,0,[]⟩⟩
    paging := ⟨0,fun _ => 0,0⟩
    tasks := fun r =>
      if r = .boot then { Task.zero with state := .running, next := some ready }
      else if r = ready then { Task.zero with next := some dead }
      else { Task.zero with state := .dead, next := some .boot }
    nextTaskId := 3
    current := .boot
    readyHead := some .boot
    schedulerOn := true
    sliceRemaining := 4
    cpu := ⟨0,0,0⟩ }

theorem roundRobin_three : turnOrder (threeTasks (.slot 0) (.slot 1)) [.slot 0, .slot 1] = [.slot 0, .boot] ∧
    (∃ k', Chain (fun a b => schedYield a = some b) (threeTasks (.slot 0) (.slot 1)) [.slot 0, .boot] k' ∧ k'.current = .boot) ∧
    ∃ k', Chain (TurnWithin schedTimeSlice) (threeTasks (.slot 0) (.slot 1)) [.slot 0, .boot] k' := by
  have hring : Ring (threeTasks (.slot 0) (.slot 1)).next (threeTasks (.slot 0) (.slot 1)).current [.slot 0, .slot 1] :=
    ⟨⟨rfl,_,rfl,rfl,_,rfl,rfl,_,rfl,rfl⟩,by decide⟩
  obtain ⟨_,_,_,_,⟨k',hchain,hcur,_⟩,hticks⟩ := roundRobin hring rfl (by decide)
  obtain ⟨k'',_,hwithin,_⟩ := hticks (by decide) rfl
  exact ⟨rfl,⟨k',hchain,hcur⟩,k'',hwithin (by decide)⟩

end ApPa.Tasks

import ApPa.Task.Task
import Mathlib.Data.Fintype.Option

/-! # The ready queue is a ring

The invariant of the ready queue, and what each scheduler routine does to it. The queue
holds `boot_task` and the live pool tasks in the order of their creation.
-/
namespace ApPa.Tasks
open Loop Linked Memory

/-- `boot_task` followed by the live pool tasks. -/
def members (live : List (Fin 64)) : List TaskRef := .boot :: live.map .slot

theorem boot_mem (live : List (Fin 64)) : TaskRef.boot ∈ members live := List.mem_cons_self

@[simp] theorem slot_mem_members {live : List (Fin 64)} {i : Fin 64} : .slot i ∈ members live ↔ i ∈ live := by
  simp [members]

def Runnable (k : Kernel) (r : TaskRef) : Prop := (k.tasks r).state = .ready ∨ (k.tasks r).state = .running

instance (k : Kernel) (r : TaskRef) : Decidable (Runnable k r) :=
  inferInstanceAs (Decidable ((k.tasks r).state = .ready ∨ (k.tasks r).state = .running))

theorem TaskRef.length_le {l : List TaskRef} (h : l.Nodup) : l.length ≤ 65 := by
  let code : TaskRef → Option (Fin 64) := fun r => r.casesOn none some
  have hinj : Function.Injective code := by
    intro r s hrs
    cases r <;> cases s <;> simp_all [code]
  have hle := (h.map hinj).length_le_card
  rwa [List.length_map, Fintype.card_option, Fintype.card_fin] at hle

/-- The walk of `pick_next_ready` over the rest of a ring: the first task that may run, or the
current one when there is none. -/
theorem readyLoop_ring {k : Kernel} {start : TaskRef} {l : List TaskRef} (hring : Ring k.next start l) {p q : List TaskRef}
    {t : TaskRef} (hl : start :: l = p ++ t :: q) {fuel : ℕ} (hfuel : q.length < fuel) :
    loop (readyStep k start) fuel t = some (some (((t :: q).find? (Runnable k ·)).getD k.current)) := by
  induction fuel generalizing p t q with
  | zero => exact absurd hfuel (Nat.not_lt_zero _)
  | succ fuel ih =>
    have hpath : Path k.next start (p ++ t :: q) start := hl ▸ hring.path
    rw [loop]
    by_cases ht : Runnable k t
    · have hstep : readyStep k start t = .inr (some t) := if_pos ht
      rw [hstep]
      simp [ht]
    · have hskip : (t :: q).find? (Runnable k ·) = q.find? (Runnable k ·) := by simp [ht]
      rw [hskip]
      cases q with
      | nil =>
        have hstep : readyStep k start t = .inr (some k.current) := by
          refine (if_neg ht).trans ?_
          rw [hpath.next_last]
          exact if_pos rfl
        rw [hstep]
        rfl
      | cons n q =>
        have hstep : readyStep k start t = .inl n := by
          refine (if_neg ht).trans ?_
          rw [hpath.next_eq]
          exact if_neg (hring.ne_head hl)
        rw [hstep]
        exact ih (p := p ++ [t]) (by simp [hl]) (Nat.lt_of_succ_lt_succ hfuel)

theorem pickNextReady_ring {k : Kernel} {l : List TaskRef} (hring : Ring k.next k.current l) :
    pickNextReady k = some (((l ++ [k.current]).find? (Runnable k ·)).getD k.current) := by
  have hfuel : ∀ {t q}, Ring k.next t q → q.length < ringFuel := by
    intro t q hr
    have hlen := TaskRef.length_le hr.nodup
    rw [List.length_cons] at hlen
    simp only [ringFuel, taskMaxTasks]
    omega
  cases l with
  | nil =>
    obtain ⟨_,b,hb,rfl⟩ := hring.path
    rw [pickNextReady, hb]
    dsimp only
    rw [readyLoop_ring (p := []) hring rfl (hfuel hring)]
    rfl
  | cons n l =>
    have hrot : Ring k.next n (l ++ [k.current]) := hring.rotate rfl
    have hnext : k.next k.current = some n := Path.next_eq (l := []) hring.path
    rw [pickNextReady, hnext]
    dsimp only
    rw [readyLoop_ring (p := []) hrot rfl (hfuel hrot)]
    rfl

theorem pickNextReady_first {k : Kernel} {u v : List TaskRef} {r : TaskRef} (hring : Ring k.next k.current (u ++ r :: v))
    (hu : ∀ x ∈ u, ¬Runnable k x) (hr : Runnable k r) : pickNextReady k = some r := by
  have hnone : u.find? (Runnable k ·) = none := List.find?_eq_none.mpr (by simpa using hu)
  rw [pickNextReady_ring hring, List.append_assoc, List.find?_append, hnone]
  simp [hr]

structure Queue (k : Kernel) (live : List (Fin 64)) : Prop where
  ring : Ring k.next .boot (live.map .slot)
  head : k.readyHead = some .boot
  current : k.current ∈ members live
  currentState : (k.tasks k.current).state = .running ∨ (k.tasks k.current).state = .dead
  otherState : ∀ r ∈ members live, r ≠ k.current → (k.tasks r).state = .ready ∨ (k.tasks r).state = .dead
  bootAlive : (k.tasks .boot).state ≠ .dead
  created : ∀ i ∈ live, (k.tasks (.slot i)).kernelStack ≠ 0

namespace Queue
variable {k : Kernel} {live : List (Fin 64)}

theorem length_le (h : Queue k live) : (members live).length ≤ 65 := TaskRef.length_le h.ring.nodup

theorem congr {k' : Kernel} (h : Queue k live) (hcur : k'.current = k.current) (hhead : k'.readyHead = k.readyHead)
    (htasks : ∀ r ∈ members live, k'.tasks r = k.tasks r) : Queue k' live where
  ring := h.ring.congr fun r hr => congrArg Task.next (htasks r hr)
  head := hhead.trans h.head
  current := hcur ▸ h.current
  currentState := by
    rw [hcur, htasks _ h.current]
    exact h.currentState
  otherState r hr hne := by
    rw [htasks r hr]
    exact h.otherState r hr (hcur ▸ hne)
  bootAlive := by
    rw [htasks _ (boot_mem live)]
    exact h.bootAlive
  created i hi := by
    rw [htasks _ (slot_mem_members.mpr hi)]
    exact h.created i hi

theorem boot_runnable (h : Queue k live) : Runnable k .boot := by
  by_cases hb : TaskRef.boot = k.current
  · have hs := h.currentState
    rw [← hb] at hs
    exact Or.inr (hs.resolve_right h.bootAlive)
  · exact Or.inl ((h.otherState _ (boot_mem live) hb).resolve_right h.bootAlive)

theorem path {p q : List TaskRef} (h : Queue k live) (hpq : members live = p ++ q) :
    Path k.next .boot (p ++ q) .boot := hpq ▸ h.ring.path

theorem tail_spec (h : Queue k live) :
    ∃ p t, members live = p ++ [t] ∧ loop (tailStep k .boot) ringFuel .boot = some (some t) := by
  have hlen := h.length_le
  have hwalk : ∃ r, loop (tailStep k .boot) ringFuel .boot = some r ∧
      ∃ p t, members live = p ++ [t] ∧ r = some t := by
    refine loop_list (fun p t q => members live = p ++ t :: q) _ ?_ (p := []) (q := live.map .slot) rfl ?_
    · intro p t q hq
      have hpath := h.path hq
      cases q with
      | nil =>
        refine Or.inr ⟨some t,?_,p,t,hq,rfl⟩
        rw [tailStep, hpath.next_last]
        rfl
      | cons n q =>
        refine Or.inl ⟨n,q,rfl,?_,by simp [hq]⟩
        rw [tailStep, hpath.next_eq]
        exact if_neg (h.ring.ne_head hq)
    · simp only [members, List.length_cons] at hlen
      simp only [ringFuel, taskMaxTasks]
      omega
  obtain ⟨r,hr,p,t,hp,rfl⟩ := hwalk
  exact ⟨p,t,hp,hr⟩

theorem insertAfter_tasks (k : Kernel) {t task : TaskRef} (hne : t ≠ task) (r : TaskRef) :
    (insertAfter k t task).tasks r =
      { k.tasks r with next := Function.update (Function.update k.next task (k.next t)) t (some task) r } := by
  unfold insertAfter Kernel.setNext Kernel.setTask
  by_cases hrt : r = t
  · subst hrt
    simp [Function.update_of_ne hne]
  · by_cases hri : r = task
    · subst hri
      simp [hrt]
    · simp [hrt, hri, Kernel.next]

theorem schedAddTask_spec (h : Queue k live) {i : Fin 64} (hi : i ∉ live) (hready : (k.tasks (.slot i)).state = .ready)
    (hstack : (k.tasks (.slot i)).kernelStack ≠ 0) :
    ∃ t ∈ members live, schedAddTask k (.slot i) = some (insertAfter k t (.slot i)) ∧
      Queue (insertAfter k t (.slot i)) (live ++ [i]) := by
  obtain ⟨p,t,hp,hloop⟩ := h.tail_spec
  have ht : t ∈ members live := by rw [hp]; simp
  have hnot : TaskRef.slot i ∉ members live := fun hm => hi (slot_mem_members.mp hm)
  have hne : t ≠ .slot i := by
    rintro rfl
    exact hnot ht
  refine ⟨t,ht,?_,?_⟩
  · rw [schedAddTask, h.head]
    dsimp only
    rw [hloop]
    rfl
  · have htasks := insertAfter_tasks k hne
    have hnext : (insertAfter k t (.slot i)).next =
        Function.update (Function.update k.next (.slot i) (k.next t)) t (some (.slot i)) := by
      funext r
      rw [Kernel.next, htasks]
    have hmem : ∀ r, r ∈ members (live ++ [i]) ↔ r ∈ members live ∨ r = .slot i := by
      intro r
      simp [members, or_assoc]
    refine ⟨?_,h.head,(hmem _).mpr (Or.inl h.current),?_,?_,?_,?_⟩
    · rw [hnext, List.map_append]
      exact h.ring.insertLast hp hnot
    · rw [htasks]
      exact h.currentState
    · intro r hr hc
      rw [htasks]
      rcases (hmem r).mp hr with hr | rfl
      · exact h.otherState r hr hc
      · exact Or.inl hready
    · rw [htasks]
      exact h.bootAlive
    · intro j hj
      rw [htasks]
      rcases List.mem_append.mp hj with hj | hj
      · exact h.created j hj
      · rw [List.mem_singleton.mp hj]
        exact hstack

theorem pickNextReady_next {r : TaskRef} (hnext : k.next k.current = some r) (hr : Runnable k r) :
    pickNextReady k = some r := by
  have hstep : readyStep k r r = .inr (some r) := if_pos hr
  rw [pickNextReady, hnext]
  dsimp only
  rw [ringFuel, loop, hstep]
  rfl

/-- `pick_next_ready` returns a task that may run, since `boot_task` can. -/
theorem pickNextReady_spec (h : Queue k live) :
    ∃ r ∈ members live, pickNextReady k = some r ∧ Runnable k r := by
  obtain ⟨p,q,hpq⟩ := List.append_of_mem h.current
  have hmem : ∀ r, r ∈ q ++ p ++ [k.current] ↔ r ∈ members live := by
    intro r
    rw [hpq]
    simp only [List.mem_append, List.mem_cons]
    tauto
  rw [pickNextReady_ring (h.ring.rotate hpq)]
  cases hfind : (q ++ p ++ [k.current]).find? (Runnable k ·) with
  | none =>
    have hboot := List.find?_eq_none.mp hfind .boot ((hmem _).mpr (boot_mem live))
    exact absurd h.boot_runnable (by simpa using hboot)
  | some r =>
    have hr := List.find?_some hfind
    exact ⟨r,(hmem r).mp (List.mem_of_find?_eq_some hfind),rfl,by simpa using hr⟩

theorem switchTo_tasks {r : TaskRef} (hr : r ≠ k.current) (x : TaskRef) :
    (switchTo k r).tasks x = if x = r then { k.tasks r with state := .running }
      else if x = k.current then
        { k.tasks x with
          state := if (k.tasks x).state = .running then .ready else (k.tasks x).state
          esp := k.cpu.esp }
      else k.tasks x := by
  unfold switchTo
  rw [if_neg hr]
  unfold Kernel.setState Kernel.setTask
  by_cases hxr : x = r
  · subst hxr
    by_cases hrun : (k.tasks k.current).state = .running
    · simp [hrun, hr]
    · simp [hrun, hr]
  · by_cases hxc : x = k.current
    · subst hxc
      by_cases hrun : (k.tasks k.current).state = .running
      · simp [hrun, hxr]
      · simp [hrun, hxr]
    · by_cases hrun : (k.tasks k.current).state = .running
      · simp [hrun, hxr, hxc]
      · simp [hrun, hxr, hxc]

theorem switchTo_current (r : TaskRef) : (switchTo k r).current = r := by
  unfold switchTo
  by_cases hr : r = k.current
  · rw [if_pos hr, hr]
  · rw [if_neg hr]
    rfl

theorem switchTo_readyHead (r : TaskRef) : (switchTo k r).readyHead = k.readyHead := by
  unfold switchTo Kernel.setState Kernel.setTask
  dsimp only
  split
  · rfl
  · split <;> rfl

theorem switchTo_next (r : TaskRef) : (switchTo k r).next = k.next := by
  by_cases hr : r = k.current
  · rw [switchTo, if_pos hr]
  · funext x
    rw [Kernel.next, switchTo_tasks hr]
    by_cases hxr : x = r
    · rw [if_pos hxr, hxr]
      rfl
    · rw [if_neg hxr]
      by_cases hxc : x = k.current
      · rw [if_pos hxc]
        rfl
      · rw [if_neg hxc]
        rfl

theorem switchTo_spec (h : Queue k live) {r : TaskRef} (hr : r ∈ members live) :
    Queue (switchTo k r) live := by
  by_cases hc : r = k.current
  · have hk : switchTo k r = k := if_pos hc
    rw [hk]
    exact h
  have htasks := switchTo_tasks (k := k) hc
  have hcur := switchTo_current (k := k) r
  refine ⟨h.ring.congr fun x _ => congrFun (switchTo_next r) x,(switchTo_readyHead r).trans h.head,hcur.symm ▸ hr,?_,?_,?_,?_⟩
  · rw [hcur, htasks, if_pos rfl]
    exact Or.inl rfl
  · intro x hx hne
    rw [hcur] at hne
    rw [htasks, if_neg hne]
    by_cases hxc : x = k.current
    · subst hxc
      rw [if_pos rfl]
      rcases h.currentState with hs | hs
      · exact Or.inl (if_pos hs)
      · exact Or.inr (by simp [hs])
    · rw [if_neg hxc]
      exact h.otherState x hx hxc
  · rw [htasks]
    by_cases hb : TaskRef.boot = r
    · rw [if_pos hb]
      exact TaskState.noConfusion
    · rw [if_neg hb]
      by_cases hbc : TaskRef.boot = k.current
      · have hrun : (k.tasks .boot).state = .running := by
          have hs := h.currentState
          rw [← hbc] at hs
          exact hs.resolve_right h.bootAlive
        rw [if_pos hbc]
        simp [hrun]
      · rw [if_neg hbc]
        exact h.bootAlive
  · intro i hi
    rw [htasks]
    by_cases hir : TaskRef.slot i = r
    · rw [if_pos hir, ← hir]
      exact h.created i hi
    · rw [if_neg hir]
      by_cases hic : TaskRef.slot i = k.current
      · rw [if_pos hic]
        exact h.created i hi
      · rw [if_neg hic]
        exact h.created i hi

theorem schedYield_spec (h : Queue k live) :
    ∃ r ∈ members live, Runnable k r ∧ schedYield k = some (switchTo k r) := by
  obtain ⟨r,hr,hpick,hrun⟩ := h.pickNextReady_spec
  exact ⟨r,hr,hrun,by rw [schedYield, hpick]; rfl⟩

theorem pred_spec (h : Queue k live) {i : Fin 64} (hi : i ∈ live) :
    ∃ p prev q, members live = p ++ prev :: .slot i :: q ∧
      loop (predStep k .boot (.slot i)) ringFuel .boot = some (some (some prev)) := by
  have hlen := h.length_le
  have hwalk : ∃ r, loop (predStep k .boot (.slot i)) ringFuel .boot = some r ∧
      ∃ p prev q, members live = p ++ prev :: .slot i :: q ∧ r = some (some prev) := by
    refine loop_list (fun p t q => members live = p ++ t :: q ∧ .slot i ∈ q) _ ?_
      (p := []) (q := live.map .slot) ⟨rfl,List.mem_map_of_mem hi⟩ ?_
    · rintro p t q ⟨hq,hmem⟩
      have hpath := h.path hq
      cases q with
      | nil => cases hmem
      | cons n q =>
        by_cases hn : n = .slot i
        · subst hn
          exact Or.inr ⟨_,by rw [predStep, if_pos hpath.next_eq],p,t,q,hq,rfl⟩
        · refine Or.inl ⟨n,q,rfl,?_,by simp [hq],(List.mem_cons.mp hmem).resolve_left (Ne.symm hn)⟩
          rw [predStep, hpath.next_eq, if_neg (by simpa using hn)]
          exact if_neg (h.ring.ne_head hq)
    · simp only [members, List.length_cons] at hlen
      simp only [ringFuel, taskMaxTasks]
      omega
  obtain ⟨r,hr,p,prev,q,hp,rfl⟩ := hwalk
  exact ⟨p,prev,q,hp,hr⟩

theorem members_filter {i : Fin 64} {p q : List TaskRef} {prev : TaskRef} (h : Queue k live)
    (hp : members live = p ++ prev :: .slot i :: q) :
    members (live.filter (· ≠ i)) = p ++ prev :: q := by
  have hnodup : (p ++ prev :: .slot i :: q).Nodup := hp ▸ h.ring.nodup
  have hfilter : members (live.filter (· ≠ i)) = (members live).filter (· ≠ .slot i) := by
    simp only [members, List.filter_cons, List.filter_map]
    rw [if_pos (by simp)]
    congr 2
    apply List.filter_congr
    intro x _
    simp
  obtain ⟨h1,h2,h3⟩ := List.nodup_append.mp hnodup
  obtain ⟨h4,h5⟩ := List.nodup_cons.mp h2
  obtain ⟨h6,_⟩ := List.nodup_cons.mp h5
  rw [hfilter, hp, List.filter_append, List.filter_cons, List.filter_cons]
  rw [if_pos (by simpa using fun he : prev = .slot i => h4 (by simp [he])), if_neg (by simp)]
  congr 1
  · exact List.filter_eq_self.mpr fun x hx => by simpa using h3 x hx (.slot i) (by simp)
  · congr 1
    refine List.filter_eq_self.mpr fun x hx => ?_
    have : x ≠ .slot i := by
      rintro rfl
      exact h6 hx
    simpa using this

theorem unlinkAfter_tasks (k : Kernel) {prev : TaskRef} {i : Fin 64} (hne : prev ≠ .slot i) (r : TaskRef) :
    (unlinkAfter k prev (.slot i) .boot).tasks r =
      { k.tasks r with
        next := Function.update (Function.update k.next prev (k.next (.slot i))) (.slot i) none r } := by
  unfold unlinkAfter Kernel.setNext Kernel.setTask
  by_cases hri : r = .slot i
  · subst hri
    simp [Ne.symm hne]
  · by_cases hrp : r = prev
    · subst hrp
      simp [hri]
    · simp [hri, hrp, Kernel.next]

/-- Removing a queued pool task takes it out of the ring, even when it is the current one. -/
theorem schedRemoveTask_ring (h : Queue k live) {i : Fin 64} (hi : i ∈ live) :
    ∃ p prev q, members live = p ++ prev :: .slot i :: q ∧ prev ≠ .slot i ∧
      schedRemoveTask k (.slot i) = some (unlinkAfter k prev (.slot i) .boot) ∧
      Ring (unlinkAfter k prev (.slot i) .boot).next .boot ((live.filter (· ≠ i)).map .slot) := by
  obtain ⟨p,prev,q,hp,hloop⟩ := h.pred_spec hi
  have hnodup : (p ++ prev :: .slot i :: q).Nodup := hp ▸ h.ring.nodup
  have hne : prev ≠ .slot i := by
    have h2 := (List.nodup_append.mp hnodup).2.1
    rintro rfl
    exact (List.nodup_cons.mp h2).1 List.mem_cons_self
  have hnext : (unlinkAfter k prev (.slot i) .boot).next =
      Function.update (Function.update k.next prev (k.next (.slot i))) (.slot i) none := by
    funext r
    rw [Kernel.next, unlinkAfter_tasks k hne]
  have hself : k.next (.slot i) ≠ some (.slot i) := by
    intro hs
    cases q with
    | nil =>
      have hpath : Path k.next .boot ((p ++ [prev]) ++ [.slot i]) .boot := by simpa using h.path hp
      rw [hpath.next_last] at hs
      cases hs
    | cons n q =>
      have hpath : Path k.next .boot ((p ++ [prev]) ++ .slot i :: n :: q) .boot := by simpa using h.path hp
      rw [hpath.next_eq, Option.some.injEq] at hs
      subst hs
      have h2 := (List.nodup_cons.mp (List.nodup_append.mp hnodup).2.1).2
      exact (List.nodup_cons.mp h2).1 List.mem_cons_self
  refine ⟨p,prev,q,hp,hne,?_,?_⟩
  · rw [schedRemoveTask, h.head]
    dsimp only
    rw [if_neg (by simp), if_neg hself, hloop]
    rfl
  · have hunlink := h.ring.unlink hp
    rw [← h.members_filter hp] at hunlink
    rw [hnext]
    exact ⟨hunlink.1,hunlink.2⟩

theorem schedRemoveTask_spec (h : Queue k live) {i : Fin 64} (hi : i ∈ live) (hc : .slot i ≠ k.current) :
    ∃ prev, schedRemoveTask k (.slot i) = some (unlinkAfter k prev (.slot i) .boot) ∧
      Queue (unlinkAfter k prev (.slot i) .boot) (live.filter (· ≠ i)) ∧
      prev ∈ members live ∧ prev ≠ .slot i := by
  obtain ⟨p,prev,q,hp,hne,hcall,hring⟩ := h.schedRemoveTask_ring hi
  have htasks := unlinkAfter_tasks k hne
  have hmem : ∀ r, r ∈ members (live.filter (· ≠ i)) → r ∈ members live := by
    intro r hr
    rw [h.members_filter hp] at hr
    rw [hp]
    simp only [List.mem_append, List.mem_cons] at hr ⊢
    tauto
  refine ⟨prev,hcall,⟨hring,h.head,?_,?_,?_,?_,?_⟩,by simp [hp],hne⟩
  · have hcur := h.current
    change k.current ∈ _
    rw [h.members_filter hp]
    rw [hp] at hcur
    simp only [List.mem_append, List.mem_cons] at hcur ⊢
    rcases hcur with hcur | hcur | hcur | hcur
    · exact Or.inl hcur
    · exact Or.inr (Or.inl hcur)
    · exact absurd hcur.symm hc
    · exact Or.inr (Or.inr hcur)
  · rw [htasks]
    exact h.currentState
  · intro r hr hne'
    rw [htasks]
    exact h.otherState r (hmem r hr) hne'
  · rw [htasks]
    exact h.bootAlive
  · intro j hj
    rw [htasks]
    exact h.created j (List.mem_of_mem_filter hj)

end Queue

end ApPa.Tasks

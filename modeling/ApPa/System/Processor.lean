import ApPa.System.Run

/-! # The directory and the kernel stack in use

`switch_to` loads CR3 only when the directories of the two tasks differ, so that CR3 holds
the directory of the current task is a fact about all switches before. The task that runs
keeps its directory and its kernel stack, because only dead tasks that have been switched
away from lose theirs.
-/
namespace ApPa.System
open ByteMem Exec Memory Tasks

variable {img : Image} {k k' : Kernel} {live live' : List (Fin 64)} {L : Frames} {i : Fin 64}

def directoryOf (k : Kernel) (r : TaskRef) : ℕ :=
  if (k.tasks r).cr3 ≠ 0 then (k.tasks r).cr3 else k.paging.pdPhysicalAddress

structure OnCpu (k : Kernel) (live : List (Fin 64)) : Prop where
  cr3 : k.cpu.cr3 = directoryOf k k.current
  tss : (k.tasks k.current).isUser = true → k.cpu.tssEsp0 = (k.tasks k.current).esp0
  dirs : ∀ i ∈ live, (k.tasks (.slot i)).cr3 = (k.tasks (.slot i)).pageDir
  boot : (k.tasks .boot).cr3 = 0 ∧ (k.tasks .boot).kernelStack = 0
  root : k.paging.pdPhysicalAddress = k.paging.kernelDirectory

theorem directoryOf_kept {r : TaskRef} (hpg : k'.paging = k.paging) (hr : (k.tasks r).Kept (k'.tasks r)) :
    directoryOf k' r = directoryOf k r := by
  rw [directoryOf, hr, hpg]
  rfl

namespace OnCpu

/-- Steps that do not switch: the control blocks that stay keep their directories, and a new
one has the directory it names. -/
theorem steady (h : OnCpu k live) (hcur : k.current ∈ members live) (hpg : k'.paging = k.paging) (hcpu : k'.cpu = k.cpu)
    (hsame : k'.current = k.current) (hboot : (k.tasks .boot).Kept (k'.tasks .boot))
    (htasks : ∀ i ∈ live, i ∈ live' ∨ k.current = .slot i → (k.tasks (.slot i)).Kept (k'.tasks (.slot i)))
    (hnew : ∀ i ∈ live', i ∉ live → (k'.tasks (.slot i)).cr3 = (k'.tasks (.slot i)).pageDir) : OnCpu k' live' := by
  have hkept : (k.tasks k.current).Kept (k'.tasks k.current) := by
    cases hr : k.current with
    | boot => exact hboot
    | slot i =>
      rw [hr] at hcur
      exact htasks i (slot_mem_members.mp hcur) (Or.inr hr)
  refine ⟨?_,?_,fun i hi => ?_,?_,?_⟩
  · rw [hcpu, hsame, directoryOf_kept hpg hkept]
    exact h.cr3
  · rw [hcpu, hsame, hkept]
    exact h.tss
  · by_cases hold : i ∈ live
    · rw [htasks i hold (Or.inl hi)]
      exact h.dirs i hold
    · exact hnew i hi hold
  · rw [hboot]
    exact h.boot
  · rw [hpg]
    exact h.root

theorem spawned (h : OnCpu k live) (hs : SchedOk k live) {res : Option (Fin 64)} (hk : SchedOk.Spawned k live res k')
    (hnew : ∀ i ∈ res, (k'.tasks (.slot i)).cr3 = (k'.tasks (.slot i)).pageDir) : OnCpu k' (live ++ res.toList) := by
  refine h.steady hs.current hk.paging hk.cpu hk.current (hk.tasks _ (boot_mem live))
    (fun i hi _ => hk.tasks _ (slot_mem_members.mpr hi)) fun i hi hn => ?_
  rcases List.mem_append.mp hi with hi | hi
  · exact absurd hi hn
  · exact hnew i (Option.mem_toList.mp hi)

theorem kept (h : OnCpu k live) (hs : SchedOk k live) (hk : k.Kept k') (hcpu : k'.cpu = k.cpu)
    (hsame : k'.current = k.current) : OnCpu k' live :=
  h.steady hs.current hk.paging hcpu hsame (hk.tasks _) (fun _ _ _ => hk.tasks _) fun _ hi hn => absurd hi hn

end OnCpu

theorem switchTo_cpu {r : TaskRef} (hr : r ≠ k.current) : (switchTo k r).cpu = ⟨(k.tasks r).esp,
    if directoryOf k r ≠ directoryOf k k.current then directoryOf k r else k.cpu.cr3,(k.tasks r).esp0⟩ := by
  unfold switchTo directoryOf Kernel.setState Kernel.setTask
  rw [if_neg hr]
  by_cases hrun : (k.tasks k.current).state = .running
  · simp [hrun, hr, Ne.symm hr]
  · simp [hrun, Ne.symm hr]

theorem OnCpu.switchTo (h : OnCpu k live) (r : TaskRef) : OnCpu (switchTo k r) live := by
  by_cases hr : r = k.current
  · have hk : Tasks.switchTo k r = k := if_pos hr
    rw [hk]
    exact h
  have hkept := switchTo_kept k r
  refine ⟨?_,?_,fun i hi => ?_,?_,?_⟩
  · rw [switchTo_cpu hr, Queue.switchTo_current, directoryOf_kept hkept.paging (hkept.tasks r)]
    dsimp only
    by_cases hsame : directoryOf k r = directoryOf k k.current
    · rw [if_neg (not_not.mpr hsame), hsame]
      exact h.cr3
    · exact if_pos hsame
  · intro _
    rw [switchTo_cpu hr, Queue.switchTo_current, hkept.tasks r]
  · rw [hkept.tasks (.slot i)]
    exact h.dirs i hi
  · rw [hkept.tasks .boot]
    exact h.boot
  · rw [hkept.paging]
    exact h.root

theorem OnCpu.schedYield (h : OnCpu k live) (hy : schedYield k = some k') : OnCpu k' live := by
  obtain ⟨r,_,rfl⟩ := Option.map_eq_some_iff.mp hy
  exact h.switchTo r

theorem OnCpu.schedule (h : OnCpu k live) (ht : schedule k = some k') : OnCpu k' live := by
  unfold Tasks.schedule at ht
  by_cases hon : k.schedulerOn = true
  · rw [if_neg (by simp [hon])] at ht
    have htick : OnCpu { k with sliceRemaining := k.sliceRemaining - 1 } live := ⟨h.cr3,h.tss,h.dirs,h.boot,h.root⟩
    dsimp only at ht
    by_cases hslice : 0 < k.sliceRemaining - 1
    · rw [if_pos hslice, Option.some.injEq] at ht
      exact ht ▸ htick
    · rw [if_neg hslice] at ht
      exact htick.schedYield ht
  · rw [if_pos (by simpa using hon), Option.some.injEq] at ht
    exact ht ▸ h

theorem OnCpu.scheduling {op : Tasks.Op} {s' : Kernel × List (Fin 64)} (h : OnCpu k live) (hs : SchedOk k live)
    (hop : op.Scheduling) (hexec : Tasks.exec img op (k, live) = some s') : OnCpu s'.1 s'.2 := by
  cases op with
  | create entry name => exact hop.elim
  | createUser entry name => exact hop.elim
  | createUserMapped entryVaddr name dir dirPhys userEsp => exact hop.elim
  | exitMark =>
    cases hexec
    exact h.kept hs (setState_kept k _ _) rfl rfl
  | yield =>
    obtain ⟨k',hy,rfl⟩ := Option.map_eq_some_iff.mp hexec
    exact h.schedYield hy
  | tick =>
    obtain ⟨k',ht,rfl⟩ := Option.map_eq_some_iff.mp hexec
    exact h.schedule ht
  | enable =>
    cases hexec
    exact ⟨h.cr3,h.tss,h.dirs,h.boot,h.root⟩
  | disable =>
    cases hexec
    exact ⟨h.cr3,h.tss,h.dirs,h.boot,h.root⟩
  | reap => exact hop.elim

/-- Every step leaves CR3 and the TSS as the current task needs them. -/
theorem OnCpu.exec {op : Op} {s' : Kernel × List (Fin 64)} (h : OnCpu k live) (hsound : Sound k live)
    (hop : op.Allowed (k, live)) (hexec : exec img op (k, live) = some s') : OnCpu s'.1 s'.2 := by
  obtain ⟨hs,L,hown⟩ := hsound
  obtain ⟨k',live'⟩ := s'
  cases exec_effect hs hown hop hexec with
  | schedules hsched _ => exact h.scheduling hs hsched hexec
  | creates _ hsp hc => exact h.spawned hs hsp hc.directory
  | reaps halive _ _ hreap =>
    refine h.steady hs.current hreap.paging hreap.cpu hreap.current (hreap.others _ (Or.inl hs.bootAlive)).1
      (fun i _ hi => (hreap.others _ (Or.inl ?_)).1) fun i hi hn => absurd (List.mem_filter.mp hi).1 hn
    rcases hi with hi | hi
    · simpa using (List.mem_filter.mp hi).2
    · rwa [← hi]
  | takes count => exact ⟨h.cr3,h.tss,h.dirs,h.boot,h.root⟩
  | runs _ => exact ⟨h.cr3,h.tss,h.dirs,h.boot,h.root⟩

theorem exec_keeps {op : Op} {s' : Kernel × List (Fin 64)} {f : ℕ} {o : Owner} (hs : SchedOk k live) (hown : Owns k live L)
    (hop : op.Allowed (k, live)) (hexec : exec img op (k, live) = some s') (hf : L f = some o)
    (ho : ∀ i s, o = .task (some i) s → k.current = .slot i) : s'.1.phys.pmm.testFrame f = true := by
  obtain ⟨-,-,hfreed⟩ := exec_sound ⟨hs,L,hown⟩ hop hexec
  by_contra hfree
  rw [Bool.not_eq_true] at hfree
  have hused : k.phys.pmm.testFrame f = true := by
    rw [hown.accounts.used, hf]
    rfl
  obtain ⟨i,hi,hgone,hdead,s,hframe⟩ := hfreed f hused hfree
  have hlabel := hown.taskFrame_label hi hframe
  rw [hf, Option.some.injEq] at hlabel
  have hcur := ho i s hlabel
  obtain rfl := (exec_effect hs hown hop hexec).gone hi hgone
  exact hop (hcur ▸ hdead)

theorem schedInit_onCpu {r : Phys × Paging}
    (hcr3 : k.cpu.cr3 = (schedInit { k with phys := r.1, paging := r.2 }).paging.pdPhysicalAddress)
    (hroot : (schedInit { k with phys := r.1, paging := r.2 }).paging.pdPhysicalAddress =
      (schedInit { k with phys := r.1, paging := r.2 }).paging.kernelDirectory) :
    OnCpu (schedInit { k with phys := r.1, paging := r.2 }) [] := by
  have hboot := schedInit_boot { k with phys := r.1, paging := r.2 }
  have hcur : (schedInit { k with phys := r.1, paging := r.2 }).current = .boot := rfl
  refine ⟨?_,?_,fun i hi => absurd hi List.not_mem_nil,?_,hroot⟩
  · rw [directoryOf, hcur, hboot]
    exact hcr3
  · intro hu
    rw [hcur, hboot] at hu
    cases hu
  · rw [hboot]
    exact ⟨rfl,rfl⟩

theorem boot_onCpu (hcr3 : k.cpu.cr3 = (boot k).paging.pdPhysicalAddress) : OnCpu (boot k) [] := by
  obtain ⟨L,hL,_⟩ := boot_booted k
  exact schedInit_onCpu hcr3 hL.root

theorem Reachable.onCpu {k₀ : Kernel} (hstart : k₀.cpu.cr3 = (boot k₀).paging.pdPhysicalAddress)
    (hrun : Reachable img k₀ k live) : OnCpu k live := by
  obtain ⟨hpool,hrun⟩ := hrun
  suffices hall : ∀ s, Relation.ReflTransGen (Step img) (boot k₀, []) s → OnCpu s.1 s.2 from hall _ hrun
  intro s hs
  induction hs with
  | refl => exact boot_onCpu hstart
  | tail hrun' hstep ih =>
    obtain ⟨op,hop,hexec⟩ := hstep
    exact ih.exec (Reachable.sound ⟨hpool,hrun'⟩).1 hop hexec

theorem OnCpu.labels (h : OnCpu k live) (hs : SchedOk k live) (hown : Owns k live L) :
    ∀ f, f = k.cpu.cr3 / pageSize ∨ f = (k.tasks k.current).kernelStack / pageSize →
      ∃ o, L f = some o ∧ ∀ i s, o = .task (some i) s → k.current = .slot i := by
  obtain ⟨kd,hkd,hLkd⟩ := hown.kernel.dir
  have hkernel : L (k.paging.pdPhysicalAddress / pageSize) = some .kernel := by
    rw [h.root, hkd, Nat.mul_div_cancel _ (by decide), hLkd]
  cases hcur : k.current with
  | boot =>
    have hcr3 := h.cr3
    rw [hcur, directoryOf, if_neg (not_not.mpr h.boot.1)] at hcr3
    rintro f (rfl | rfl)
    · exact ⟨.kernel,hcr3 ▸ hkernel,fun _ _ ho => by cases ho⟩
    · refine ⟨.kernel,?_,fun _ _ ho => by cases ho⟩
      rw [h.boot.2, Nat.zero_div]
      exact hown.accounts.zero
  | slot i =>
    have hi : i ∈ live := slot_mem_members.mp (hcur ▸ hs.current)
    have howned := hown.task i hi
    rintro f (rfl | rfl)
    · have hcr3 := h.cr3
      rw [hcur, directoryOf] at hcr3
      by_cases hz : (k.tasks (.slot i)).cr3 = 0
      · rw [if_neg (not_not.mpr hz)] at hcr3
        exact ⟨.kernel,hcr3 ▸ hkernel,fun _ _ ho => by cases ho⟩
      · rw [if_pos hz] at hcr3
        have hdir := h.dirs i hi
        obtain ⟨n,hn,hd⟩ := howned.dir (hdir ▸ hz)
        refine ⟨.task (some i) .dir,?_,fun j s ho => ?_⟩
        · rw [hcr3, hdir, hn, Nat.mul_div_cancel _ (by decide), hd.dir]
        · cases ho
          rfl
    · obtain ⟨f,hf,hL⟩ := howned.stack
      refine ⟨.task (some i) .kstack,?_,fun j s ho => ?_⟩
      · rw [hf, Nat.mul_div_cancel _ (by decide), hL]
      · cases ho
        rfl

/-- From `CR3` holding the kernel's directory on, at every point of a run: CR3 holds the
directory of the current task, the TSS the stack of a current Ring 3 task, and no step frees
the directory in CR3 or the kernel stack of the current task. -/
theorem run_processor {k₀ : Kernel} (hstart : k₀.cpu.cr3 = (boot k₀).paging.pdPhysicalAddress)
    (hrun : Reachable img k₀ k live) :
    k.cpu.cr3 = (if (k.tasks k.current).cr3 ≠ 0 then (k.tasks k.current).cr3 else k.paging.pdPhysicalAddress) ∧
    ((k.tasks k.current).isUser = true → k.cpu.tssEsp0 = (k.tasks k.current).esp0) ∧
    ∀ f, f = k.cpu.cr3 / pageSize ∨ f = (k.tasks k.current).kernelStack / pageSize →
      k.phys.pmm.testFrame f = true ∧ ∀ op : Op, op.Allowed (k, live) → ∀ s', exec img op (k, live) = some s' →
        s'.1.phys.pmm.testFrame f = true := by
  have hcpu := hrun.onCpu hstart
  obtain ⟨hs,L,hown⟩ := hrun.sound.1
  refine ⟨hcpu.cr3,hcpu.tss,fun f hf => ?_⟩
  obtain ⟨o,ho,hcur⟩ := hcpu.labels hs hown f hf
  refine ⟨?_,fun op hop s' hexec => exec_keeps hs hown hop hexec ho hcur⟩
  rw [hown.accounts.used, ho]
  rfl

theorem schedInit_paging (k : Kernel) (r : Phys × Paging) : (schedInit { k with phys := r.1, paging := r.2 }).paging = r.2 := rfl

theorem boot_paging (k : Kernel) : (boot k).paging = (pagingInit k.paging ⟨k.phys.mem,k.phys.pmm.init⟩).2 := schedInit_paging k _

/-- The machine with a directory loaded, as `paging_init` does. -/
def loadCr3 (k : Kernel) (cr3 : ℕ) : Kernel := { k with cpu := { k.cpu with cr3 } }

theorem boot_loadCr3 (k : Kernel) (cr3 : ℕ) : (boot (loadCr3 k cr3)).paging = (boot k).paging := by
  have hphys : (loadCr3 k cr3).phys = k.phys := rfl
  have hpg : (loadCr3 k cr3).paging = k.paging := rfl
  rw [boot_paging, boot_paging, hphys, hpg]

/-- The first Ring 3 task runs on its own directory and kernel stack. -/
theorem run_processor_first : ∃ k₀ k i, k₀.cpu.cr3 = (boot k₀).paging.pdPhysicalAddress ∧
    Reachable flatImage k₀ k [i] ∧ k.current = .slot i ∧
    k.cpu.cr3 = (if (k.tasks k.current).cr3 ≠ 0 then (k.tasks k.current).cr3 else k.paging.pdPhysicalAddress) := by
  obtain ⟨d,hd⟩ : ∃ d, d = (boot idleKernel).paging.pdPhysicalAddress := ⟨_,rfl⟩
  have hpool : ∀ i, (loadCr3 idleKernel d).tasks (.slot i) = Task.zero := fun _ => rfl
  have hstart : (loadCr3 idleKernel d).cpu.cr3 = (boot (loadCr3 idleKernel d)).paging.pdPhysicalAddress := by
    rw [boot_loadCr3, ← hd]
    rfl
  have hentry : 0x100000 < 0x400000 := by decide
  obtain ⟨k,i,hrun,hcur,_⟩ := first_user_runs flatImage hpool hentry []
  exact ⟨_,k,i,hstart,hrun,hcur,(run_processor hstart hrun).1⟩

end ApPa.System

import ApPa.Exec.FileBounds
import ApPa.System.Run

/-! # Frames come back

A task that ends and is reaped gives back the frames that can be found from its control
block. Whether these are all the frames that were taken for it depends on how its pages
were mapped: a page mapped twice, or one whose table cannot be had, loses a frame.
-/
namespace ApPa.System
open ByteMem Exec Memory Tasks

variable {img : Image} {k k' k₂ k₃ : Kernel} {live : List (Fin 64)} {L : Frames} {i : Fin 64}

/-! ## Until the reaper is called -/

def QuietStep (img : Image) (s s' : Kernel × List (Fin 64)) : Prop :=
  ∃ op : Op, op.Quiet ∧ op.Allowed s ∧ exec img op s = some s'

theorem taskFrame_running (h : Owns k live L) {m : Mem} (hm : ∀ x, HoldsEntries k live (x / pageSize) → m x = k.phys.mem x)
    (hi : i ∈ live) : taskFrame { k with phys := ⟨m,k.phys.pmm⟩ } i = taskFrame k i := by
  funext s
  by_cases hs : s = .kstack
  · rw [hs]
    rfl
  rw [taskFrame_of_ne hs, taskFrame_of_ne hs]
  dsimp only
  by_cases hd : (k.tasks (.slot i)).pageDir = 0
  · rw [if_pos hd, if_pos hd]
  · obtain ⟨n,hn,_⟩ := (h.task i hi).dir hd
    rw [if_neg hd, if_neg hd, hn]
    refine congrFun (dirFrame_congr fun x s hs hx => hm x (Or.inr (Or.inr ⟨i,hi,s,hs,?_⟩))) s
    exact Owns.taskFrame_dir hn hd hx

structure Quiet (s s' : Kernel × List (Fin 64)) : Prop where
  sound : Sound s'.1 s'.2
  live : s'.2 = s.2
  pmm : s'.1.phys.pmm = s.1.phys.pmm
  frames : ∀ i ∈ s.2, taskFrame s'.1 i = taskFrame s.1 i

theorem quietStep_quiet {s s' : Kernel × List (Fin 64)} (h : Sound s.1 s.2) (hstep : QuietStep img s s') : Quiet s s' := by
  obtain ⟨k,live⟩ := s
  obtain ⟨k',live'⟩ := s'
  obtain ⟨op,hq,hop,hexec⟩ := hstep
  obtain ⟨hsound,-⟩ := exec_sound h hop hexec
  obtain ⟨hs,L,hown⟩ := h
  cases exec_effect hs hown hop hexec with
  | schedules _ hkept =>
    have hphys := hkept.kept.phys
    exact ⟨hsound,rfl,congrArg Phys.pmm hphys,fun i _ => taskFrame_kept (congrArg Phys.mem hphys) (hkept.kept.tasks _)⟩
  | runs hm => exact ⟨hsound,rfl,rfl,fun i hi => taskFrame_running hown hm hi⟩
  | creates hnew => exact (hnew hq).elim
  | reaps => exact hq.elim
  | takes => exact hq.elim

theorem quietRun_quiet {s s' : Kernel × List (Fin 64)} (h : Sound s.1 s.2)
    (hrun : Relation.ReflTransGen (QuietStep img) s s') : Quiet s s' := by
  induction hrun with
  | refl => exact ⟨h,rfl,rfl,fun _ _ => rfl⟩
  | tail _ hstep ih =>
    have hlast := quietStep_quiet ih.sound hstep
    refine ⟨hlast.sound,hlast.live.trans ih.live,hlast.pmm.trans ih.pmm,fun i hi => ?_⟩
    rw [hlast.frames i (ih.live ▸ hi), ih.frames i hi]

/-- From `k'` on, task `i` runs and ends, and is then the only dead task. -/
structure EndsAlone (img : Image) (k' : Kernel) (live : List (Fin 64)) (i : Fin 64) (k₂ : Kernel) : Prop where
  run : Relation.ReflTransGen (QuietStep img) (k', live) (k₂, live)
  dead : (k₂.tasks (.slot i)).state = .dead
  others : ∀ j ∈ live, j ≠ i → (k₂.tasks (.slot j)).state ≠ .dead
  current : (k₂.tasks k₂.current).state ≠ .dead

/-- The frames in use in `k'` and not in `k` are those of task `i`. -/
def NewFrames (k k' : Kernel) (i : Fin 64) : Prop :=
  ∀ f, k'.phys.pmm.testFrame f = true ∧ k.phys.pmm.testFrame f = false ↔ ∃ s, taskFrame k' i s = some f

/-- When all that was taken can be found from the control block, it comes back. -/
theorem NewFrames.restored {live' : List (Fin 64)} (hnew : NewFrames k k' i) (hk : Accounts L k.phys.pmm)
    (hk' : Sound k' live') (hi : i ∈ live')
    (hkeep : ∀ f, k.phys.pmm.testFrame f = true → k'.phys.pmm.testFrame f = true) (hend : EndsAlone img k' live' i k₂)
    (hreap : taskReap k₂ = some k₃) :
    k₃.phys.pmm.bitmap = k.phys.pmm.bitmap ∧ k₃.phys.pmm.usedFrames = k.phys.pmm.usedFrames := by
  have hquiet := quietRun_quiet hk' hend.run
  obtain ⟨L₂,hown₂⟩ := hquiet.sound.owns
  obtain ⟨⟨L₃,hown₃,_⟩,_,hframes,_⟩ := taskReap_frames hquiet.sound.sched hown₂ hend.current hreap
  refine hk.same hown₃.accounts fun f => ?_
  rw [Bool.eq_iff_iff, hframes, hquiet.pmm]
  constructor
  · rintro ⟨hf,hnot⟩
    by_contra hold
    rw [Bool.not_eq_true] at hold
    obtain ⟨s,hs⟩ := (hnew f).mp ⟨hf,hold⟩
    rw [← hquiet.frames i hi] at hs
    exact hnot i hi hend.dead s hs
  · intro hf
    refine ⟨hkeep f hf,fun j hj hdead s hs => ?_⟩
    obtain rfl : j = i := by
      by_contra hne
      exact hend.others j hj hne hdead
    rw [hquiet.frames j hj] at hs
    have hnone := ((hnew f).mpr ⟨s,hs⟩).2
    rw [hf] at hnone
    cases hnone

/-- When everything came back, all that was taken could be found from the control block. -/
theorem NewFrames.of_restored {live' : List (Fin 64)} (hk' : Sound k' live') (hi : i ∈ live')
    (hend : EndsAlone img k' live' i k₂) (hreap : taskReap k₂ = some k₃)
    (hmap : k₃.phys.pmm.bitmap = k.phys.pmm.bitmap) : NewFrames k k' i := by
  have hquiet := quietRun_quiet hk' hend.run
  obtain ⟨L',hown'⟩ := hk'.owns
  obtain ⟨L₂,hown₂⟩ := hquiet.sound.owns
  obtain ⟨_,_,hframes,_⟩ := taskReap_frames hquiet.sound.sched hown₂ hend.current hreap
  have hsame : ∀ f, k.phys.pmm.testFrame f = k₃.phys.pmm.testFrame f := by
    intro f
    rw [Pmm.testFrame, Pmm.testFrame, hmap]
  intro f
  rw [hsame, Bool.eq_false_iff, Ne, hframes, hquiet.pmm]
  constructor
  · rintro ⟨hf,hnot⟩
    by_contra hnone
    refine hnot ⟨hf,fun j hj hdead s hs => hnone ⟨s,?_⟩⟩
    obtain rfl : j = i := by
      by_contra hne
      exact hend.others j hj hne hdead
    rw [← hquiet.frames j hj, hs]
  · rintro ⟨s,hs⟩
    refine ⟨?_,fun hstill => hstill.2 i hi hend.dead s ?_⟩
    · rw [hown'.accounts.used, hown'.taskFrame_label hi hs]
      rfl
    · rw [hquiet.frames i hi, hs]

theorem sole_task_ends (img : Image) (h : Sound k [i]) (hcur : k.current = .boot)
    (hready : (k.tasks (.slot i)).state = .ready) : ∃ k₂ k₃, EndsAlone img k [i] i k₂ ∧ taskReap k₂ = some k₃ := by
  have hnext : k.next k.current = some (.slot i) := by
    rw [hcur]
    exact Linked.Path.next_eq (l := []) h.sched.ring.path
  have hrun : QuietStep img (k, [i]) (switchTo k (.slot i), [i]) := by
    refine ⟨.task .yield,trivial,trivial,?_⟩
    rw [exec, Tasks.exec, schedYield, Queue.pickNextReady_next hnext (Or.inl hready)]
    rfl
  have hthere : (switchTo k (.slot i)).current = .slot i := Queue.switchTo_current _
  -- the state in the middle of `task_exit`
  obtain ⟨k₁,hk₁,hcur₁,hdead⟩ : ∃ k₁, QuietStep img (switchTo k (.slot i), [i]) (k₁, [i]) ∧ k₁.current = .slot i ∧
      (k₁.tasks (.slot i)).state = .dead := by
    refine ⟨markDead (switchTo k (.slot i)),⟨.task .exitMark,trivial,?_,rfl⟩,hthere,?_⟩
    · change (switchTo k (.slot i)).current ≠ .boot
      rw [hthere]
      exact TaskRef.noConfusion
    · rw [markDead, hthere]
      simp [Kernel.setState, Kernel.setTask]
  have hends : Relation.ReflTransGen (QuietStep img) (k, [i]) (k₁, [i]) := .tail (.single hrun) hk₁
  have hsound := (quietRun_quiet h hends).sound
  have hback : k₁.next k₁.current = some .boot := by
    rw [hcur₁]
    exact Linked.Path.next_last (l := [.boot]) hsound.sched.ring.path
  have hne : TaskRef.boot ≠ k₁.current := by
    rw [hcur₁]
    exact TaskRef.noConfusion
  have hyield : QuietStep img (k₁, [i]) (switchTo k₁ .boot, [i]) := by
    refine ⟨.task .yield,trivial,trivial,?_⟩
    rw [exec, Tasks.exec, schedYield, Queue.pickNextReady_next hback hsound.sched.boot_runnable]
    rfl
  have hend : EndsAlone img k [i] i (switchTo k₁ .boot) := by
    refine ⟨.tail hends hyield,?_,?_,?_⟩
    · rw [Queue.switchTo_tasks hne, hcur₁]
      simp [hdead]
    · intro j hj hji
      exact absurd (List.mem_singleton.mp hj) hji
    · rw [Queue.switchTo_current, Queue.switchTo_tasks hne]
      simp
  obtain ⟨k₃,hr,_⟩ := (quietRun_quiet h hend.run).sound.sched.taskReap_reaping hend.current
  exact ⟨_,k₃,hend,hr⟩

/-! ## Starting a task -/

theorem newFrames_iff {L' : Frames} (hacc : Accounts L k.phys.pmm) (hacc' : Accounts L' k'.phys.pmm)
    (hext : Ledger.Extends (fun o => ∃ s, o = .task (some i) s) L L') (hnot : ∀ f s, L f ≠ some (.task (some i) s))
    (hlabel : ∀ s f, taskFrame k' i s = some f → L' f = some (.task (some i) s)) :
    NewFrames k k' i ↔ ∀ f s, L' f = some (.task (some i) s) → taskFrame k' i s = some f := by
  have hnew : ∀ f, k'.phys.pmm.testFrame f = true ∧ k.phys.pmm.testFrame f = false ↔
      ∃ s, L' f = some (.task (some i) s) := by
    intro f
    rw [hacc'.used, hacc.used]
    constructor
    · rintro ⟨hf',hf⟩
      obtain ⟨o,ho⟩ := Option.isSome_iff_exists.mp hf'
      rcases hext.fresh f o ho with hold | ⟨_,s,rfl⟩
      · rw [hold] at hf
        cases hf
      · exact ⟨s,ho⟩
    · rintro ⟨s,hs⟩
      rcases hext.fresh f _ hs with hold | ⟨hfree,_⟩
      · exact absurd hold (hnot f s)
      · rw [hs, hfree]
        exact ⟨rfl,rfl⟩
  constructor
  · intro h f s hf
    obtain ⟨s',hs'⟩ := (h f).mp ((hnew f).mpr ⟨s,hf⟩)
    have he := hlabel s' f hs'
    rw [hf] at he
    cases he
    exact hs'
  · intro h f
    rw [hnew f]
    exact ⟨fun ⟨s,hs⟩ => ⟨s,h f s hs⟩,fun ⟨s,hs⟩ => ⟨s,hlabel s f hs⟩⟩

section
variable {k₁ : Kernel} {L' : Frames} {frame : List ℕ} (h : Owns k live L) (hi : i ∉ live) (hp : Prepared k L i k₁ L')
  (hl : Launched k k₁ i frame k') (hlen : frame.length ≤ 1024)

include h hi hp hl hlen in
theorem launched_newFrames_iff (hclosed : KernelClosed k.paging k₁.phys.mem) :
    NewFrames k k' i ↔ ∀ f s, L' f = some (.task (some i) s) → taskFrame k' i s = some f := by
  have hown := h.launched hi hp hl hlen hclosed
  exact newFrames_iff h.accounts hown.accounts hp.grows.ledger (h.untagged hi)
    fun s f hf => hown.taskFrame_label (by simp) hf

include hp hl hlen in
theorem launched_taskFrame {n : ℕ} (hdir : (k₁.tasks (.slot i)).pageDir = n * pageSize) (hn : n ≠ 0)
    (hd : DirOwned L' (some i) k₁.phys.mem n) {s : Slot} (hs : s ≠ .kstack) :
    taskFrame k' i s = dirFrame k₁.phys.mem (n * pageSize) s := by
  have hself := hl.self
  have hnz : n * pageSize ≠ 0 := Nat.mul_ne_zero hn (by decide)
  rw [taskFrame_of_ne hs, hself]
  dsimp only
  rw [hdir, if_neg hnz]
  refine congrFun (hd.dirFrame_congr fun x s' hx hmaps => hl.mem hp hlen ?_) s
  rw [hx]
  intro he
  cases he
  exact hmaps

end

/-! ## Loading a program -/

section
variable {f : File} {size n t g : ℕ} {L₂ L₃ : Frames} {p₂ p₃ : Phys} {k₁ : Kernel}

/-- A load that is given up restores the frames exactly when it has lost none. -/
theorem loaded_freed_iff {pg : Paging} {p : Phys} (h : Loaded pg f size L p n t L₂ p₂ L₃ p₃) (hacc : Accounts L p.pmm)
    (hnot : ∀ g s, L g ≠ some (.task none s)) :
    (∀ x, (pagingFreeDirectory p₃ (n * pageSize)).pmm.testFrame x = p.pmm.testFrame x) ↔ Exact L₃ p₃.mem n := by
  have hfreed := pagingFreeDirectory_testFrame h.grows.accounts h.fills.owned
  constructor
  · intro hsame x s hx
    have hfree : p.pmm.testFrame x = false := by
      rcases h.grows.ledger.fresh _ _ hx with hold | ⟨hfree,_⟩
      · exact absurd hold (hnot _ _)
      · rw [hacc.used, hfree]
        rfl
    rw [← hsame x, Bool.eq_false_iff, Ne, hfreed x, h.grows.accounts.used, hx] at hfree
    push Not at hfree
    obtain ⟨s',hs'⟩ := hfree rfl
    have hlabel := h.fills.owned.owned s' x hs'
    rw [hx] at hlabel
    cases hlabel
    exact hs'
  · intro hex x
    rw [Bool.eq_iff_iff, hfreed x]
    constructor
    · rintro ⟨hused,hgone⟩
      rw [h.grows.accounts.used] at hused
      obtain ⟨o,ho⟩ := Option.isSome_iff_exists.mp hused
      rcases h.grows.ledger.fresh x o ho with hold | ⟨_,s,rfl⟩
      · rw [hacc.used, hold]
        rfl
      · exact absurd (hex x s ho) (hgone s)
    · intro hx
      rw [hacc.used] at hx
      obtain ⟨o,ho⟩ := Option.isSome_iff_exists.mp hx
      have ho₃ := h.grows.ledger.keeps x o ho
      refine ⟨by rw [h.grows.accounts.used, ho₃]; rfl,fun s hs => ?_⟩
      rw [h.fills.owned.owned s x hs] at ho₃
      cases ho₃
      exact hnot x s ho

theorem elfReady_label (h : ElfReady f size k L i g n t L₂ p₂ L₃ p₃ k₁) (hfree : ∀ f s, L f ≠ some (.task (some i) s))
    {x : ℕ} {s : Slot} : stackLedger (L₃.relabel (reassign none (.task (some i)))) i g x = some (.task (some i) s) ↔
      x = g ∧ s = .kstack ∨ L₃ x = some (.task none s) := by
  constructor
  · intro hx
    rcases stackLedger_cases hx with ⟨rfl,he⟩ | hx
    · exact Or.inl ⟨rfl,(Owner.task.inj he).2⟩
    · obtain ⟨o,ho,he⟩ := Option.map_eq_some_iff.mp hx
      rcases h.loaded.grows.ledger.fresh x o ho with hold | ⟨_,s',rfl⟩
      · cases o with
        | task tag s' =>
          cases tag with
          | none =>
            rw [reassign_self, Owner.task.injEq] at he
            exact Or.inr (he.2 ▸ ho)
          | some j =>
            rw [reassign_of_ne (by simp)] at he
            exact absurd (he ▸ hold) (hfree x s)
        | kernel => cases he
        | kernelTable => cases he
        | lost => cases he
      · rw [reassign_self, Owner.task.injEq] at he
        exact Or.inr (he.2 ▸ ho)
  · rintro (⟨rfl,rfl⟩ | hx)
    · exact Function.update_self ..
    · rw [stackLedger, Function.update_of_ne (Ledger.ne_of_free hx h.ready.free), Ledger.relabel, hx, Option.map_some,
        reassign_self]

theorem elfReady_newFrames_iff {frame : List ℕ} (hown : Owns k live L) (hi : i ∉ live)
    (h : ElfReady f size k L i g n t L₂ p₂ L₃ p₃ k₁) (hl : Launched k k₁ i frame k') (hlen : frame.length ≤ 1024) :
    NewFrames k k' i ↔ Exact L₃ p₃.mem n := by
  have hp := h.prepared hown.unattached
  have hmem : k₁.phys.mem = p₃.mem := by rw [h.ready.phys]
  have hclosed : KernelClosed k.paging k₁.phys.mem := by
    rw [hmem]
    exact h.loaded.grows.kernelClosed not_false hown.kernel hown.closed
  have hn := Nat.ne_of_gt h.loaded.cloned.nonzero
  have hd : DirOwned (stackLedger (L₃.relabel (reassign none (.task (some i)))) i g) (some i) k₁.phys.mem n := by
    obtain ⟨n',hn',hd⟩ := hp.dir (by rw [h.ready.pageDir]; exact Nat.mul_ne_zero hn (by decide))
    rw [h.ready.pageDir] at hn'
    rwa [Nat.eq_of_mul_eq_mul_right (by decide) hn']
  have hframe := fun s hs => launched_taskFrame hp hl hlen h.ready.pageDir hn hd (s := s) hs
  rw [launched_newFrames_iff hown hi hp hl hlen hclosed]
  constructor
  · intro hall x s hx
    have hs : s ≠ .kstack := by
      rintro rfl
      have hst := hall x .kstack ((elfReady_label h (hown.untagged hi)).mpr (Or.inr hx))
      have hg := hall g .kstack ((elfReady_label h (hown.untagged hi)).mpr (Or.inl ⟨rfl,rfl⟩))
      rw [hst, Option.some.injEq] at hg
      rw [hg, h.ready.free] at hx
      cases hx
    rw [← hmem, ← hframe s hs]
    exact hall x s ((elfReady_label h (hown.untagged hi)).mpr (Or.inr hx))
  · intro hex x s hx
    rcases (elfReady_label h (hown.untagged hi)).mp hx with ⟨rfl,rfl⟩ | hx
    · rw [taskFrame, hl.self]
      dsimp only
      rw [h.ready.kernelStack, Nat.mul_div_cancel _ (by decide)]
    · have hdir := hex x s hx
      have hs : s ≠ .kstack := by
        rintro rfl
        cases hdir
      rw [hframe s hs, hmem, hdir]

end

theorem noLeak_zero (vs : List ℕ) : NoLeak 0 [] vs := by
  cases vs with
  | nil => trivial
  | cons v vs => exact fun hlt => absurd hlt (Nat.not_lt_zero _)

/-- No frame is lost over the pages that the file asks for, with the frames that are free. -/
def Conserving (k : Kernel) (f : File) (size : ℕ) : Prop :=
  NoLeak (totalFrames - k.phys.pmm.usedFrames.toNat - 2) [] (wantedPages f size)

section
variable {f : File} {size : ℕ} {name : List UInt8} {argv : Option (ℕ → Arg)} {argc : ℤ}
  (hs : SchedOk k live) (h : Owns k live L)
include hs h

theorem elfLoadInternal_null_iff (hcall : elfLoadInternal img k f size name argv argc = some (none, k')) :
    (k'.phys.pmm.bitmap = k.phys.pmm.bitmap ∧ k'.phys.pmm.usedFrames = k.phys.pmm.usedFrames) ↔
      (elfValidate (some f) size = 0 → Conserving k f size) := by
  obtain ⟨L',hacc'⟩ := (elfLoadInternal_creation hs h hcall).accounted h
  rcases elfLoadInternal_cases hs h.accounts h.kernel h.unattached hcall with
    ⟨_,rfl,hbad⟩ | ⟨hv,⟨_,_,hg,hfew⟩ | ⟨_,_,_,n,t,L₂,p₂,L₃,p₃,hload,hphys⟩ | ⟨i,_,_,_,_,_,_,_,_,_,_,hres,_⟩⟩
  · exact ⟨fun _ hv => absurd hv hbad,fun _ => ⟨rfl,rfl⟩⟩
  · have hnone : totalFrames - k.phys.pmm.usedFrames.toNat - 2 = 0 := by omega
    refine ⟨fun _ _ => ?_,fun _ => h.accounts.determines (hg fun _ => False).accounts fun _ => rfl⟩
    rw [Conserving, hnone]
    exact noLeak_zero _
  · rw [Conserving, ← hload.exact, ← loaded_freed_iff hload h.accounts h.unattached, ← hphys]
    constructor
    · intro hsame _ x
      rw [Pmm.testFrame, Pmm.testFrame, hsame.1]
    · exact fun hsame => h.accounts.same hacc'.owns.accounts (hsame hv)
  · cases hres

theorem elfLoadInternal_task_iff (hcall : elfLoadInternal img k f size name argv argc = some (some i, k')) :
    elfValidate (some f) size = 0 ∧ (NewFrames k k' i ↔ Conserving k f size) ∧
      (∀ x, k.phys.pmm.testFrame x = true → k'.phys.pmm.testFrame x = true) ∧
      k'.current = k.current ∧ (k'.tasks (.slot i)).state = .ready := by
  obtain ⟨L',hacc'⟩ := (elfLoadInternal_creation hs h hcall).accounted h
  rcases elfLoadInternal_cases hs h.accounts h.kernel h.unattached hcall with
    ⟨hnone,_⟩ | ⟨hv,⟨hnone,_⟩ | ⟨hnone,_⟩ | ⟨j,g,n,t,L₂,p₂,L₃,p₃,k₁,esp,hj,hres,hready,hl⟩⟩
  · cases hnone
  · cases hnone
  · cases hnone
  · cases hres
    refine ⟨hv,?_,fun x => hacc'.keeps fun _ => List.mem_append_left _,hl.current,hl.ready⟩
    rw [elfReady_newFrames_iff h hj hready hl (by simp [userFrame]), hready.loaded.exact, Conserving]

end

/-- A call of `elf_exec_mem` that returns `NULL` leaves the frame map as it was, and one that
returns a task takes the frames of that task only, all of which come back when it has ended
and is reaped, exactly when the file is refused or no frame is lost over its pages. -/
theorem elfExecMem_conserves_iff {k₀ : Kernel} (hrun : Reachable img k₀ k live) (buf : Option File) (size : ℕ)
    (taskName : Option (List UInt8)) (argv : Option (ℕ → Arg)) (argc : ℤ) {res : Option (Fin 64)}
    (hcall : elfExecMem img k buf size taskName argv argc = some (res, k')) :
    ((res = none → k'.phys.pmm.bitmap = k.phys.pmm.bitmap ∧ k'.phys.pmm.usedFrames = k.phys.pmm.usedFrames) ∧
      ∀ i, res = some i → NewFrames k k' i ∧ ∀ k₂ k₃, EndsAlone img k' (live ++ [i]) i k₂ → taskReap k₂ = some k₃ →
        k₃.phys.pmm.bitmap = k.phys.pmm.bitmap ∧ k₃.phys.pmm.usedFrames = k.phys.pmm.usedFrames) ↔
    ∀ f, buf = some f → taskName ≠ none → elfValidate (some f) size = 0 → Conserving k f size := by
  obtain ⟨hsound,_⟩ := hrun.sound
  obtain ⟨L,hown⟩ := hsound.owns
  have hexec : exec img (.elfExecMem buf size taskName argv argc) (k, live) = some (k', live ++ res.toList) := by
    rw [exec, hcall]
    rfl
  have hallow : Op.Allowed (k, live) (.elfExecMem buf size taskName argv argc) := trivial
  obtain ⟨hsound',-⟩ := exec_sound hsound hallow hexec
  unfold elfExecMem at hcall
  split at hcall
  · rename_i f name
    have hrhs : (∀ f', some f = some f' → some name ≠ none → elfValidate (some f') size = 0 → Conserving k f' size) ↔
        (elfValidate (some f) size = 0 → Conserving k f size) := by simp
    rw [hrhs]
    split at hcall
    · rename_i hz
      cases hcall
      refine ⟨fun _ hv => ?_,fun _ => ⟨fun _ => ⟨rfl,rfl⟩,fun i hi => by cases hi⟩⟩
      rw [hz] at hv
      cases hv
    · cases res with
      | none =>
        rw [← elfLoadInternal_null_iff hsound.sched hown hcall]
        exact ⟨fun hall => hall.1 rfl,fun hsame => ⟨fun _ => hsame,fun i hi => by cases hi⟩⟩
      | some i =>
        obtain ⟨hv,hnew,hkeep,_⟩ := elfLoadInternal_task_iff hsound.sched hown hcall
        constructor
        · exact fun hall _ => hnew.mp (hall.2 i rfl).1
        · refine fun hcons => ⟨fun hnone => absurd hnone (by simp),fun j hj => ?_⟩
          cases hj
          refine ⟨hnew.mpr (hcons hv),fun k₂ k₃ hend hreap => ?_⟩
          exact (hnew.mpr (hcons hv)).restored hown.accounts hsound' (by simp) hkeep hend hreap
  · rename_i hargs
    cases hcall
    refine ⟨fun _ f hf hname => ?_,fun _ => ⟨fun _ => ⟨rfl,rfl⟩,fun i hi => by cases hi⟩⟩
    obtain ⟨name,hname⟩ := Option.ne_none_iff_exists'.mp hname
    exact absurd hname (hargs f name hf)

/-- One page and the stack. -/
theorem elfExecMem_conserves_tiny : ∃ i k', elfExecMem flatImage (boot idleKernel) (some tinyElf) 84 (some []) none 0 =
    some (some i, k') ∧ NewFrames (boot idleKernel) k' i := by
  have hpool : ∀ i, idleKernel.tasks (.slot i) = Task.zero := fun _ => rfl
  obtain ⟨i,k',hcall⟩ := boot_exec flatImage hpool tinyElf 84 (by decide +kernel) (by decide +kernel)
    (by decide +kernel) [] none 0 fun _ _ => Option.some_ne_none _
  have hcons : Conserving (boot idleKernel) tinyElf 84 := by
    rw [Conserving, boot_used]
    decide +kernel
  have h := elfExecMem_conserves_iff ⟨hpool,.refl⟩ (some tinyElf) 84 (some []) none 0 hcall
  refine ⟨i,k',hcall,((h.mpr ?_).2 i rfl).1⟩
  rintro f hf _ _
  cases hf
  exact hcons

/-- Two segments that share a page. -/
def overlapElf : File := elfFile 0x1000054 52 2 [⟨ptLoad,0,0x1000000,84,84,5⟩, ⟨ptLoad,0,0x1000000,84,84,5⟩]

/-- The first frame of the shared page stays in use after the task has been reaped. -/
theorem elfExecMem_loses_overlap : ∃ i k' k₂ k₃,
    elfExecMem flatImage (boot idleKernel) (some overlapElf) 116 (some []) none 0 = some (some i, k') ∧
    EndsAlone flatImage k' [i] i k₂ ∧ taskReap k₂ = some k₃ ∧
    k₃.phys.pmm.bitmap ≠ (boot idleKernel).phys.pmm.bitmap := by
  have hpool : ∀ i, idleKernel.tasks (.slot i) = Task.zero := fun _ => rfl
  have hsound := (boot_sound hpool).1
  obtain ⟨L,hown⟩ := hsound.owns
  obtain ⟨i,k',hcall⟩ := boot_exec flatImage hpool overlapElf 116 (by decide +kernel) (by decide +kernel)
    (by decide +kernel) [] none 0 fun _ _ => Option.some_ne_none _
  have hexec : exec flatImage (.elfExecMem (some overlapElf) 116 (some []) none 0) (boot idleKernel, []) = some (k', [i]) := by
    rw [exec, hcall]
    rfl
  have hallow : Op.Allowed (boot idleKernel, []) (.elfExecMem (some overlapElf) 116 (some []) none 0) := trivial
  obtain ⟨hsound',-⟩ := exec_sound hsound hallow hexec
  have hload := hcall
  rw [elfExecMem, if_neg (by decide)] at hload
  obtain ⟨_,hnew,_,hcur,hready⟩ := elfLoadInternal_task_iff hsound.sched hown hload
  have hboot : k'.current = .boot := hcur.trans hsound.sched.current_boot
  obtain ⟨k₂,k₃,hend,hr⟩ := sole_task_ends flatImage hsound' hboot hready
  refine ⟨i,k',k₂,k₃,hcall,hend,hr,fun hmap => ?_⟩
  have hcons := hnew.mp (NewFrames.of_restored hsound' (List.mem_singleton.mpr rfl) hend hr hmap)
  revert hcons
  rw [Conserving, boot_used]
  decide +kernel

end ApPa.System

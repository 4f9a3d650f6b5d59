import ApPa.System.Conservation

/-! # The frames over the lives of tasks

Tasks are created, run, end and are reaped. As long as no creation finds exactly four free
frames, every frame in use was in use before the first creation or is held by a live task;
with four, the frame of the user stack is taken and there is none for its page table.
-/
namespace ApPa.System
open ByteMem Memory Tasks

variable {img : Image} {k k' k₁ : Kernel} {live : List (Fin 64)} {L : Frames} {i : Fin 64} {entry : ℕ}
  {name : List UInt8} {res : Option (Fin 64)}

/-! ## Creations -/

theorem taskCreate_frames (hs : SchedOk k live) (h : Owns k live L) (hcall : taskCreate img k entry name = some (res, k')) :
    (res = none → ∀ f, k'.phys.pmm.testFrame f = k.phys.pmm.testFrame f) ∧ ∀ i ∈ res, NewFrames k k' i := by
  rcases taskCreate_cases hs h.accounts hcall with ⟨rfl,_,hphys,_⟩ | ⟨i,k₁,f,hi,rfl,hready,hp,hl⟩
  · exact ⟨fun _ _ => by rw [hphys],fun i hi => by cases hi⟩
  refine ⟨fun hnone => absurd hnone (Option.some_ne_none i),fun j hj => ?_⟩
  cases hj
  have hclosed : KernelClosed k.paging k₁.phys.mem := by
    rw [hready.phys]
    exact h.closed
  refine (launched_newFrames_iff h hi hp hl (by simp [kernelFrame]) hclosed).mpr fun g s hg => ?_
  rcases stackLedger_cases hg with ⟨rfl,he⟩ | hold
  · rw [(Owner.task.inj he).2, taskFrame, hl.self]
    dsimp only
    rw [hready.kernelStack, Nat.mul_div_cancel _ (by decide)]
  · exact absurd hold (h.untagged hi g s)

/-- A task of the kernel image loses a frame exactly when it takes the last four. -/
theorem taskCreateUser_frames (hs : SchedOk k live) (h : Owns k live L) (hentry : entry < 0x400000)
    (hcall : taskCreateUser img k entry name = some (res, k')) :
    (res = none → ∀ f, k'.phys.pmm.testFrame f = k.phys.pmm.testFrame f) ∧
      ∀ i ∈ res, (NewFrames k k' i ↔ k.phys.pmm.usedFrames.toNat + 4 ≠ totalFrames) := by
  rcases taskCreateUser_cases hs h.accounts h.kernel (fun i hi => h.untagged hi) hentry hcall with
    ⟨rfl,_,_,_,hsame,_⟩ | ⟨i,k₁,L₁,n,hi,rfl,hready,hl⟩
  · exact ⟨fun _ => hsame,fun i hi => by cases hi⟩
  refine ⟨fun hnone => absurd hnone (Option.some_ne_none i),fun j hj => ?_⟩
  cases hj
  have hlen : (userFrame img userStackTop entry).length ≤ 1024 := by simp [userFrame]
  have hp := hready.toPrepared
  have hn : n ≠ 0 := Nat.ne_of_gt (hp.grows.accounts.pos hready.space.owned.dir)
  have hframe := fun s hs => launched_taskFrame hp hl hlen hready.pageDir hn hready.space.owned (s := s) hs
  have hroom := hready.room
  have hfive : k.phys.pmm.usedFrames.toNat + 4 ≠ totalFrames ↔ k.phys.pmm.usedFrames.toNat + 5 ≤ totalFrames := by omega
  rw [launched_newFrames_iff h hi hp hl hlen (hready.closed h.closed), hfive, ← hready.whole]
  constructor
  · intro hall f s hs hf
    rw [← hframe s hs]
    exact hall f s hf
  · intro hwhole f s hf
    by_cases hs : s = .kstack
    · subst hs
      rw [taskFrame, hl.self]
      dsimp only
      rw [hready.stackOnly f hf, Nat.mul_div_cancel _ (by decide)]
    · rw [hframe s hs]
      exact hwhole f s hs hf

/-! ## Runs -/

/-- The calls that make up the lives of tasks. -/
def Op.Life : Op → Prop
  | .task (.createUserMapped ..) => False
  | .task _ => True
  | .running _ => True
  | _ => False

/-- `task_create_user` is not called with exactly four free frames. -/
def Op.Roomy (s : Kernel × List (Fin 64)) : Op → Prop
  | .task (.createUser ..) => s.1.phys.pmm.usedFrames.toNat + 4 ≠ totalFrames
  | _ => True

def LifeStep (img : Image) (s s' : Kernel × List (Fin 64)) : Prop :=
  ∃ op : Op, op.Life ∧ op.Allowed s ∧ exec img op s = some s'

def RoomyStep (img : Image) (s s' : Kernel × List (Fin 64)) : Prop :=
  ∃ op : Op, op.Life ∧ op.Roomy s ∧ op.Allowed s ∧ exec img op s = some s'

/-- The frames in use are those of `base` and, apart from these, those of the live tasks. -/
structure Balanced (base : Pmm) (k : Kernel) (live : List (Fin 64)) : Prop where
  frames : ∀ f, k.phys.pmm.testFrame f = true ↔ base.testFrame f = true ∨ ∃ i ∈ live, ∃ s, taskFrame k i s = some f
  fresh : ∀ i ∈ live, ∀ s f, taskFrame k i s = some f → base.testFrame f = false

namespace Balanced
variable {base : Pmm}

theorem unchanged (h : Balanced base k live) (hsame : ∀ f, k'.phys.pmm.testFrame f = k.phys.pmm.testFrame f)
    (hframes : ∀ j ∈ live, taskFrame k' j = taskFrame k j) : Balanced base k' live := by
  refine ⟨fun f => ?_,fun j hj s f hf => h.fresh j hj s f (hframes j hj ▸ hf)⟩
  rw [hsame, h.frames]
  refine or_congr_right (exists_congr fun j => and_congr_right fun hj => ?_)
  rw [hframes j hj]

theorem created (h : Balanced base k live) (hnew : NewFrames k k' i)
    (hkeep : ∀ f, k.phys.pmm.testFrame f = true → k'.phys.pmm.testFrame f = true)
    (hframes : ∀ j ∈ live, taskFrame k' j = taskFrame k j) : Balanced base k' (live ++ [i]) := by
  refine ⟨fun f => ?_,fun j hj s f hf => ?_⟩
  · constructor
    · intro hf
      by_cases hold : k.phys.pmm.testFrame f = true
      · rcases (h.frames f).mp hold with hb | ⟨j,hj,s,hs⟩
        · exact Or.inl hb
        · exact Or.inr ⟨j,List.mem_append_left _ hj,s,by rw [hframes j hj, hs]⟩
      · exact Or.inr ⟨i,by simp,(hnew f).mp ⟨hf,by simpa using hold⟩⟩
    · rintro (hb | ⟨j,hj,s,hs⟩)
      · exact hkeep f ((h.frames f).mpr (Or.inl hb))
      · rcases List.mem_append.mp hj with hj | hj
        · exact hkeep f ((h.frames f).mpr (Or.inr ⟨j,hj,s,by rw [← hframes j hj, hs]⟩))
        · rw [List.mem_singleton] at hj
          exact ((hnew f).mpr ⟨s,hj ▸ hs⟩).1
  · rcases List.mem_append.mp hj with hj | hj
    · exact h.fresh j hj s f (hframes j hj ▸ hf)
    · rw [List.mem_singleton] at hj
      have hfree := ((hnew f).mpr ⟨s,hj ▸ hf⟩).2
      by_contra hb
      rw [(h.frames f).mpr (Or.inl (by simpa using hb))] at hfree
      cases hfree

theorem creation (h : Balanced base k live) (hown : Owns k live L) (hc : Creation k live L res k')
    (hsame : res = none → ∀ f, k'.phys.pmm.testFrame f = k.phys.pmm.testFrame f) (hnew : ∀ i ∈ res, NewFrames k k' i) :
    Balanced base k' (live ++ res.toList) := by
  obtain ⟨L',hacc⟩ := hc.accounted hown
  cases res with
  | none => simpa using h.unchanged (hsame rfl) fun j hj => hown.creation_others hc hj
  | some i =>
    exact h.created (hnew i rfl) (fun f => hacc.keeps fun _ => List.mem_append_left _) fun j hj => hown.creation_others hc hj

theorem reaped (h : Balanced base k live) (hown : Owns k live L)
    (hframes : ∀ f, k'.phys.pmm.testFrame f = true ↔ k.phys.pmm.testFrame f = true ∧
      ∀ i ∈ live, (k.tasks (.slot i)).state = .dead → ∀ s, taskFrame k i s ≠ some f)
    (hsame : ∀ j ∈ survivors k live, taskFrame k' j = taskFrame k j) : Balanced base k' (survivors k live) := by
  have hlive : ∀ j ∈ survivors k live, j ∈ live ∧ (k.tasks (.slot j)).state ≠ .dead := by
    intro j hj
    simpa [survivors] using hj
  refine ⟨fun f => ?_,fun j hj s f hf => h.fresh j (hlive j hj).1 s f (hsame j hj ▸ hf)⟩
  rw [hframes f, h.frames f]
  constructor
  · rintro ⟨hb | ⟨j,hj,s,hs⟩,hnot⟩
    · exact Or.inl hb
    · have hsurv : j ∈ survivors k live := by
        have hne : (k.tasks (.slot j)).state ≠ .dead := fun hd => hnot j hj hd s hs
        simpa [survivors] using ⟨hj,hne⟩
      exact Or.inr ⟨j,hsurv,s,by rw [hsame j hsurv, hs]⟩
  · rintro (hb | ⟨j,hj,s,hs⟩)
    · refine ⟨Or.inl hb,fun i hi _ s hs => ?_⟩
      rw [h.fresh i hi s f hs] at hb
      cases hb
    · obtain ⟨hjl,hjd⟩ := hlive j hj
      rw [hsame j hj] at hs
      refine ⟨Or.inr ⟨j,hjl,s,hs⟩,fun i hi hd s' hs' => ?_⟩
      have hlabel := (hown.taskFrame_label hjl hs).symm.trans (hown.taskFrame_label hi hs')
      cases hlabel
      exact hjd hd

end Balanced

theorem roomyStep_balanced {base : Pmm} {s s' : Kernel × List (Fin 64)} (h : Sound s.1 s.2) (hb : Balanced base s.1 s.2)
    (hstep : RoomyStep img s s') : Sound s'.1 s'.2 ∧ Balanced base s'.1 s'.2 := by
  obtain ⟨k,live⟩ := s
  obtain ⟨op,hlife,hroomy,hop,hexec⟩ := hstep
  refine ⟨(exec_sound h hop hexec).1,?_⟩
  obtain ⟨L,hown⟩ := h.owns
  have hquiet : op.Quiet → Balanced base s'.1 s'.2 := by
    intro hq
    have hkeeps := quietStep_quiet h ⟨op,hq,hop,hexec⟩
    rw [hkeeps.live]
    exact hb.unchanged (fun f => by rw [hkeeps.pmm]) hkeeps.frames
  cases op with
  | task op =>
    cases op with
    | create entry name =>
      obtain ⟨⟨res,k'⟩,hc,rfl⟩ := Option.map_eq_some_iff.mp hexec
      obtain ⟨hsame,hnew⟩ := taskCreate_frames h.sched hown hc
      exact hb.creation hown (taskCreate_creation h.sched hown hc) hsame hnew
    | createUser entry name =>
      obtain ⟨⟨res,k'⟩,hc,rfl⟩ := Option.map_eq_some_iff.mp hexec
      obtain ⟨hsame,hnew⟩ := taskCreateUser_frames h.sched hown hop hc
      exact hb.creation hown (taskCreateUser_creation h.sched hown hop hc) hsame fun i hi => (hnew i hi).mpr hroomy
    | createUserMapped entryVaddr name dir dirPhys userEsp => exact hlife.elim
    | exitMark => exact hquiet trivial
    | yield => exact hquiet trivial
    | tick => exact hquiet trivial
    | enable => exact hquiet trivial
    | disable => exact hquiet trivial
    | reap =>
      obtain ⟨k',hr,rfl⟩ := Option.map_eq_some_iff.mp hexec
      obtain ⟨_,_,hframes,hsame⟩ := taskReap_frames h.sched hown hop hr
      exact hb.reaped hown hframes hsame
  | elfExecMem buf size taskName argv argc => exact hlife.elim
  | allocPages count => exact hlife.elim
  | running m => exact hquiet trivial

theorem roomyRun_balanced {base : Pmm} {s s' : Kernel × List (Fin 64)} (h : Sound s.1 s.2) (hb : Balanced base s.1 s.2)
    (hrun : Relation.ReflTransGen (RoomyStep img) s s') : Sound s'.1 s'.2 ∧ Balanced base s'.1 s'.2 := by
  induction hrun with
  | refl => exact ⟨h,hb⟩
  | tail _ hstep ih => exact roomyStep_balanced ih.1 ih.2 hstep

theorem balanced_start (k : Kernel) : Balanced k.phys.pmm k [] := ⟨fun f => by simp,fun i hi => by cases hi⟩

/-- From a state without pool tasks on, over every run in which `task_create_user` is not
called with exactly four free frames: a creation that returns `NULL` leaves the frame map as
it was, and when every created task has been reaped, the frame map and the counter are as
they were at the start and every control block is free. -/
theorem lifecycle_conserves {k₀ : Kernel} (hstart : Reachable img k₀ k [])
    (hrun : Relation.ReflTransGen (RoomyStep img) (k, []) (k', live)) :
    (∀ entry name k'', taskCreate img k' entry name = some (none, k'') →
      k''.phys.pmm.bitmap = k'.phys.pmm.bitmap ∧ k''.phys.pmm.usedFrames = k'.phys.pmm.usedFrames) ∧
    (∀ entry name k'', entry < 0x400000 → taskCreateUser img k' entry name = some (none, k'') →
      k''.phys.pmm.bitmap = k'.phys.pmm.bitmap ∧ k''.phys.pmm.usedFrames = k'.phys.pmm.usedFrames) ∧
    (live = [] → k'.phys.pmm.bitmap = k.phys.pmm.bitmap ∧ k'.phys.pmm.usedFrames = k.phys.pmm.usedFrames ∧
      ∀ i, slotFree k' i ∧ k'.tasks (.slot i) = Task.zero) := by
  obtain ⟨hsound,_⟩ := hstart.sound
  obtain ⟨⟨hsched,L',hown'⟩,hb⟩ := roomyRun_balanced hsound (balanced_start k) hrun
  obtain ⟨L,hown⟩ := hsound.owns
  refine ⟨fun entry name k'' hc => ?_,fun entry name k'' hentry hc => ?_,?_⟩
  · obtain ⟨L'',hacc⟩ := (taskCreate_creation hsched hown' hc).accounted hown'
    exact hown'.accounts.same hacc.owns.accounts ((taskCreate_frames hsched hown' hc).1 rfl)
  · obtain ⟨L'',hacc⟩ := (taskCreateUser_creation hsched hown' hentry hc).accounted hown'
    exact hown'.accounts.same hacc.owns.accounts ((taskCreateUser_frames hsched hown' hentry hc).1 rfl)
  · rintro rfl
    obtain ⟨hmap,hused⟩ := hown.accounts.same hown'.accounts fun f => by
      rw [Bool.eq_iff_iff, hb.frames]
      simp
    refine ⟨hmap,hused,fun i => ?_⟩
    have hzero := hsched.free i List.not_mem_nil
    rw [slotFree, hzero]
    exact ⟨⟨rfl,rfl⟩,rfl⟩

theorem QuietStep.roomy {s s' : Kernel × List (Fin 64)} (h : QuietStep img s s') : RoomyStep img s s' := by
  obtain ⟨op,hq,hop,hexec⟩ := h
  refine ⟨op,?_,?_,hop,hexec⟩
  · cases op with
    | task op =>
      cases op with
      | createUserMapped entryVaddr name dir dirPhys userEsp => exact hq
      | _ => trivial
    | running m => trivial
    | elfExecMem buf size taskName argv argc => exact hq
    | allocPages count => exact hq
  · cases op with
    | task op =>
      cases op with
      | createUser entry name => exact hq.elim
      | _ => trivial
    | _ => trivial

theorem RoomyStep.life {s s' : Kernel × List (Fin 64)} (h : RoomyStep img s s') : LifeStep img s s' := by
  obtain ⟨op,hlife,_,hop,hexec⟩ := h
  exact ⟨op,hlife,hop,hexec⟩

theorem sole_task_reaped (img : Image) (h : Sound k []) (hroom : k.phys.pmm.usedFrames.toNat + 4 ≤ totalFrames)
    (hentry : entry < 0x400000) (name : List UInt8) : ∃ i k₁ k₂ k₃, taskCreateUser img k entry name = some (some i, k₁) ∧
      Sound k₁ [i] ∧ EndsAlone img k₁ [i] i k₂ ∧ taskReap k₂ = some k₃ ∧
      Relation.ReflTransGen (RoomyStep img) (k₁, [i]) (k₃, []) := by
  obtain ⟨i,k₁,-,hc,hcur,hready⟩ := createUser_starts img h (by decide) hroom hentry name
  have hexec : exec img (.task (.createUser entry name)) (k, []) = some (k₁, [i]) := by
    rw [exec, Tasks.exec, hc]
    rfl
  have hallow : Op.Allowed (k, []) (.task (.createUser entry name)) := hentry
  obtain ⟨hsound,-⟩ := exec_sound h hallow hexec
  obtain ⟨k₂,k₃,hend,hr⟩ := sole_task_ends img hsound (hcur.trans h.sched.current_boot) hready
  refine ⟨i,k₁,k₂,k₃,hc,hsound,hend,hr,?_⟩
  have hreap : RoomyStep img (k₂, [i]) (k₃, []) := by
    refine ⟨.task .reap,trivial,trivial,hend.current,?_⟩
    rw [exec, Tasks.exec, hr, survivors, List.filter_cons_of_neg (by simp [hend.dead])]
    rfl
  exact .tail (Relation.ReflTransGen.mono (fun _ _ => QuietStep.roomy) _ _ hend.run) hreap

/-- One Ring 3 task after boot, from its creation to the reaper. -/
theorem lifecycle_conserves_sole : ∃ i k₁ k₂, RoomyStep flatImage (boot idleKernel, []) (k₁, [i]) ∧
    Relation.ReflTransGen (RoomyStep flatImage) (k₁, [i]) (k₂, []) ∧
    k₂.phys.pmm.bitmap = (boot idleKernel).phys.pmm.bitmap ∧ ∀ i, slotFree k₂ i := by
  have hpool : ∀ i, idleKernel.tasks (.slot i) = Task.zero := fun _ => rfl
  have hentry : 0x100000 < 0x400000 := by decide
  obtain ⟨i,k₁,_,k₃,hc,_,_,_,hrun⟩ := sole_task_reaped flatImage (boot_sound hpool).1 (by rw [boot_used]; decide) hentry []
  have hcreate : RoomyStep flatImage (boot idleKernel, []) (k₁, [i]) := by
    refine ⟨.task (.createUser 0x100000 []),trivial,?_,hentry,?_⟩
    · rw [Op.Roomy, boot_used]
      decide
    · rw [exec, Tasks.exec, hc]
      rfl
  obtain ⟨hmap,_,hfree⟩ := (lifecycle_conserves ⟨hpool,.refl⟩ (.head hcreate hrun)).2.2 rfl
  exact ⟨i,k₁,k₃,hcreate,hrun,hmap,fun i => (hfree i).1⟩

theorem reachable_used {n : ℕ} (hn : 774 + n ≤ totalFrames) :
    ∃ k, Reachable flatImage idleKernel k [] ∧ k.phys.pmm.usedFrames.toNat = 774 + n := by
  induction n with
  | zero => exact ⟨boot idleKernel,⟨fun _ => rfl,.refl⟩,boot_used _⟩
  | succ n ih =>
    obtain ⟨k,hk,hused⟩ := ih (by omega)
    obtain ⟨L,hown⟩ := hk.sound.1.owns
    refine ⟨_,⟨hk.1,hk.2.tail ⟨.allocPages 1,trivial,rfl⟩⟩,?_⟩
    rw [← Nat.add_assoc, ← hused]
    exact hown.accounts.allocPages_one_used (by omega)

/-- With four free frames, the frame taken for the user stack is never given back. -/
theorem lifecycle_loses_frame : ∃ k k', Reachable flatImage idleKernel k [] ∧ k.phys.pmm.usedFrames.toNat = 4092 ∧
    Relation.ReflTransGen (LifeStep flatImage) (k, []) (k', []) ∧ k'.phys.pmm.bitmap ≠ k.phys.pmm.bitmap := by
  obtain ⟨k,hk,hused⟩ := reachable_used (n := 3318) (by decide)
  have hsound := hk.sound.1
  obtain ⟨L,hown⟩ := hsound.owns
  have hentry : 0x100000 < 0x400000 := by decide
  obtain ⟨i,k₁,k₂,k₃,hc,hs₁,hend,hr,hrun⟩ := sole_task_reaped flatImage hsound (by rw [hused]; decide) hentry []
  have hcreate : LifeStep flatImage (k, []) (k₁, [i]) := by
    refine ⟨.task (.createUser 0x100000 []),trivial,hentry,?_⟩
    rw [exec, Tasks.exec, hc]
    rfl
  refine ⟨k,k₃,hk,hused,.head hcreate (Relation.ReflTransGen.mono (fun _ _ => RoomyStep.life) _ _ hrun),fun hmap => ?_⟩
  have hnew := NewFrames.of_restored hs₁ (List.mem_singleton.mpr rfl) hend hr hmap
  refine ((taskCreateUser_frames hsound.sched hown hentry hc).2 i rfl).mp hnew ?_
  rw [hused]
  rfl

end ApPa.System

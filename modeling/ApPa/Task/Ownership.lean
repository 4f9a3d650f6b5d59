import ApPa.Memory.Boot
import ApPa.Task.Creation

/-! # Frames of the live tasks

The invariant that ties the ledger of frames to the task pool, and the proof that creating
and reaping tasks keep it, also when they fail part-way.
-/
namespace ApPa.Tasks
open ByteMem Memory Word32

def taskFrame (k : Kernel) (i : Fin 64) : Slot → Option ℕ
  | .kstack => some ((k.tasks (.slot i)).kernelStack / pageSize)
  | s => if (k.tasks (.slot i)).pageDir = 0 then none else dirFrame k.phys.mem (k.tasks (.slot i)).pageDir s

theorem taskFrame_of_ne {k : Kernel} {i : Fin 64} {s : Slot} (hs : s ≠ .kstack) : taskFrame k i s =
    if (k.tasks (.slot i)).pageDir = 0 then none else dirFrame k.phys.mem (k.tasks (.slot i)).pageDir s := by
  cases s with
  | kstack => exact absurd rfl hs
  | dir => rfl
  | pt0 => rfl
  | table j => rfl
  | page j l => rfl

/-- What the ledger says about a task. -/
structure TaskOwned (L : Frames) (m : Mem) (i : Fin 64) (t : Task) : Prop where
  stack : ∃ f, t.kernelStack = f * pageSize ∧ L f = some (.task (some i) .kstack)
  dir : t.pageDir ≠ 0 → ∃ n, t.pageDir = n * pageSize ∧ DirOwned L (some i) m n
  userStack : t.pageDir = 0 → t.userStack = 0

theorem TaskOwned.kept {L : Frames} {m : Mem} {i : Fin 64} {t t' : Task} (h : TaskOwned L m i t) (hk : t.Kept t') :
    TaskOwned L m i t' := by
  rw [hk]
  exact ⟨h.stack,h.dir,h.userStack⟩

theorem TaskOwned.congr {L L' : Frames} {m m' : Mem} {i : Fin 64} {t : Task} (h : TaskOwned L m i t)
    (hL : ∀ f s, L f = some (.task (some i) s) → L' f = some (.task (some i) s))
    (hm : ∀ x s, L (x / pageSize) = some (.task (some i) s) → s.Maps → m' x = m x) : TaskOwned L' m' i t := by
  refine ⟨?_,fun hd => ?_,h.userStack⟩
  · obtain ⟨f,hf,hLf⟩ := h.stack
    exact ⟨f,hf,hL f _ hLf⟩
  · obtain ⟨n,hn,hown⟩ := h.dir hd
    exact ⟨n,hn,hown.congr hL hm⟩

/-- The ledger accounts for every frame in use: the kernel's, those of the live tasks, and
frames that nobody refers to any more. -/
structure Owns (k : Kernel) (live : List (Fin 64)) (L : Frames) : Prop where
  accounts : Accounts L k.phys.pmm
  kernel : KernelMap k.paging k.phys.mem L
  reserved : ∀ f, Reserved f → L f = some .kernel
  task : ∀ i ∈ live, TaskOwned L k.phys.mem i (k.tasks (.slot i))
  tags : ∀ f tag s, L f = some (.task tag s) → ∃ i ∈ live, tag = some i
  closed : KernelClosed k.paging k.phys.mem

namespace Owns
variable {k k' : Kernel} {live live' : List (Fin 64)} {L L' : Frames}

theorem kept (h : Owns k live L) (hk : k.Kept k') : Owns k' live L := by
  refine ⟨hk.phys ▸ h.accounts,?_,h.reserved,fun i hi => ?_,h.tags,?_⟩
  · rw [hk.paging, hk.phys]
    exact h.kernel
  · rw [hk.phys]
    exact (h.task i hi).kept (hk.tasks _)
  · rw [hk.paging, hk.phys]
    exact h.closed

theorem untagged (h : Owns k live L) {i : Fin 64} (hi : i ∉ live) (f : ℕ) (s : Slot) :
    L f ≠ some (.task (some i) s) := by
  intro hf
  obtain ⟨j,hj,he⟩ := h.tags f _ s hf
  cases he
  exact hi hj

theorem unattached (h : Owns k live L) (f : ℕ) (s : Slot) : L f ≠ some (.task none s) := by
  intro hf
  obtain ⟨_,_,he⟩ := h.tags f _ s hf
  cases he

/-- The ledger grows, and no frame in use is written except kernel page tables. -/
theorem extend (h : Owns k live L) (hacc : Accounts L' k'.phys.pmm) (hkeep : ∀ f o, L f = some o → L' f = some o)
    (hfresh : ∀ f tag s, L' f = some (.task tag s) → L f = some (.task tag s) ∨ ∃ i ∈ live', tag = some i)
    (hmem : ∀ x o, L (x / pageSize) = some o → o ≠ .kernelTable → k'.phys.mem x = k.phys.mem x)
    (hpaging : k'.paging = k.paging) (hclosed : KernelClosed k.paging k'.phys.mem) (hsub : ∀ i ∈ live, i ∈ live')
    (htasks : ∀ i ∈ live, (k.tasks (.slot i)).Kept (k'.tasks (.slot i)))
    (hnew : ∀ i ∈ live', i ∉ live → TaskOwned L' k'.phys.mem i (k'.tasks (.slot i))) : Owns k' live' L' := by
  obtain ⟨kd,hkd,hLkd⟩ := h.kernel.dir
  refine ⟨hacc,⟨⟨kd,hpaging ▸ hkd,hkeep _ _ hLkd⟩,fun i hi => ?_,fun i hi => ?_,hpaging ▸ h.kernel.inj⟩,fun f hf => hkeep _ _ (h.reserved f hf),
    fun i hi => ?_,fun f tag s hf => ?_,hpaging ▸ hclosed⟩
  · obtain ⟨t,ht,hLt⟩ := h.kernel.table i hi
    exact ⟨t,hpaging ▸ ht,hkeep _ _ hLt⟩
  · rw [hpaging, ← h.kernel.entries i hi, hkd]
    exact entry_congr (Nat.lt_trans hi (by decide)) fun x hx => hmem x .kernel (hx ▸ hLkd) Owner.noConfusion
  · by_cases hl : i ∈ live
    · exact ((h.task i hl).kept (htasks i hl)).congr (fun f s hf => hkeep _ _ hf)
        fun x s hx _ => hmem x _ hx Owner.noConfusion
    · exact hnew i hi hl
  · rcases hfresh f tag s hf with hold | hnow
    · obtain ⟨i,hi,rfl⟩ := h.tags f tag s hold
      exact ⟨i,hsub i hi,rfl⟩
    · exact hnow

theorem failed (h : Owns k live L) (hk : k.Unchanged k') (hu : Undone L k.phys L' k'.phys)
    (hclosed : KernelClosed k.paging k'.phys.mem) : Owns k' live L' := by
  refine h.extend hu.accounts hu.keeps (fun f tag s hf => Or.inl ?_) hu.mem hk.paging hclosed (fun _ hj => hj)
    (fun j _ => ?_) fun j hj hn => absurd hj hn
  · exact (hu.lost f _ hf).resolve_right Owner.noConfusion
  · rw [hk.tasks]
    exact Task.Kept.refl _

theorem launched {i : Fin 64} {k₁ : Kernel} {frame : List ℕ} (h : Owns k live L) (hi : i ∉ live)
    (hp : Prepared k L i k₁ L') (hl : Launched k k₁ i frame k') (hlen : frame.length ≤ 1024)
    (hclosed : KernelClosed k.paging k₁.phys.mem) : Owns k' (live ++ [i]) L' := by
  have hg := hp.grows
  have hpmm : k'.phys.pmm = k₁.phys.pmm := by rw [hl.phys]
  have hmem : ∀ x, L' (x / pageSize) ≠ some (.task (some i) .kstack) → k'.phys.mem x = k₁.phys.mem x :=
    fun x hx => hl.mem hp hlen hx
  have hold : ∀ f o, L f = some o → L' f ≠ some (.task (some i) .kstack) := by
    intro f o ho hf
    rw [hg.ledger.keeps f o ho, Option.some.injEq] at hf
    exact not_mine (h.untagged hi) ho _ hf
  have hne : ∀ j ∈ live, TaskRef.slot j ≠ .slot i := by
    rintro j hj he
    cases he
    exact hi hj
  refine h.extend (hpmm ▸ hg.accounts) hg.ledger.keeps (fun f tag s hf => ?_) (fun x o ho hk => ?_) hl.paging
    (fun a ha b hb hu => ?_) (fun j hj => List.mem_append_left _ hj) (fun j hj => (hl.others _ (hne j hj)).1)
    fun j hj hn => ?_
  · refine (hg.ledger.fresh f _ hf).imp_right ?_
    rintro ⟨_,s',he⟩
    exact ⟨i,by simp,(Owner.task.inj he).1⟩
  · rw [hmem x (hold _ o ho), hg.mem x o ho hk (not_mine (h.untagged hi) ho)]
  · obtain ⟨t,ht,hLt⟩ := h.kernel.table a ha
    refine hclosed a ha b hb ?_
    rw [ht] at hu ⊢
    rwa [entry_congr hb fun x hx => hmem x (hold _ _ (hx ▸ hLt))] at hu
  · have hji : j = i := by simpa [hn] using hj
    subst hji
    obtain ⟨f,hst,_,hLf⟩ := hp.stack
    have hown : TaskOwned L' k₁.phys.mem j (k₁.tasks (.slot j)) := ⟨⟨f,hst,hLf⟩,hp.dir,hp.userStack⟩
    refine (hown.kept hl.self).congr (fun _ _ hf => hf) fun x s hx hs => hmem x ?_
    intro hk
    rw [hx, Option.some.injEq, Owner.task.injEq] at hk
    rw [hk.2] at hs
    exact hs

end Owns

/-- The frames of the kernel stay as they are. -/
structure KeepsKernel (k : Kernel) (L : Frames) (k' : Kernel) (L' : Frames) : Prop where
  paging : k'.paging = k.paging
  labels : ∀ f, L f = some .kernel → L' f = some .kernel
  mem : ∀ x, L (x / pageSize) = some .kernel → k'.phys.mem x = k.phys.mem x

section
variable {k k' k'' : Kernel} {live : List (Fin 64)} {L L' L'' : Frames}

theorem KeepsKernel.refl (k : Kernel) (L : Frames) : KeepsKernel k L k L := ⟨rfl,fun _ h => h,fun _ _ => rfl⟩

theorem KeepsKernel.trans (h : KeepsKernel k L k' L') (h' : KeepsKernel k' L' k'' L'') : KeepsKernel k L k'' L'' :=
  ⟨h'.paging.trans h.paging,fun f hf => h'.labels f (h.labels f hf),
    fun x hx => (h'.mem x (h.labels _ hx)).trans (h.mem x hx)⟩

/-- What an operation does to the frames: they are accounted for again, those of the kernel
are as they were, `free_page` has refused nothing, and a frame that was given back belonged
to a dead task that is gone. -/
structure Kernel.Accounted (k : Kernel) (live : List (Fin 64)) (L : Frames) (k' : Kernel) (live' : List (Fin 64))
    (L' : Frames) : Prop extends KeepsKernel k L k' L' where
  owns : Owns k' live' L'
  errors : k'.phys.pmm.errors = k.phys.pmm.errors
  freed : ∀ f, k.phys.pmm.testFrame f = true → k'.phys.pmm.testFrame f = false →
    ∃ i ∈ live, i ∉ live' ∧ (k.tasks (.slot i)).state = .dead ∧ ∃ s, taskFrame k i s = some f

theorem Owns.accounted_kept (h : Owns k live L) (hk : k.Kept k') : k.Accounted live L k' live L := by
  have hown := h.kept hk
  exact ⟨⟨hk.paging,fun _ hf => hf,fun _ _ => by rw [hk.phys]⟩,hown,by rw [hk.phys],
    h.accounts.not_freed hown.accounts fun _ _ ho => ho⟩

theorem Kernel.Accounted.keeps {live' : List (Fin 64)} (h : k.Accounted live L k' live' L') (hsub : ∀ i ∈ live, i ∈ live')
    {f : ℕ} (hf : k.phys.pmm.testFrame f = true) : k'.phys.pmm.testFrame f = true := by
  by_contra hfree
  obtain ⟨i,hi,hgone,_⟩ := h.freed f hf (by simpa using hfree)
  exact hgone (hsub i hi)

/-- How a call that creates a task ends: what it took is given back or lost, or the new task
holds it. -/
inductive Creation (k : Kernel) (live : List (Fin 64)) (L : Frames) : Option (Fin 64) → Kernel → Prop
  | failed {k' : Kernel} {L' : Frames} (unchanged : k.Unchanged k') (undone : Undone L k.phys L' k'.phys)
      (closed : KernelClosed k.paging k'.phys.mem) : Creation k live L none k'
  | launched {i : Fin 64} {k₁ k' : Kernel} {L' : Frames} {frame : List ℕ} (fresh : i ∉ live)
      (prepared : Prepared k L i k₁ L') (launched : Launched k k₁ i frame k') (short : frame.length ≤ 1024)
      (closed : KernelClosed k.paging k₁.phys.mem) : Creation k live L (some i) k'

end

section
variable {img : Image} {k k' : Kernel} {live : List (Fin 64)} {L : Frames} {entry : ℕ} {name : List UInt8}
  {res : Option (Fin 64)}

theorem Owns.creation_none (h : Owns k live L) (hk : k.Unchanged k') (hphys : k'.phys = k.phys) :
    Creation k live L none k' := by
  have hundone : Undone L k.phys L k'.phys := by
    rw [hphys]
    exact Undone.refl h.accounts
  refine .failed hk hundone ?_
  rw [hphys]
  exact h.closed

theorem taskCreate_creation (hs : SchedOk k live) (h : Owns k live L)
    (hcall : taskCreate img k entry name = some (res, k')) : Creation k live L res k' := by
  rcases taskCreate_cases hs h.accounts hcall with ⟨rfl,hun,hphys,_⟩ | ⟨i,k₁,f,hi,rfl,hready,hp,hl⟩
  · exact h.creation_none hun hphys
  · refine .launched hi hp hl (by simp [kernelFrame]) ?_
    rw [hready.phys]
    exact h.closed

theorem taskCreateUser_creation (hs : SchedOk k live) (h : Owns k live L) (hentry : entry < 0x400000)
    (hcall : taskCreateUser img k entry name = some (res, k')) : Creation k live L res k' := by
  rcases taskCreateUser_cases hs h.accounts h.kernel (fun i hi => h.untagged hi) hentry hcall with
    ⟨rfl,hun,⟨L',hu⟩,hc,_,_⟩ | ⟨i,k₁,L₁,n,hi,rfl,hready,hl⟩
  · exact .failed hun hu (hc h.closed)
  · exact .launched hi hready.toPrepared hl (by simp [userFrame]) (hready.closed h.closed)

theorem Creation.accounted (hc : Creation k live L res k') (h : Owns k live L) :
    ∃ L', k.Accounted live L k' (live ++ res.toList) L' := by
  cases hc with
  | failed hk hu hclosed =>
    refine ⟨_,⟨hk.paging,fun f hf => hu.keeps f _ hf,fun x hx => hu.mem x _ hx Owner.noConfusion⟩,?_,hu.errors,
      h.accounts.not_freed hu.accounts hu.keeps⟩
    rw [Option.toList_none, List.append_nil]
    exact h.failed hk hu hclosed
  | launched hi hp hl hlen hclosed =>
    have hkeep := hp.grows.ledger.keeps
    refine ⟨_,⟨hl.paging,fun f hf => hkeep f _ hf,fun x hx => ?_⟩,h.launched hi hp hl hlen hclosed,?_,?_⟩
    · rw [hl.mem hp hlen (by simp [hkeep _ _ hx]), hp.grows.mem x _ hx Owner.noConfusion fun _ => Owner.noConfusion]
    · rw [hl.phys]
      exact hp.grows.errors
    · rw [hl.phys]
      exact h.accounts.not_freed hp.grows.accounts hkeep

theorem Creation.directory (hc : Creation k live L res k') :
    ∀ i ∈ res, (k'.tasks (.slot i)).cr3 = (k'.tasks (.slot i)).pageDir := by
  rintro i hi
  cases hc with
  | failed => cases hi
  | launched _ hp hl =>
    cases hi
    rw [hl.self]
    exact hp.directory

/-! ## Reaping -/

namespace Owns
variable {i : Fin 64}

theorem taskFrame_stack (h : Owns k live L) (hi : i ∈ live) :
    ∃ f, (k.tasks (.slot i)).kernelStack = f * pageSize ∧ taskFrame k i .kstack = some f ∧
      L f = some (.task (some i) .kstack) := by
  obtain ⟨f,hf,hL⟩ := (h.task i hi).stack
  refine ⟨f,hf,?_,hL⟩
  rw [taskFrame, hf, Nat.mul_div_cancel _ (by decide)]

theorem taskFrame_label (h : Owns k live L) (hi : i ∈ live) {s : Slot} {f : ℕ} (hf : taskFrame k i s = some f) :
    L f = some (.task (some i) s) := by
  by_cases hs : s = .kstack
  · subst hs
    obtain ⟨f',_,hf',hL⟩ := h.taskFrame_stack hi
    rw [hf, Option.some.injEq] at hf'
    rw [hf', hL]
  · rw [taskFrame_of_ne hs] at hf
    split at hf
    · cases hf
    · rename_i hd
      obtain ⟨n,hn,hown⟩ := (h.task i hi).dir hd
      rw [hn] at hf
      exact hown.owned s f hf

theorem taskFrame_dir {n : ℕ} {s : Slot} {f : ℕ} (hd : (k.tasks (.slot i)).pageDir = n * pageSize)
    (hz : (k.tasks (.slot i)).pageDir ≠ 0) (hf : dirFrame k.phys.mem (n * pageSize) s = some f) :
    taskFrame k i s = some f := by
  have hs : s ≠ .kstack := by
    rintro rfl
    cases hf
  rw [taskFrame_of_ne hs, if_neg hz, hd, hf]

theorem taskFrame_congr (h : Owns k live L) (hi : i ∈ live) (hk : (k.tasks (.slot i)).Kept (k'.tasks (.slot i)))
    (hm : ∀ x s, L (x / pageSize) = some (.task (some i) s) → k'.phys.mem x = k.phys.mem x) :
    taskFrame k' i = taskFrame k i := by
  have hst : (k'.tasks (.slot i)).kernelStack = (k.tasks (.slot i)).kernelStack := by rw [hk]
  have hdir : (k'.tasks (.slot i)).pageDir = (k.tasks (.slot i)).pageDir := by rw [hk]
  funext s
  by_cases hs : s = .kstack
  · simp only [hs, taskFrame, hst]
  · rw [taskFrame_of_ne hs, taskFrame_of_ne hs, hdir]
    by_cases hd : (k.tasks (.slot i)).pageDir = 0
    · rw [if_pos hd, if_pos hd]
    · obtain ⟨n,hn,hown⟩ := (h.task i hi).dir hd
      rw [if_neg hd, if_neg hd, hn, hown.dirFrame_congr fun x s hx _ => hm x s hx]

theorem creation_others (h : Owns k live L) (hc : Creation k live L res k') (hi : i ∈ live) :
    taskFrame k' i = taskFrame k i := by
  cases hc with
  | failed hk hu _ =>
    refine h.taskFrame_congr hi ?_ fun x s hx => hu.mem x _ hx Owner.noConfusion
    rw [hk.tasks]
    exact Task.Kept.refl _
  | @launched j _ _ _ _ hj hp hl hlen _ =>
    have hne : i ≠ j := fun he => hj (he ▸ hi)
    refine h.taskFrame_congr hi (hl.others _ (by simpa using hne)).1 fun x s hx => ?_
    rw [hl.mem hp hlen, hp.grows.mem x _ hx Owner.noConfusion fun s' he => ?_]
    · exact h.untagged hj _ s' (he ▸ hx)
    · rw [hp.grows.ledger.keeps _ _ hx]
      simp [hne]

/-- Releasing a task frees the frames of that task and no others, and `free_page` refuses
nothing. -/
theorem releaseTask_spec (h : Owns k live L) (hi : i ∈ live) :
    ∃ L₁, Accounts L₁ (releaseTask k (k.tasks (.slot i))).pmm ∧
      (releaseTask k (k.tasks (.slot i))).pmm.errors = k.phys.pmm.errors ∧
      (releaseTask k (k.tasks (.slot i))).mem = k.phys.mem ∧ (∀ f o, L₁ f = some o → L f = some o) ∧
      (∀ f o, L f = some o → L₁ f = some o ∨ ∃ s, taskFrame k i s = some f ∧ o = .task (some i) s) ∧
      ∀ f s, taskFrame k i s = some f → L₁ f = none := by
  obtain ⟨f,hst,hframe,hLf⟩ := h.taskFrame_stack hi
  have hpos : f ≠ 0 := Nat.ne_of_gt (h.accounts.pos hLf)
  have hfree : k.phys.pmm.freePage (f * pageSize) = k.phys.pmm.clearFrame f := h.accounts.free (by simp [hLf])
  have hacc : Accounts (Function.update L f none) (k.phys.freePage (f * pageSize)).pmm := by
    rw [Phys.freePage, hfree]
    exact h.accounts.drop (by simp [hLf]) hpos
  have herr : (k.phys.freePage (f * pageSize)).pmm.errors = k.phys.pmm.errors := by
    rw [Phys.freePage, hfree]
    rfl
  have hkeep : ∀ g o, L g = some o → Function.update L f none g = some o ∨
      ∃ s, taskFrame k i s = some g ∧ o = .task (some i) s := by
    intro g o ho
    by_cases hg : g = f
    · subst hg
      rw [hLf, Option.some.injEq] at ho
      exact Or.inr ⟨.kstack,hframe,ho.symm⟩
    · rw [Function.update_of_ne hg]
      exact Or.inl ho
  unfold releaseTask
  rw [hst]
  by_cases hd : (k.tasks (.slot i)).pageDir ≠ 0
  · obtain ⟨n,hn,hown⟩ := (h.task i hi).dir hd
    have hown' : DirOwned (Function.update L f none) (some i) k.phys.mem n := by
      refine ⟨fun s g hg => ?_⟩
      have hL := hown.owned s g hg
      rw [Function.update_of_ne ?_, hL]
      rintro rfl
      rw [hLf, Option.some.injEq, Owner.task.injEq] at hL
      rw [← hL.2] at hg
      cases hg
    rw [if_pos hd, hn]
    obtain ⟨hacc',herr',hmem'⟩ := pagingFreeDirectory_spec hacc hown'
    refine ⟨Ledger.release (Function.update L f none) (dirFrames k.phys.mem (n * pageSize)),hacc',herr'.trans herr,hmem',
      fun g o ho => update_none_sub (release_sub ho),fun g o ho => ?_,fun g s hg => ?_⟩
    rcases hkeep g o ho with hu | hs
    · by_cases hg : ∃ s, dirFrame k.phys.mem (n * pageSize) s = some g
      · obtain ⟨s,hs⟩ := hg
        have hL := hown.owned s g hs
        rw [ho, Option.some.injEq] at hL
        exact Or.inr ⟨s,taskFrame_dir hn hd hs,hL⟩
      · refine Or.inl ?_
        rw [Ledger.release, if_neg fun hm => hg (mem_dirFrames.mp hm), hu]
    · exact Or.inr hs
    · rw [Ledger.release]
      by_cases hs : s = .kstack
      · rw [hs, hframe, Option.some.injEq] at hg
        rw [← hg, Function.update_self, ite_self]
      · rw [taskFrame_of_ne hs, if_neg hd, hn] at hg
        exact if_pos (mem_dirFrames.mpr ⟨s,hg⟩)
  · rw [if_neg hd, if_neg (not_not.mpr ((h.task i hi).userStack (not_not.mp hd)))]
    refine ⟨_,hacc,herr,rfl,fun g o ho => update_none_sub ho,hkeep,fun g s hg => ?_⟩
    by_cases hs : s = .kstack
    · rw [hs, hframe, Option.some.injEq] at hg
      rw [← hg, Function.update_self]
    · rw [taskFrame_of_ne hs, if_pos (not_not.mp hd)] at hg
      cases hg

theorem reaped (h : Owns k live L) (hi : i ∈ live) (hr : SchedOk.Reaped k live i k') :
    (∃ L', Owns k' (live.filter (· ≠ i)) L' ∧ KeepsKernel k L k' L') ∧ k'.phys.pmm.errors = k.phys.pmm.errors ∧ k'.phys.mem = k.phys.mem ∧
      ∀ f, k'.phys.pmm.testFrame f = true ↔ k.phys.pmm.testFrame f = true ∧ ∀ s, taskFrame k i s ≠ some f := by
  obtain ⟨L₁,hacc,herr,hmem,hsub,hkeep,hfreed⟩ := h.releaseTask_spec hi
  rw [← hr.phys] at hacc herr hmem
  have hother : ∀ f o, L f = some o → (∀ s, o ≠ .task (some i) s) → L₁ f = some o := by
    intro f o ho hs
    rcases hkeep f o ho with hL | ⟨s,_,he⟩
    · exact hL
    · exact absurd he (hs s)
  let L' := L₁.relabel (reassign (some i) fun _ => .lost)
  have hL' : ∀ f o, L f = some o → (∀ s, o ≠ .task (some i) s) → L' f = some o := by
    intro f o ho hs
    simp only [L', Ledger.relabel]
    rw [hother f o ho hs, Option.map_some, reassign_of_ne hs]
  refine ⟨⟨L',⟨hacc.relabel rfl,?_,fun f hf => hL' f _ (h.reserved f hf) fun _ => Owner.noConfusion,
    fun j hj => ?_,fun f tag s hf => ?_,?_⟩,hr.paging,fun f hf => hL' f _ hf fun _ => Owner.noConfusion,
    fun _ _ => by rw [hmem]⟩,herr,hmem,fun f => ?_⟩
  · obtain ⟨kd,hkd,hLkd⟩ := h.kernel.dir
    rw [hr.paging, hmem]
    refine ⟨⟨kd,hkd,hL' _ _ hLkd fun _ => Owner.noConfusion⟩,fun a ha => ?_,h.kernel.entries,h.kernel.inj⟩
    obtain ⟨t,ht,hLt⟩ := h.kernel.table a ha
    exact ⟨t,ht,hL' _ _ hLt fun _ => Owner.noConfusion⟩
  · obtain ⟨hjl,hji⟩ := List.mem_filter.mp hj
    have hne : j ≠ i := by simpa using hji
    rw [hmem]
    refine ((h.task j hjl).kept (hr.others _ (by simpa using hne)).1).congr (fun f s hf => hL' f _ hf ?_) fun _ _ _ _ => rfl
    intro s' he
    exact hne (Option.some.inj (Owner.task.inj he).1)
  · obtain ⟨o,ho,he⟩ := Option.map_eq_some_iff.mp hf
    have hnot : ∀ s', o ≠ .task (some i) s' := by
      rintro s' rfl
      rw [reassign_self] at he
      cases he
    rw [reassign_of_ne hnot] at he
    subst he
    obtain ⟨j,hj,rfl⟩ := h.tags f tag s (hsub f _ ho)
    refine ⟨j,List.mem_filter.mpr ⟨hj,?_⟩,rfl⟩
    have hji : j ≠ i := by
      rintro rfl
      exact hnot s rfl
    simpa using hji
  · rw [hr.paging, hmem]
    exact h.closed
  · rw [h.accounts.used, hacc.used]
    constructor
    · intro hf
      obtain ⟨o,ho⟩ := Option.isSome_iff_exists.mp hf
      refine ⟨by rw [hsub f o ho]; rfl,fun s hs => ?_⟩
      rw [hfreed f s hs] at ho
      cases ho
    · rintro ⟨hf,hnot⟩
      obtain ⟨o,ho⟩ := Option.isSome_iff_exists.mp hf
      rcases hkeep f o ho with hL | ⟨s,hs,_⟩
      · rw [hL]
        rfl
      · exact absurd hs (hnot s)

end Owns

theorem taskFrame_kept {i : Fin 64} (hmem : k'.phys.mem = k.phys.mem)
    (hk : (k.tasks (.slot i)).Kept (k'.tasks (.slot i))) : taskFrame k' i = taskFrame k i := by
  have hst : (k'.tasks (.slot i)).kernelStack = (k.tasks (.slot i)).kernelStack := by rw [hk]
  have hdir : (k'.tasks (.slot i)).pageDir = (k.tasks (.slot i)).pageDir := by rw [hk]
  funext s
  by_cases hs : s = .kstack
  · simp only [hs, taskFrame, hst]
  · rw [taskFrame_of_ne hs, taskFrame_of_ne hs, hdir, hmem]

/-- The reaper frees the frames of the dead tasks, and no others. -/
theorem taskReap_frames (hs : SchedOk k live) (h : Owns k live L) (halive : (k.tasks k.current).state ≠ .dead)
    (hcall : taskReap k = some k') :
    (∃ L', Owns k' (survivors k live) L' ∧ KeepsKernel k L k' L') ∧ k'.phys.pmm.errors = k.phys.pmm.errors ∧
      (∀ f, k'.phys.pmm.testFrame f = true ↔ k.phys.pmm.testFrame f = true ∧
        ∀ i ∈ live, (k.tasks (.slot i)).state = .dead → ∀ s, taskFrame k i s ≠ some f) ∧
      ∀ i ∈ survivors k live, taskFrame k' i = taskFrame k i := by
  let Mem : List (Fin 64) → Kernel → Prop := fun pre k₁ =>
    (∃ L₁, Owns k₁ (unreaped k live pre) L₁ ∧ KeepsKernel k L k₁ L₁) ∧
    k₁.phys.pmm.errors = k.phys.pmm.errors ∧ k₁.phys.mem = k.phys.mem ∧
    ∀ f, k₁.phys.pmm.testFrame f = true ↔ k.phys.pmm.testFrame f = true ∧
      ∀ i ∈ live, (k.tasks (.slot i)).state = .dead → i ∈ pre → ∀ s, taskFrame k i s ≠ some f
  have hreap := hs.taskReap_ok halive Mem ?_ ?_ ?_
  · obtain ⟨k'',hr,_,hreaping,howns,herr,hmem,hframes⟩ := hreap
    rw [hcall, Option.some.injEq] at hr
    subst hr
    rw [unreaped_finRange] at howns
    refine ⟨howns,herr,by simpa using hframes,fun i hi => taskFrame_kept hmem (hreaping.others _ (Or.inl ?_)).1⟩
    simpa using (List.mem_filter.mp hi).2
  · refine ⟨⟨L,by rwa [unreaped_nil],KeepsKernel.refl k L⟩,rfl,rfl,fun f => ?_⟩
    simp
  · rintro pre i k₁ ⟨⟨L₁,hown,hkept⟩,herr,hmem,hframes⟩ hcase
    rw [← unreaped_skip hcase] at hown
    refine ⟨⟨L₁,hown,hkept⟩,herr,hmem,fun f => (hframes f).trans (and_congr_right fun _ => ?_)⟩
    refine forall₃_congr fun j hj hdead => ?_
    have hji : j ≠ i := by
      rintro rfl
      exact hcase ⟨hj,hdead⟩
    simp [hji]
  · rintro pre i k₁ k₂ ⟨⟨L₁,hown,hkept⟩,herr,hmem,hframes⟩ hreaping hi hdead hpre hreaped
    obtain ⟨⟨L₂,hown₂,hkept₂⟩,herr₂,hmem₂,hframes₂⟩ := hown.reaped (mem_unreaped hi hpre) hreaped
    have hsame := (hreaping.others (.slot i) (Or.inr fun j hj he => hpre (TaskRef.slot.inj he ▸ hj))).1
    refine ⟨⟨L₂,?_,hkept.trans hkept₂⟩,herr₂.trans herr,hmem₂.trans hmem,fun f => ?_⟩
    · rw [unreaped_reap hdead]
      exact hown₂
    · rw [hframes₂, hframes, taskFrame_kept hmem hsame, and_assoc]
      refine and_congr_right fun _ => ⟨fun hnot j hj hd hm => ?_,fun hnot => ⟨fun j hj hd hm => ?_,?_⟩⟩
      · rcases List.mem_append.mp hm with hm | hm
        · exact hnot.1 j hj hd hm
        · rw [List.mem_singleton.mp hm]
          exact hnot.2
      · exact hnot j hj hd (List.mem_append_left _ hm)
      · exact hnot i hi hdead (by simp)

theorem taskReap_accounted (hs : SchedOk k live) (h : Owns k live L) (halive : (k.tasks k.current).state ≠ .dead)
    (hcall : taskReap k = some k') : ∃ L', k.Accounted live L k' (survivors k live) L' := by
  obtain ⟨⟨L',hown,hkept⟩,herr,hframes,_⟩ := taskReap_frames hs h halive hcall
  refine ⟨L',hkept,hown,herr,fun f hf hf' => ?_⟩
  by_contra hnot
  have hheld : ∀ i ∈ live, (k.tasks (.slot i)).state = .dead → ∀ s, taskFrame k i s ≠ some f := by
    intro i hi hdead s hs
    exact hnot ⟨i,hi,by simp [survivors, hdead],hdead,s,hs⟩
  rw [(hframes f).mpr ⟨hf,hheld⟩] at hf'
  cases hf'

end

end ApPa.Tasks

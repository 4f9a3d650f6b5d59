import ApPa.Exec.Spawn
import ApPa.Task.Run

/-! # Runs of the kernel

From boot on, tasks are created, programs are loaded, tasks end and are reaped, pages are
taken for other parts of the kernel, and whatever runs in between writes memory that is
neither a directory nor a table.
-/
namespace ApPa.System
open ByteMem Exec Memory Tasks

/-- `pmm_init`, `paging_init` and `sched_init`. -/
def boot (k : Kernel) : Kernel :=
  schedInit { k with
    phys := (pagingInit k.paging ⟨k.phys.mem,k.phys.pmm.init⟩).1
    paging := (pagingInit k.paging ⟨k.phys.mem,k.phys.pmm.init⟩).2 }

inductive Op where
  | task (op : Tasks.Op)
  | elfExecMem (buf : Option File) (size : ℕ) (taskName : Option (List UInt8)) (argv : Option (ℕ → Arg)) (argc : ℤ)
  | allocPages (count : ℕ)
  | running (m : Mem)

/-- Frames that hold entries of directories and tables in use. -/
def HoldsEntries (k : Kernel) (live : List (Fin 64)) (f : ℕ) : Prop :=
  f = k.paging.kernelDirectory / pageSize ∨ (∃ i < kernelPdeCount, f = k.paging.pdTables i / pageSize) ∨
    ∃ i ∈ live, ∃ s, s.Maps ∧ taskFrame k i s = some f

/-- Entry functions lie in the kernel image, below 4 MB, and only the loader calls
`task_create_user_mapped`. -/
def Op.Allowed (s : Kernel × List (Fin 64)) : Op → Prop
  | .task (.createUser entry _) => entry < 0x400000
  | .task (.createUserMapped ..) => False
  | .task op => op.Allowed s.1
  | .running m => ∀ x, HoldsEntries s.1 s.2 (x / pageSize) → m x = s.1.phys.mem x
  | _ => True

/-- Steps that take and give back no frames. -/
def Op.Quiet : Op → Prop
  | .task op => op.Scheduling
  | .running _ => True
  | _ => False

def exec (img : Image) (op : Op) (s : Kernel × List (Fin 64)) : Option (Kernel × List (Fin 64)) :=
  match op with
  | .task op => Tasks.exec img op s
  | .elfExecMem buf size taskName argv argc =>
    (elfExecMem img s.1 buf size taskName argv argc).map fun r => (r.2, s.2 ++ r.1.toList)
  | .allocPages count => some ({ s.1 with phys := ⟨s.1.phys.mem,(s.1.phys.pmm.allocPages count).2⟩ }, s.2)
  | .running m => some ({ s.1 with phys := ⟨m,s.1.phys.pmm⟩ }, s.2)

def Step (img : Image) (s s' : Kernel × List (Fin 64)) : Prop := ∃ op : Op, op.Allowed s ∧ exec img op s = some s'

variable {img : Image} {k k' : Kernel} {live : List (Fin 64)} {L : Frames}

structure Sound (k : Kernel) (live : List (Fin 64)) : Prop where
  sched : SchedOk k live
  owns : ∃ L, Owns k live L

theorem schedInit_booted {r : Phys × Paging} {e : List FreeError} (k : Kernel) (hL : Booted r.2 r.1 L 4)
    (herr : r.1.pmm.errors = e) :
    Booted (schedInit { k with phys := r.1, paging := r.2 }).paging
      (schedInit { k with phys := r.1, paging := r.2 }).phys L 4 ∧
      (schedInit { k with phys := r.1, paging := r.2 }).phys.pmm.errors = e := ⟨hL,herr⟩

theorem boot_booted (k : Kernel) :
    ∃ L, Booted (boot k).paging (boot k).phys L 4 ∧ (boot k).phys.pmm.errors = k.phys.pmm.errors := by
  have hp : (⟨k.phys.mem,k.phys.pmm.init⟩ : Phys).pmm = k.phys.pmm.init := rfl
  obtain ⟨L,hL,herr⟩ := pagingInit_booted k.paging hp
  exact ⟨L,schedInit_booted k hL herr⟩

theorem schedInit_sched {r : Phys × Paging} (hpool : ∀ i, k.tasks (.slot i) = Task.zero) :
    SchedOk (schedInit { k with phys := r.1, paging := r.2 }) [] := schedInit_ok hpool

theorem boot_sound (hpool : ∀ i, k.tasks (.slot i) = Task.zero) :
    Sound (boot k) [] ∧ (boot k).phys.pmm.errors = k.phys.pmm.errors := by
  obtain ⟨L,hL,herr⟩ := boot_booted k
  refine ⟨⟨schedInit_sched hpool,L,hL.accounts,hL.kernelMap,hL.reserved,?_,fun f tag s hf => ?_,hL.kernelClosed⟩,herr⟩
  · intro i hi
    cases hi
  · rcases hL.owners f _ hf with ho | ho
    · cases ho
    · cases ho

/-- The kernel image, the frame map, the pool's end and the five frames of `paging_init`. -/
theorem boot_used (k : Kernel) : (boot k).phys.pmm.usedFrames.toNat = 774 := by
  obtain ⟨L,hL,_⟩ := boot_booted k
  rw [hL.accounts.count, hL.count]

theorem allocTcb_empty (h : SchedOk k []) : allocTcb k = some 0 := by
  have hzero : slotFree k 0 := by
    rw [slotFree, h.free 0 List.not_mem_nil]
    exact ⟨rfl,rfl⟩
  rw [allocTcb, List.finRange_succ, List.find?_cons_of_pos (by simpa using hzero)]

theorem boot_allocTcb (hpool : ∀ i, k.tasks (.slot i) = Task.zero) : allocTcb (boot k) = some 0 :=
  allocTcb_empty (boot_sound hpool).1.sched

theorem allocPages_accounted (h : Owns k live L) (count : ℕ) :
    ∃ L', k.Accounted live L { k with phys := ⟨k.phys.mem,(k.phys.pmm.allocPages count).2⟩ } live L' ∧
      ∀ f, L f = none → L' f ≠ none → L' f = some .kernel := by
  obtain ⟨L',hacc,hext,herr⟩ := h.accounts.allocPages count .kernel
  refine ⟨L',⟨⟨rfl,fun f hf => hext.keeps f _ hf,fun _ _ => rfl⟩,h.extend hacc hext.keeps (fun f tag s hf => Or.inl ?_)
    (fun _ _ _ _ => rfl) rfl h.closed (fun _ hi => hi) (fun _ _ => Task.Kept.refl _) fun i hi hn => absurd hi hn,herr,
    h.accounts.not_freed hacc hext.keeps⟩,fun f hfree hused => ?_⟩
  · exact (hext.fresh f _ hf).resolve_right fun hnew => by cases hnew.2
  · obtain ⟨o,ho⟩ := Option.ne_none_iff_exists'.mp hused
    rcases hext.fresh f o ho with hold | ⟨_,rfl⟩
    · rw [hfree] at hold
      cases hold
    · exact ho

/-- Code that runs leaves the directories and tables alone. -/
theorem Owns.running (h : Owns k live L) {m : Mem}
    (hm : ∀ x, HoldsEntries k live (x / pageSize) → m x = k.phys.mem x) :
    Owns { k with phys := ⟨m,k.phys.pmm⟩ } live L := by
  obtain ⟨kd,hkd,hLkd⟩ := h.kernel.dir
  have htable : ∀ i < kernelPdeCount, ∀ j < 1024, entry m (k.paging.pdTables i) j = entry k.phys.mem (k.paging.pdTables i) j := by
    intro i hi j hj
    obtain ⟨t,ht,_⟩ := h.kernel.table i hi
    rw [ht]
    refine entry_congr hj fun x hx => hm x (Or.inr (Or.inl ⟨i,hi,?_⟩))
    rw [ht, Nat.mul_div_cancel _ (by decide), hx]
  refine ⟨h.accounts,⟨⟨kd,hkd,hLkd⟩,h.kernel.table,fun i hi => ?_,h.kernel.inj⟩,h.reserved,fun i hi => ?_,h.tags,
    fun i hi j hj hu => ?_⟩
  · refine Eq.trans ?_ (h.kernel.entries i hi)
    rw [hkd]
    refine entry_congr (Nat.lt_trans hi (by decide)) fun x hx => hm x (Or.inl ?_)
    rw [hkd, Nat.mul_div_cancel _ (by decide), hx]
  · have hown := h.task i hi
    refine ⟨hown.stack,fun hd => ?_,hown.userStack⟩
    obtain ⟨n,hn,hdo⟩ := hown.dir hd
    refine ⟨n,hn,⟨fun s f hf => hdo.owned s f ?_⟩⟩
    rw [← hf]
    refine (congrFun (dirFrame_congr fun x s hs hx => hm x (Or.inr (Or.inr ⟨i,hi,s,hs,?_⟩))) s).symm
    exact Owns.taskFrame_dir hn hd hx
  · refine h.closed i hi j hj ?_
    rw [← htable i hi j hj]
    exact hu

/-- What a step does to the tasks and to the frames. -/
inductive Effect (k : Kernel) (live : List (Fin 64)) (L : Frames) : Op → Kernel → List (Fin 64) → Prop
  | schedules {op : Tasks.Op} {k' : Kernel} (scheduling : op.Scheduling) (kept : SchedOk.Kept k live k') :
      Effect k live L (.task op) k' live
  | creates {op : Op} {res : Option (Fin 64)} {k' : Kernel} (creating : ¬op.Quiet) (spawned : SchedOk.Spawned k live res k')
      (creation : Creation k live L res k') : Effect k live L op k' (live ++ res.toList)
  | reaps {k' : Kernel} (alive : (k.tasks k.current).state ≠ .dead) (call : taskReap k = some k')
      (ok : SchedOk k' (survivors k live)) (reaping : SchedOk.Reaping k live (List.finRange 64) k') :
      Effect k live L (.task .reap) k' (survivors k live)
  | takes (count : ℕ) :
      Effect k live L (.allocPages count) { k with phys := ⟨k.phys.mem,(k.phys.pmm.allocPages count).2⟩ } live
  | runs {m : Mem} (entries : ∀ x, HoldsEntries k live (x / pageSize) → m x = k.phys.mem x) :
      Effect k live L (.running m) { k with phys := ⟨m,k.phys.pmm⟩ } live

theorem exec_effect {op : Op} {s' : Kernel × List (Fin 64)} (hs : SchedOk k live) (h : Owns k live L)
    (hop : op.Allowed (k, live)) (hexec : exec img op (k, live) = some s') : Effect k live L op s'.1 s'.2 := by
  cases op with
  | task op =>
    have hkept : op.Allowed k → op.Scheduling → Effect k live L (.task op) s'.1 s'.2 := by
      intro hallow hsched
      obtain ⟨k',hk,hkept⟩ := exec_scheduling img hs hallow hsched
      rw [exec, hk, Option.some.injEq] at hexec
      subst hexec
      exact .schedules hsched hkept
    cases op with
    | create entry name =>
      obtain ⟨res,k',hc,hsp⟩ := hs.taskCreate_ok img entry name
      rw [exec, Tasks.exec, hc, Option.map_some, Option.some.injEq] at hexec
      subst hexec
      exact .creates not_false hsp (taskCreate_creation hs h hc)
    | createUser entry name =>
      obtain ⟨res,k',hc,hsp⟩ := hs.taskCreateUser_ok img entry name
      rw [exec, Tasks.exec, hc, Option.map_some, Option.some.injEq] at hexec
      subst hexec
      exact .creates not_false hsp (taskCreateUser_creation hs h hop hc)
    | createUserMapped entryVaddr name dir dirPhys userEsp => exact hop.elim
    | reap =>
      obtain ⟨k',hr,hok,hreap⟩ := hs.taskReap_reaping hop
      rw [exec, Tasks.exec, hr, Option.map_some, Option.some.injEq] at hexec
      subst hexec
      exact .reaps hop hr hok hreap
    | exitMark => exact hkept hop trivial
    | yield => exact hkept trivial trivial
    | tick => exact hkept trivial trivial
    | enable => exact hkept trivial trivial
    | disable => exact hkept trivial trivial
  | elfExecMem buf size taskName argv argc =>
    obtain ⟨⟨res,k'⟩,hcall,rfl⟩ := Option.map_eq_some_iff.mp hexec
    obtain ⟨hsp,hc⟩ := elfExecMem_creation hs h hcall
    exact .creates not_false hsp hc
  | allocPages count =>
    cases hexec
    exact .takes count
  | running m =>
    cases hexec
    exact .runs hop

namespace Effect
variable {op : Op} {live' : List (Fin 64)}

theorem sched (e : Effect k live L op k' live') (hs : SchedOk k live) : SchedOk k' live' := by
  cases e with
  | schedules _ hkept => exact hkept.ok
  | creates _ hsp _ => exact hsp.ok
  | reaps _ _ hok _ => exact hok
  | takes count => exact hs.withPhys _
  | runs _ => exact hs.withPhys _

theorem accounted (e : Effect k live L op k' live') (hs : SchedOk k live) (h : Owns k live L)
    (hquiet : ∀ m, op ≠ .running m) : ∃ L', k.Accounted live L k' live' L' := by
  cases e with
  | schedules _ hkept => exact ⟨L,h.accounted_kept hkept.kept⟩
  | creates _ _ hc => exact hc.accounted h
  | reaps halive hcall _ _ => exact taskReap_accounted hs h halive hcall
  | takes count =>
    obtain ⟨L',hacc,-⟩ := allocPages_accounted h count
    exact ⟨L',hacc⟩
  | @runs m _ => exact absurd rfl (hquiet m)

theorem gone (e : Effect k live L op k' live') {i : Fin 64} (hi : i ∈ live) (hgone : i ∉ live') : op = .task .reap := by
  cases e with
  | reaps => rfl
  | creates => exact absurd (List.mem_append_left _ hi) hgone
  | schedules => exact absurd hi hgone
  | takes => exact absurd hi hgone
  | runs => exact absurd hi hgone

end Effect

/-- Every step keeps the queue and the frames in order, and frees frames of dead tasks only. -/
theorem exec_sound {op : Op} {s' : Kernel × List (Fin 64)} (h : Sound k live) (hop : op.Allowed (k, live))
    (hexec : exec img op (k, live) = some s') : Sound s'.1 s'.2 ∧ s'.1.phys.pmm.errors = k.phys.pmm.errors ∧
      ∀ f, k.phys.pmm.testFrame f = true → s'.1.phys.pmm.testFrame f = false →
        ∃ i ∈ live, i ∉ s'.2 ∧ (k.tasks (.slot i)).state = .dead ∧ ∃ s, taskFrame k i s = some f := by
  obtain ⟨hs,L,hown⟩ := h
  have he := exec_effect hs hown hop hexec
  by_cases hrun : ∃ m, op = .running m
  · obtain ⟨m,rfl⟩ := hrun
    cases hexec
    have hown' := Owns.running hown hop
    exact ⟨⟨he.sched hs,L,hown'⟩,rfl,hown.accounts.not_freed hown'.accounts fun _ _ ho => ho⟩
  · obtain ⟨L',hacc⟩ := he.accounted hs hown fun m hm => hrun ⟨m,hm⟩
    exact ⟨⟨he.sched hs,L',hacc.owns⟩,hacc.errors,hacc.freed⟩

/-- A kernel state that some run from boot leads to. -/
def Reachable (img : Image) (k₀ : Kernel) (k : Kernel) (live : List (Fin 64)) : Prop :=
  (∀ i, k₀.tasks (.slot i) = Task.zero) ∧ Relation.ReflTransGen (Step img) (boot k₀, []) (k, live)

theorem Reachable.sound {k₀ : Kernel} (h : Reachable img k₀ k live) :
    Sound k live ∧ k.phys.pmm.errors = k₀.phys.pmm.errors := by
  obtain ⟨hpool,hrun⟩ := h
  suffices hall : ∀ s, Relation.ReflTransGen (Step img) (boot k₀, []) s →
      Sound s.1 s.2 ∧ s.1.phys.pmm.errors = k₀.phys.pmm.errors from hall _ hrun
  intro s hs
  induction hs with
  | refl => exact boot_sound hpool
  | tail _ hstep ih =>
    obtain ⟨op,hop,hexec⟩ := hstep
    obtain ⟨hsound,herr,-⟩ := exec_sound ih.1 hop hexec
    exact ⟨hsound,herr.trans ih.2⟩

theorem create_starts (img : Image) (h : Sound k live) (hlen : live.length < 64)
    (hroom : k.phys.pmm.usedFrames.toNat < totalFrames) (entry : ℕ) (name : List UInt8) :
    ∃ i k', i ∉ live ∧ exec img (.task (.create entry name)) (k, live) = some (k', live ++ [i]) ∧
      k'.phys.pmm.usedFrames.toNat = k.phys.pmm.usedFrames.toNat + 1 := by
  obtain ⟨hsched,L,hown⟩ := h
  obtain ⟨res,k',hc,_⟩ := hsched.taskCreate_ok img entry name
  rcases taskCreate_cases hsched hown.accounts hc with ⟨_,_,_,hnone | hfull⟩ | ⟨i,k₁,f,hi,rfl,hstack,_,hl⟩
  · exact absurd hnone (hsched.allocTcb_ne_none hlen)
  · exact absurd hroom (Nat.not_lt.mpr hfull)
  · refine ⟨i,k',hi,by rw [exec, Tasks.exec, hc]; rfl,?_⟩
    rw [hl.phys, hstack.phys, (hown.accounts.take hstack.bound hstack.free .kernel).count, hown.accounts.count]
    exact Ledger.count_take (Finset.mem_range.mpr hstack.bound) hstack.free _

theorem createUser_starts (img : Image) (h : Sound k live) (hlen : live.length < 64)
    (hroom : k.phys.pmm.usedFrames.toNat + 4 ≤ totalFrames) {entry : ℕ} (hentry : entry < 0x400000) (name : List UInt8) :
    ∃ i k', i ∉ live ∧ taskCreateUser img k entry name = some (some i, k') ∧ k'.current = k.current ∧
      (k'.tasks (.slot i)).state = .ready := by
  obtain ⟨hsched,L,hown⟩ := h
  obtain ⟨res,k',hc,_⟩ := hsched.taskCreateUser_ok img entry name
  rcases taskCreateUser_cases hsched hown.accounts hown.kernel (fun i hi => hown.untagged hi) hentry hc with
    ⟨_,_,_,_,_,hnone | hfull⟩ | ⟨i,_,_,_,hi,rfl,_,hl⟩
  · exact absurd hnone (hsched.allocTcb_ne_none hlen)
  · exact absurd hroom (Nat.not_le.mpr hfull)
  · exact ⟨i,k',hi,hc,hl.current,hl.ready⟩

theorem boot_createUser (img : Image) (hpool : ∀ i, k.tasks (.slot i) = Task.zero) {entry : ℕ} (hentry : entry < 0x400000)
    (name : List UInt8) : ∃ i k', taskCreateUser img (boot k) entry name = some (some i, k') ∧
      k'.current = .boot ∧ (k'.tasks (.slot i)).state = .ready := by
  have hsound := (boot_sound hpool).1
  obtain ⟨i,k',-,hc,hcur,hready⟩ := createUser_starts img hsound (by decide) (by rw [boot_used]; decide) hentry name
  exact ⟨i,k',hc,hcur.trans hsound.sched.current_boot,hready⟩

theorem boot_exec (img : Image) (hpool : ∀ i, k.tasks (.slot i) = Task.zero) (f : File) (size : ℕ)
    (hv : elfValidate (some f) size = 0) (hplan : (plan f size 0 (readEhdr f).phnum).1 = true)
    (hfit : (wanted f size).length ≤ 16) (name : List UInt8) (argv : Option (ℕ → Arg)) (argc : ℤ)
    (hargs : ∀ m a, setupUserStackArgs m a argv argc ≠ none) :
    ∃ i k', elfExecMem img (boot k) (some f) size (some name) argv argc = some (some i, k') := by
  obtain ⟨hsched,L,hown⟩ := (boot_sound hpool).1
  refine elfExecMem_starts img hsched hown hv ?_ name hargs
  unfold Unloadable
  rw [hplan, boot_allocTcb hpool, boot_used]
  simp [totalFrames]
  omega

theorem first_user_runs (img : Image) (hpool : ∀ i, k.tasks (.slot i) = Task.zero) {entry : ℕ} (hentry : entry < 0x400000)
    (name : List UInt8) :
    ∃ k' i, Reachable img k k' [i] ∧ k'.current = .slot i ∧ (k'.tasks k'.current).state = .running := by
  obtain ⟨i,k₁,hc,hcur,hready⟩ := boot_createUser img hpool hentry name
  have hcreate : Step img (boot k, []) (k₁, [i]) := ⟨.task (.createUser entry name),hentry,by rw [exec, Tasks.exec, hc]; rfl⟩
  have hr₁ : Reachable img k k₁ [i] := ⟨hpool,.single hcreate⟩
  have hsched := hr₁.sound.1.sched
  have hnext : k₁.next k₁.current = some (.slot i) := by
    rw [hcur]
    exact Linked.Path.next_eq (l := []) hsched.ring.path
  have hy : schedYield k₁ = some (switchTo k₁ (.slot i)) := by
    rw [schedYield, Queue.pickNextReady_next hnext (Or.inl hready)]
    rfl
  have hyield : Step img (k₁, [i]) (switchTo k₁ (.slot i), [i]) := ⟨.task .yield,trivial,by rw [exec, Tasks.exec, hy]; rfl⟩
  have hne : TaskRef.slot i ≠ k₁.current := by
    rw [hcur]
    exact TaskRef.noConfusion
  refine ⟨_,i,⟨hpool,hr₁.2.tail hyield⟩,Queue.switchTo_current _,?_⟩
  rw [Queue.switchTo_current, Queue.switchTo_tasks hne, if_pos rfl]

/-- At every point of a run from boot, the frames held by a live task are distinct, no other
task holds them, they are not reserved and not the kernel's own directory or tables, and
they are marked as used. The next call frees frames of dead tasks only, and `free_page` has
refused nothing. -/
theorem run_ownership (img : Image) (k₀ : Kernel) {k : Kernel} {live : List (Fin 64)} (hrun : Reachable img k₀ k live) :
    (∀ i ∈ live, ∀ s s' f, taskFrame k i s = some f → taskFrame k i s' = some f → s = s') ∧
    (∀ i ∈ live, ∀ j ∈ live, i ≠ j → ∀ s s' f, taskFrame k i s = some f → taskFrame k j s' ≠ some f) ∧
    (∀ i ∈ live, ∀ s f, taskFrame k i s = some f → ¬Reserved f ∧ f ≠ k.paging.kernelDirectory / pageSize ∧
      (∀ t < kernelPdeCount, f ≠ k.paging.pdTables t / pageSize) ∧ k.phys.pmm.testFrame f = true) ∧
    (∀ op : Op, op.Allowed (k, live) → ∀ s', exec img op (k, live) = some s' →
      (∀ f, k.phys.pmm.testFrame f = true → s'.1.phys.pmm.testFrame f = false →
        ∃ i ∈ live, (k.tasks (.slot i)).state = .dead ∧ ∃ s, taskFrame k i s = some f) ∧
      s'.1.phys.pmm.errors = k.phys.pmm.errors) ∧
    k.phys.pmm.errors = k₀.phys.pmm.errors := by
  obtain ⟨hsound,herr⟩ := hrun.sound
  obtain ⟨L,hown⟩ := hsound.owns
  refine ⟨?_,?_,?_,?_,herr⟩
  · intro i hi s s' f hs hs'
    have hl := (hown.taskFrame_label hi hs).symm.trans (hown.taskFrame_label hi hs')
    exact (Owner.task.inj (Option.some.inj hl)).2
  · intro i hi j hj hij s s' f hs hs'
    have hl := (hown.taskFrame_label hi hs).symm.trans (hown.taskFrame_label hj hs')
    exact hij (Option.some.inj (Owner.task.inj (Option.some.inj hl)).1)
  · intro i hi s f hs
    have hlabel := hown.taskFrame_label hi hs
    obtain ⟨kd,hkd,hLkd⟩ := hown.kernel.dir
    refine ⟨fun hr => ?_,fun hf => ?_,fun t ht hf => ?_,?_⟩
    · rw [hown.reserved f hr] at hlabel
      cases hlabel
    · rw [hf, hkd, Nat.mul_div_cancel _ (by decide), hLkd] at hlabel
      cases hlabel
    · obtain ⟨n,hn,hLn⟩ := hown.kernel.table t ht
      rw [hf, hn, Nat.mul_div_cancel _ (by decide), hLn] at hlabel
      cases hlabel
    · rw [hown.accounts.used, hlabel]
      rfl
  · intro op hop s' hexec
    obtain ⟨-,herr,hfreed⟩ := exec_sound hsound hop hexec
    refine ⟨fun f hf hf' => ?_,herr⟩
    obtain ⟨i,hi,_,hdead⟩ := hfreed f hf hf'
    exact ⟨i,hi,hdead⟩

/-- A kernel task and a Ring 3 task, created one after the other. -/
theorem run_ownership_two : ∃ k i j, i ≠ j ∧ Reachable flatImage idleKernel k [i, j] ∧
    ∃ f g, taskFrame k i .kstack = some f ∧ taskFrame k j .kstack = some g ∧ f ≠ g ∧ ¬Reserved f ∧ ¬Reserved g ∧
      k.phys.pmm.testFrame f = true ∧ k.phys.pmm.testFrame g = true := by
  have hpool : ∀ i, idleKernel.tasks (.slot i) = Task.zero := fun _ => rfl
  have hentry : 0x100000 < 0x400000 := by decide
  obtain ⟨i,k₁,-,hfirst,hused⟩ := create_starts flatImage (boot_sound hpool).1 (by decide) (by rw [boot_used]; decide)
    0x100000 []
  have hr₁ : Reachable flatImage idleKernel k₁ [i] := ⟨hpool,.single ⟨.task (.create 0x100000 []),trivial,hfirst⟩⟩
  obtain ⟨j,k₂,hj,hsecond,-⟩ := createUser_starts flatImage hr₁.sound.1 (by simp) (by rw [hused, boot_used]; decide)
    hentry []
  have hr₂ : Reachable flatImage idleKernel k₂ [i, j] :=
    ⟨hpool,hr₁.2.tail ⟨.task (.createUser 0x100000 []),hentry,by rw [exec, Tasks.exec, hsecond]; rfl⟩⟩
  have hij : i ≠ j := fun h => hj (List.mem_singleton.mpr h.symm)
  obtain ⟨-,hapart,hheld,-⟩ := run_ownership flatImage idleKernel hr₂
  obtain ⟨hresi,-,-,husedi⟩ := hheld i (by simp) .kstack _ rfl
  obtain ⟨hresj,-,-,husedj⟩ := hheld j (by simp) .kstack _ rfl
  refine ⟨k₂,i,j,hij,hr₂,_,_,rfl,rfl,fun heq => ?_,hresi,hresj,husedi,husedj⟩
  exact hapart i (by simp) j (by simp) hij .kstack .kstack _ rfl (congrArg some heq.symm)

end ApPa.System

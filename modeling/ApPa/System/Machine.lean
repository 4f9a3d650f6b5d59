import ApPa.Lib.Machine
import ApPa.Shell.ExecCommand
import ApPa.System.Host

/-! # The machine

The kernel with its file system and its shell in one memory: steps of the scheduler and of the tasks, calls of the file
system and programs started from files, in any order. Whatever the order, the file system stays a map of names that only
its own calls change, and the heap is free again after every step.

A step is not interrupted here, and a run of the machine is one in which that is so. The shell reads its lines inside the
keyboard handler, with interrupts disabled, but `sched_add_task` ends with `sti`: from there on, and before its `kfree`,
`elf_exec` goes on with interrupts enabled, so that the timer can switch to another task while the file buffer is still
allocated.
-/
namespace ApPa.System
open ByteMem Exec Fs Heap Klibc Memory Shell Tasks Words

inductive Act where
  | kernel (op : Op)
  | file (call : Call)
  /-- `cmd_exec`, with what its static buffer holds when it is called. -/
  | exec (argBuf : ℕ → UInt8) (args : List UInt8)

inductive Answer where
  | done
  | reply (r : Reply)
  | task (t : Option (Fin 64))

structure State (δ : Type) where
  host : Host δ
  live : List (Fin 64)

section
variable {δ : Type} (dev : BlockDevice (Mem × δ)) (fuel : ℕ) (img : Image)

def act : Act → State δ → Option (Answer × State δ)
  | .kernel op, s => (exec img op (s.host.kernel, s.live)).map fun r => (.done, ⟨{ s.host with kernel := r.1 },r.2⟩)
  | .file call, s =>
    let (r, host) := s.host.fs (Fs.exec dev call)
    some (.reply r, { s with host })
  | .exec argBuf args, s =>
    match cmdExec argBuf args with
    | none => some (.task none, s)
    | some call =>
      (elfExec dev fuel img (some (call.arg 0).1) (some (call.arg 0).1) (some call.arg) call.argc s.host).map fun r =>
        (.task r.1, ⟨r.2,s.live ++ r.1.toList⟩)

end

section
variable {δ : Type} {dev : BlockDevice (Mem × δ)}

/-- Code that runs keeps out of the heap and of the memory of the device. A line of the shell is a string of at most
255 characters. -/
def Act.Allowed (region : ℕ → Prop) (s : State δ) : Act → Prop
  | .kernel (.running m) => (Op.running m).Allowed (s.host.kernel, s.live) ∧ ∀ x, InHeap x ∨ region x → m x = s.host.mem x
  | .kernel (.elfExecMem _ _ _ argv argc) => ∀ m a, setupUserStackArgs m a argv argc ≠ none
  | .kernel op => op.Allowed (s.host.kernel, s.live)
  | .file _ => True
  | .exec _ args => 0 ∉ args ∧ args.length ≤ 255

def Steps (dev : BlockDevice (Mem × δ)) (region : ℕ → Prop) (fuel : ℕ) (img : Image) (s : State δ) (a : Act)
    (answer : Answer) (s' : State δ) : Prop :=
  a.Allowed region s ∧ act dev fuel img a s = some (answer, s')

structure InOrder (A : Attached dev) (s : State δ) : Prop where
  orderly : ∃ L, Orderly A s.host s.live L
  heap : HeapOk s.host.mem freeHeap

/-- What a step means for the map of names. -/
def ActSpec (m : NameMap) : Act → Answer → NameMap → Prop
  | .kernel _, .done, m' => m' = m
  | .file call, .reply r, m' => MapSpec m call r m'
  | .exec _ args, .task t, m' => m' = m ∧ (t ≠ none → ∃ w ws data, words isSpace args = w :: ws ∧
      m.find w = some (.file data) ∧ elfValidate (some (fileOf data)) data.length = 0)
  | _, _, _ => False

def State.names (A : Attached dev) (s : State δ) : NameMap := (A.volumeOf s.host).nodes

variable {A : Attached dev} {fuel : ℕ} {img : Image} {s s' : State δ} {answer : Answer}

theorem Act.Allowed.op {region : ℕ → Prop} {op : Op} (h : (Act.kernel op).Allowed region s) :
    op.Allowed (s.host.kernel, s.live) := by
  cases op with
  | task op => exact h
  | elfExecMem buf size taskName argv argc => trivial
  | allocPages count => trivial
  | running m => exact h.1

/-! ## Steps of the kernel -/

theorem exec_returns {k : Kernel} {live : List (Fin 64)} {op : Op} (img : Image) (hs : SchedOk k live)
    (hop : op.Allowed (k, live))
    (hargs : ∀ buf size name argv argc, op = .elfExecMem buf size name argv argc →
      ∀ m a, setupUserStackArgs m a argv argc ≠ none) : ∃ s', exec img op (k, live) = some s' := by
  cases op with
  | task op =>
    have hallow : op.Allowed k := by
      cases op with
      | exitMark => exact hop
      | reap => exact hop
      | _ => trivial
    obtain ⟨s',hs',-⟩ := Tasks.exec_ok img hs op hallow
    exact ⟨s',hs'⟩
  | elfExecMem buf size taskName argv argc =>
    have hload : ∃ r, elfExecMem img k buf size taskName argv argc = some r := by
      unfold elfExecMem
      split
      · split
        · exact ⟨_,rfl⟩
        · obtain ⟨res,k',hload⟩ := elfLoadInternal_returns img hs _ size _ (hargs _ _ _ _ _ rfl)
          exact ⟨_,hload⟩
      · exact ⟨_,rfl⟩
    obtain ⟨r,hr⟩ := hload
    exact ⟨_,by rw [exec, hr]; rfl⟩
  | allocPages count => exact ⟨_,rfl⟩
  | running m => exact ⟨_,rfl⟩

theorem InOrder.kernel {op : Op} {r : Kernel × List (Fin 64)} (h : InOrder A s) (hop : (Act.kernel op).Allowed A.region s)
    (hexec : exec img op (s.host.kernel, s.live) = some r) :
    InOrder A ⟨{ s.host with kernel := r.1 },r.2⟩ ∧ State.names A ⟨{ s.host with kernel := r.1 },r.2⟩ = s.names A := by
  obtain ⟨L,ho⟩ := h.orderly
  by_cases hrun : ∃ m, op = .running m
  · obtain ⟨m,rfl⟩ := hrun
    cases hexec
    have hvol : A.volumeOf (s.host.setMem m) = A.volumeOf s.host := volumeOf_setMem fun x hx => hop.2 x (Or.inr hx)
    refine ⟨⟨⟨L,ho.sched.withPhys _,Owns.running ho.owns hop.1,ho.dir,ho.region,?_⟩,?_⟩,congrArg Volume.nodes hvol⟩
    · exact (congrArg (Consistent dev.totalBlocks) hvol).mpr ho.volume
    · exact h.heap.congr fun x hx => hop.2 x (Or.inl hx)
  · have he := exec_effect ho.sched ho.owns hop.op hexec
    obtain ⟨L',hacc⟩ := he.accounted ho.sched ho.owns fun m hm => hrun ⟨m,hm⟩
    obtain ⟨ho',hvol⟩ := ho.with_kernel (he.sched ho.sched) hacc.owns hacc.toKeepsKernel
    refine ⟨⟨⟨L',ho'⟩,?_⟩,congrArg Volume.nodes hvol⟩
    exact h.heap.congr fun x hx => hacc.mem x (ho.inHeap_private hx).1

/-! ## All steps -/

theorem InOrder.file (h : InOrder A s) (call : Call) :
    InOrder A ⟨(s.host.fs (Fs.exec dev call)).2,s.live⟩ ∧ MapSpec (s.names A) call (s.host.fs (Fs.exec dev call)).1
      (State.names A ⟨(s.host.fs (Fs.exec dev call)).2,s.live⟩) := by
  obtain ⟨L,ho⟩ := h.orderly
  obtain ⟨hvol,hspec⟩ := A.exec_refines call s.host.fsState ho.volume
  exact ⟨⟨⟨L,ho.with_fs (ho.fs_frame call) hvol⟩,ho.heap_of_fs h.heap call⟩,hspec⟩

/-- `cmd_exec` returns, and only a valid program that is stored under the first word becomes a task. -/
theorem InOrder.exec (h : InOrder A s) (hfuel : 0x100000 < fuel) (img : Image) (argBuf : ℕ → UInt8) {args : List UInt8}
    (h0 : 0 ∉ args) (hlen : args.length ≤ 255) :
    ∃ t s', act dev fuel img (.exec argBuf args) s = some (.task t, s') ∧ InOrder A s' ∧
      ActSpec (s.names A) (.exec argBuf args) (.task t) (s'.names A) := by
  by_cases hnil : words isSpace args = []
  · refine ⟨none,s,by rw [act, cmdExec_none h0 hlen hnil],h,rfl,fun hne => absurd rfl hne⟩
  obtain ⟨call,hcmd,hcall⟩ := cmdExec_some h0 hlen hnil argBuf
  obtain ⟨w,ws,hwords⟩ := List.exists_cons_of_ne_nil hnil
  rw [hwords] at hcall
  have hargc : 0 < call.argc := by
    rw [hcall.argc, List.length_cons]
    omega
  have hname : (call.arg 0).1 = w := hcall.arg 0 hargc
  have hclean : cstr w = w := cstr_of_notMem (hname ▸ hcall.clean 0 hargc)
  have hsetup : ∀ m a, setupUserStackArgs m a (some call.arg) call.argc ≠ none :=
    fun m a => setupUserStackArgs_ne_none m a (by rw [hcall.argc]; omega) hcall.fits
  obtain ⟨L,ho⟩ := h.orderly
  obtain ⟨t,host,hexec,hdone⟩ := elfExec_returns ho h.heap hfuel img (call.arg 0).1 (call.arg 0).1 hsetup
  refine ⟨t,⟨host,s.live ++ t.toList⟩,by simp only [act, hcmd, hexec, Option.map_some],⟨hdone.orderly,hdone.heap⟩,
    congrArg Volume.nodes hdone.volume,fun ht => ?_⟩
  obtain ⟨data,hfind,hvalid⟩ := hdone.source ht
  rw [hname, hclean] at hfind
  exact ⟨w,ws,data,hwords,hfind,hvalid⟩

/-- The line `args` of `exec` starts the program `data`, with the words of the line as its arguments. -/
def Launches (dev : BlockDevice (Mem × δ)) (fuel : ℕ) (img : Image) (argBuf : ℕ → UInt8) (args data : List UInt8)
    (s : State δ) : Prop :=
  ∃ i s' argv n, act dev fuel img (.exec argBuf args) s = some (.task (some i), s') ∧ i ∉ s.live ∧ s'.live = s.live ++ [i] ∧
    n = min 16 (words isSpace args).length ∧ (∀ j < n, (argv j).1 = (words isSpace args).getD j []) ∧
    Started img s'.host.mem (s'.host.kernel.tasks (.slot i)) (fileOf data) argv n

/-- A free slot of the pool, and frames for the directory, the tables, the pages and the stacks of the program. -/
def Room (k : Kernel) (data : List UInt8) : Prop :=
  k.phys.pmm.usedFrames.toNat + Exec.need (wantedPages (fileOf data) data.length) + 3 ≤ totalFrames ∧ allocTcb k ≠ none

theorem InOrder.launches (h : InOrder A s) (hfuel : 0x100000 < fuel) (img : Image) (argBuf : ℕ → UInt8)
    {args data w : List UInt8} {ws : List (List UInt8)} (h0 : 0 ∉ args) (hlen : args.length ≤ 255)
    (hwords : words isSpace args = w :: ws) (hfind : (s.names A).find w = some (.file data)) (hmax : data.length ≤ 0x40000)
    (hwf : WellFormed (fileOf data) data.length) (hroom : Room s.host.kernel data) :
    Launches dev fuel img argBuf args data s := by
  have hne : words isSpace args ≠ [] := by
    rw [hwords]
    exact List.cons_ne_nil w ws
  obtain ⟨call,hcmd,hcall⟩ := cmdExec_some h0 hlen hne argBuf
  have hargc : 1 ≤ call.argc ∧ call.argc ≤ 64 := by
    rw [hcall.argc, hwords, List.length_cons]
    omega
  have hname : (call.arg 0).1 = w := by
    rw [hcall.arg 0 hargc.1, hwords]
    rfl
  have hclean : cstr (call.arg 0).1 = w := by
    rw [cstr_of_notMem (hcall.clean 0 hargc.1), hname]
  rw [← hclean] at hfind
  obtain ⟨L,ho⟩ := h.orderly
  obtain ⟨i,host,L',hexec,hi,-,-,-,hstarted⟩ := elfExec_starts ho h.heap hfuel img hfind hmax hwf hroom.1 hroom.2
    (call.arg 0).1 hargc.1 hargc.2 hcall.fits
  refine ⟨i,⟨host,s.live ++ [i]⟩,call.arg,call.argc,?_,hi,rfl,hcall.argc,hcall.arg,hstarted⟩
  simp only [act, hcmd, hexec, Option.map_some, Option.toList_some]

theorem act_returns (h : InOrder A s) (hfuel : 0x100000 < fuel) (img : Image) {a : Act} (ha : a.Allowed A.region s) :
    ∃ answer s', act dev fuel img a s = some (answer, s') := by
  cases a with
  | kernel op =>
    obtain ⟨L,ho⟩ := h.orderly
    have hargs : ∀ buf size name argv argc, op = .elfExecMem buf size name argv argc →
        ∀ m a, setupUserStackArgs m a argv argc ≠ none := by
      rintro buf size name argv argc rfl
      exact ha
    obtain ⟨r,hr⟩ := exec_returns img ho.sched ha.op hargs
    exact ⟨.done,_,by rw [act, hr]; rfl⟩
  | file call => exact ⟨_,_,rfl⟩
  | exec argBuf args =>
    obtain ⟨t,s',hact,-⟩ := h.exec hfuel img argBuf ha.1 ha.2
    exact ⟨_,_,hact⟩

theorem steps_refine (hfuel : 0x100000 < fuel) (s : State δ) (a : Act) (answer : Answer) (s' : State δ) (h : InOrder A s)
    (hstep : Steps dev A.region fuel img s a answer s') : InOrder A s' ∧ ActSpec (s.names A) a answer (s'.names A) := by
  obtain ⟨ha,hact⟩ := hstep
  cases a with
  | kernel op =>
    obtain ⟨r,hr,he⟩ := Option.map_eq_some_iff.mp hact
    cases he
    exact h.kernel ha hr
  | file call =>
    cases hact
    exact h.file call
  | exec argBuf args =>
    obtain ⟨t,s'',hact',hs',hspec⟩ := h.exec hfuel img argBuf ha.1 ha.2
    rw [hact'] at hact
    cases hact
    exact ⟨hs',hspec⟩

/-- Every run is a history of the map of names. -/
theorem run_refines (hfuel : 0x100000 < fuel) {acts : List Act} {answers : List Answer}
    (hrun : Machine.Allowed (Steps dev A.region fuel img) s acts answers s') (h : InOrder A s) :
    InOrder A s' ∧ Machine.Allowed ActSpec (s.names A) acts answers (s'.names A) :=
  hrun.refines (steps_refine hfuel) h

end

end ApPa.System

import ApPa.Memory.Access
import ApPa.Task.Lifecycle

/-! # Frames taken by a new task

How the three ways to create a task end: with nothing kept, or with a task whose control
block, directory and stack are ready and which has been queued.
-/
namespace ApPa.Tasks
open ByteMem Memory Word32

/-- The control block of slot `i` is filled in, and the frames it names are held for it. -/
structure Prepared (k : Kernel) (L : Frames) (i : Fin 64) (k₁ : Kernel) (L₁ : Frames) : Prop where
  apart : Apart i k k₁
  grows : Grows (· = .kernelTable) (some i) L k.phys L₁ k₁.phys
  stack : ∃ f, (k₁.tasks (.slot i)).kernelStack = f * pageSize ∧
    (k₁.tasks (.slot i)).esp0 = f * pageSize + taskKernelStackSize ∧ L₁ f = some (.task (some i) .kstack)
  dir : (k₁.tasks (.slot i)).pageDir ≠ 0 →
    ∃ n, (k₁.tasks (.slot i)).pageDir = n * pageSize ∧ DirOwned L₁ (some i) k₁.phys.mem n
  userStack : (k₁.tasks (.slot i)).pageDir = 0 → (k₁.tasks (.slot i)).userStack = 0
  directory : (k₁.tasks (.slot i)).cr3 = (k₁.tasks (.slot i)).pageDir

theorem Prepared.stack_ne_zero {k k₁ : Kernel} {L L₁ : Frames} {i : Fin 64} (h : Prepared k L i k₁ L₁) :
    (k₁.tasks (.slot i)).kernelStack ≠ 0 := by
  obtain ⟨f,hf,_,hL⟩ := h.stack
  rw [hf]
  exact Nat.mul_ne_zero (Nat.ne_of_gt (h.grows.accounts.pos hL)) (by decide)

theorem push_stack (m : Mem) {f x : ℕ} {frame : List ℕ} (hlen : frame.length ≤ 1024) (hx : x / pageSize ≠ f) :
    (push m (f * pageSize + taskKernelStackSize) frame).1 x = m x := by
  refine push_apply ?_ ?_
  · simp only [taskKernelStackSize]
    omega
  · simp only [taskKernelStackSize, pageSize] at *
    omega

theorem Launched.mem {k k₁ k' : Kernel} {L L₁ : Frames} {i : Fin 64} {frame : List ℕ} (hl : Launched k k₁ i frame k')
    (hp : Prepared k L i k₁ L₁) (hlen : frame.length ≤ 1024) {x : ℕ}
    (hx : L₁ (x / pageSize) ≠ some (.task (some i) .kstack)) : k'.phys.mem x = k₁.phys.mem x := by
  obtain ⟨f,_,hesp,hL⟩ := hp.stack
  rw [hl.phys, hesp]
  refine push_stack _ hlen ?_
  rintro rfl
  exact hx hL

/-- Queueing a task does not change what its directory opens: the first stack frame goes
to a frame that holds no entries. -/
theorem Launched.walk_eq {pg : Paging} {L : Frames} {tag : Option (Fin 64)} {k k₁ k' : Kernel} {i : Fin 64}
    {frame : List ℕ} {g n : ℕ} (hl : Launched k k₁ i frame k') (hlen : frame.length ≤ 1024)
    (hesp : (k₁.tasks (.slot i)).esp0 = g * pageSize + taskKernelStackSize) (hsp : UserSpace pg L tag k₁.phys.mem n)
    (hg : L g = none ∨ L g = some (.task tag .kstack)) (v : ℕ) :
    walk k'.phys.mem (n * pageSize) v = walk k₁.phys.mem (n * pageSize) v := by
  have hne : ∀ f o, L f = some o → o ≠ .task tag .kstack → f ≠ g := by
    rintro f o ho hs rfl
    rcases hg with hg | hg
    · rw [hg] at ho
      cases ho
    · rw [hg, Option.some.injEq] at ho
      exact hs ho.symm
  refine hsp.walk_keep (fun x o ho hstack _ => ?_) v
  rw [hl.phys, hesp]
  exact push_stack _ hlen (hne _ _ ho hstack)

/-- The label of the kernel stack of slot `i`. -/
def stackLedger (L : Frames) (i : Fin 64) (f : ℕ) : Frames := Function.update L f (some (.task (some i) .kstack))

theorem stackLedger_cases {L : Frames} {i : Fin 64} {f g : ℕ} {o : Owner} (h : stackLedger L i f g = some o) :
    g = f ∧ o = .task (some i) .kstack ∨ L g = some o := by
  rw [stackLedger] at h
  by_cases hg : g = f
  · rw [hg, Function.update_self, Option.some.injEq] at h
    exact Or.inl ⟨hg,h.symm⟩
  · rw [Function.update_of_ne hg] at h
    exact Or.inr h

/-- Slot `i` has a name, a kernel stack in frame `f` and the directory `dir`, 0 for none. -/
structure StackReady (k : Kernel) (L : Frames) (i : Fin 64) (f dir : ℕ) (k₁ : Kernel) : Prop where
  apart : Apart i k k₁
  phys : k₁.phys = ⟨k.phys.mem,k.phys.pmm.setFrame f⟩
  bound : f < totalFrames
  free : L f = none
  kernelStack : (k₁.tasks (.slot i)).kernelStack = f * pageSize
  esp0 : (k₁.tasks (.slot i)).esp0 = f * pageSize + taskKernelStackSize
  pageDir : (k₁.tasks (.slot i)).pageDir = dir
  cr3 : (k₁.tasks (.slot i)).cr3 = dir
  userStack : (k₁.tasks (.slot i)).userStack = 0

theorem StackReady.grows {k k₁ : Kernel} {L : Frames} {i : Fin 64} {f dir : ℕ} (h : StackReady k L i f dir k₁)
    (hacc : Accounts L k.phys.pmm) (W : Owner → Prop) : Grows W (some i) L k.phys (stackLedger L i f) k₁.phys := by
  rw [h.phys]
  exact Grows.take W (some i) hacc h.bound h.free .kstack fun _ _ => rfl

variable {img : Image} {k k₁ k' : Kernel} {live : List (Fin 64)} {L : Frames} {entry : ℕ} {name : List UInt8}
  {res : Option (Fin 64)} {i : Fin 64} {f : ℕ}

/-- The first steps of every creation: a slot, a name, and a frame for the kernel stack. -/
theorem stack_cases (hs : SchedOk k live) (hacc : Accounts L k.phys.pmm) (hi : allocTcb k = some i) (name : List UInt8)
    (u : Bool) :
    ((assignIdentity k i name u).phys.allocPage.1 = 0 ∧
        k.Unchanged (dropTcb { assignIdentity k i name u with phys := (assignIdentity k i name u).phys.allocPage.2 } i) ∧
        (dropTcb { assignIdentity k i name u with phys := (assignIdentity k i name u).phys.allocPage.2 } i).phys = k.phys ∧
        totalFrames ≤ k.phys.pmm.usedFrames.toNat) ∨
      ∃ f, (assignIdentity k i name u).phys.allocPage.1 = f * pageSize ∧ f * pageSize ≠ 0 ∧
        StackReady k L i f 0 (setStack { assignIdentity k i name u with
          phys := (assignIdentity k i name u).phys.allocPage.2 } i (f * pageSize)) := by
  have hzero := hs.free i (hs.allocTcb_not_mem hi)
  have h1 : Apart i k (assignIdentity k i name u) := Apart.assignIdentity k i name u
  have hphys : (assignIdentity k i name u).phys = k.phys := rfl
  rw [hphys]
  rcases Phys.alloc_cases hacc with ⟨he,hall⟩ | ⟨f,hpos,hf,hLf,he⟩
  · rw [he]
    exact Or.inl ⟨rfl,(h1.trans (Apart.withPhys _ i k.phys)).dropTcb.unchanged hzero,rfl,hacc.full hall⟩
  · rw [he]
    refine Or.inr ⟨f,rfl,Nat.mul_ne_zero (Nat.ne_of_gt hpos) (by decide),
      (h1.trans (Apart.withPhys _ i _)).trans (Apart.setTask _ i _),rfl,hf,hLf,?_,?_,?_,?_,?_⟩
    all_goals simp [setStack, assignIdentity, Kernel.setTask, hzero, Task.zero]

theorem taskCreate_cases (hs : SchedOk k live) (hacc : Accounts L k.phys.pmm)
    (hcall : taskCreate img k entry name = some (res, k')) :
    (res = none ∧ k.Unchanged k' ∧ k'.phys = k.phys ∧
        (allocTcb k = none ∨ totalFrames ≤ k.phys.pmm.usedFrames.toNat)) ∨
      ∃ i k₁ f, i ∉ live ∧ res = some i ∧ StackReady k L i f 0 k₁ ∧ Prepared k L i k₁ (stackLedger L i f) ∧
        Launched k k₁ i (kernelFrame img entry) k' := by
  unfold taskCreate at hcall
  cases hi : allocTcb k with
  | none =>
    rw [hi, Option.some.injEq, Prod.mk.injEq] at hcall
    obtain ⟨rfl,rfl⟩ := hcall
    exact Or.inl ⟨rfl,⟨rfl,rfl,rfl,rfl,rfl⟩,rfl,Or.inl rfl⟩
  | some i =>
    rw [hi] at hcall
    dsimp only at hcall
    rcases stack_cases hs hacc hi name false with ⟨hz,hun,hphys,hfull⟩ | ⟨f,hf,hz,hready⟩
    · rw [if_pos hz, Option.some.injEq, Prod.mk.injEq] at hcall
      obtain ⟨rfl,rfl⟩ := hcall
      exact Or.inl ⟨rfl,hun,hphys,Or.inr hfull⟩
    · rw [if_neg (hf ▸ hz), hf] at hcall
      have hfree := hs.allocTcb_not_mem hi
      have hprep : Prepared k L i _ (stackLedger L i f) := ⟨hready.apart,hready.grows hacc _,
        ⟨f,hready.kernelStack,hready.esp0,Function.update_self ..⟩,fun hd => absurd hready.pageDir hd,
        fun _ => hready.userStack,hready.cr3.trans hready.pageDir.symm⟩
      obtain ⟨rfl,hlaunch⟩ := hs.launched_of_call hfree hprep.apart hprep.stack_ne_zero hcall
      exact Or.inr ⟨i,_,f,hfree,rfl,hready,hprep,hlaunch⟩

theorem StackReady.setDirectory (h : StackReady k L i f 0 k₁) (dir top : ℕ) :
    StackReady k L i f dir (k₁.setTask (.slot i) { k₁.tasks (.slot i) with
      pageDir := dir, cr3 := dir, userStack := 0, userStackTop := top }) := by
  refine ⟨h.apart.trans (Apart.setTask k₁ i _),h.phys,h.bound,h.free,?_,?_,?_,?_,?_⟩
  · simp [Kernel.setTask, h.kernelStack]
  · simp [Kernel.setTask, h.esp0]
  · simp [Kernel.setTask]
  · simp [Kernel.setTask]
  · simp [Kernel.setTask]

theorem taskCreateUserMapped_cases {dir userEsp : ℕ} (hs : SchedOk k live) (hacc : Accounts L k.phys.pmm)
    (hcall : taskCreateUserMapped img k entry name dir dir userEsp = some (res, k')) :
    (res = none ∧ k.Unchanged k' ∧ k'.phys = k.phys ∧
        (allocTcb k = none ∨ totalFrames ≤ k.phys.pmm.usedFrames.toNat)) ∨
      ∃ i k₁ f, i ∉ live ∧ res = some i ∧ StackReady k L i f dir k₁ ∧
        Launched k k₁ i (userFrame img userEsp entry) k' := by
  unfold taskCreateUserMapped at hcall
  cases hi : allocTcb k with
  | none =>
    rw [hi, Option.some.injEq, Prod.mk.injEq] at hcall
    obtain ⟨rfl,rfl⟩ := hcall
    exact Or.inl ⟨rfl,⟨rfl,rfl,rfl,rfl,rfl⟩,rfl,Or.inl rfl⟩
  | some i =>
    rw [hi] at hcall
    dsimp only at hcall
    rcases stack_cases hs hacc hi name true with ⟨hz,hun,hphys,hfull⟩ | ⟨f,hf,hz,hready⟩
    · rw [if_pos hz, Option.some.injEq, Prod.mk.injEq] at hcall
      obtain ⟨rfl,rfl⟩ := hcall
      exact Or.inl ⟨rfl,hun,hphys,Or.inr hfull⟩
    · rw [if_neg (hf ▸ hz), hf] at hcall
      have hfree := hs.allocTcb_not_mem hi
      have hready' := hready.setDirectory dir userEsp
      obtain ⟨rfl,hlaunch⟩ := hs.launched_of_call hfree hready'.apart (by rw [hready'.kernelStack]; exact hz) hcall
      exact Or.inr ⟨i,_,f,hfree,rfl,hready',hlaunch⟩

/-! ## Tasks of the kernel image -/

/-- The pages that `task_create_user` opens below 16 MB. -/
def codePages (img : Image) (entry : ℕ) : List ℕ := (userCode img entry).map (· &&& pageFrameMask)

theorem userCode_lt (img : Image) (hentry : entry < 0x400000) : ∀ a ∈ userCode img entry, a < 0x401000 := by
  have hadd : add32 entry 0x1000 = entry + 0x1000 := add32_of_lt (by omega)
  intro a ha
  rw [userCode, hadd, List.mem_cons, List.mem_cons] at ha
  rcases ha with ha | ha | ha
  · omega
  · omega
  · exact Nat.lt_trans (img.below a (List.mem_cons_of_mem _ (List.mem_cons_of_mem _ ha))) (by decide)

/-- Pages below 16 MB are opened in the directory in frame `n`. -/
structure Opened (pg : Paging) (L : Frames) (tag : Option (Fin 64)) (p : Phys) (n : ℕ) (vs : List ℕ) (p' : Phys) :
    Prop where
  grows : Grows (· = .kernelTable) tag L p L p'
  space : UserSpace pg L tag p'.mem n
  closed : KernelClosed pg p.mem → KernelClosed pg p'.mem
  opens : ∀ ws, Opens p.mem n ws → Opens p'.mem n (ws ++ vs)
  targets : ∀ k < 1024, target p'.mem (n * pageSize) k = target p.mem (n * pageSize) k

theorem mapUserPage_opened {pg : Paging} {tag : Option (Fin 64)} {p : Phys} {n : ℕ} (hacc : Accounts L p.pmm)
    (hk : KernelMap pg p.mem L) (h : UserSpace pg L tag p.mem n) {l : List ℕ} (hl : ∀ a ∈ l, a < 0x401000) :
    Opened pg L tag p n (l.map (· &&& pageFrameMask)) (l.foldl (mapUserPage (n * pageSize)) p) := by
  induction l generalizing p with
  | nil => exact ⟨Grows.refl hacc,h,fun hc => hc,fun ws ho => by simpa using ho,fun _ _ => rfl⟩
  | cons a l ih =>
    have ha := hl a List.mem_cons_self
    have hpage : a &&& pageFrameMask = a / pageSize * pageSize := land_frame (by omega)
    have hframe : a / pageSize < totalFrames := by
      simp only [pageSize, totalFrames]
      omega
    have hle : a / pageSize * pageSize ≤ a := Nat.div_mul_le_self _ _
    have hi : pageDirIndex (a / pageSize * pageSize) < kernelPdeCount := by
      rw [pageDirIndex_eq]
      simp only [kernelPdeCount]
      omega
    have hu : (pagePresent ||| pageWritable ||| pageUser) &&& pageUser ≠ 0 := by decide
    have hone : mapUserPage (n * pageSize) p a = pagingMapPageIn p (n * pageSize) (a / pageSize * pageSize)
        (a / pageSize * pageSize) (pagePresent ||| pageWritable ||| pageUser) := by
      rw [mapUserPage, hpage]
    obtain ⟨hg,hs,htarget⟩ := h.mapLow hacc (a / pageSize * pageSize) hi hu
    have hadds := h.mapLow_adds hi hframe hu
    have hclosed := fun hc => h.mapLow_closed hi hframe hu hk hc (by omega)
    rw [← hone] at hg hs htarget hadds hclosed
    have hrest := ih hg.accounts (hg.kernelMap Owner.noConfusion hk) hs fun b hb => hl b (List.mem_cons_of_mem _ hb)
    refine ⟨hg.trans hrest.grows,hrest.space,fun hc => hrest.closed (hclosed hc),fun ws ho => ?_,
      fun j hj => (hrest.targets j hj).trans (htarget j hj)⟩
    have hall := hrest.opens _ (ho.adds hadds (isUser_pteValue _ hu))
    rwa [List.append_assoc, List.singleton_append, ← hpage] at hall

/-- The pages a task of the kernel image can reach: its code and its stack. The fifth frame
taken is the table of the stack page; without it the page is not mapped. -/
def userPages (img : Image) (entry used : ℕ) : List ℕ :=
  codePages img entry ++ if used + 5 ≤ totalFrames then [userStackVirt] else []

/-- A task of the kernel image, ready to be queued. -/
structure UserReady (img : Image) (k : Kernel) (L : Frames) (entry : ℕ) (i : Fin 64) (k₁ : Kernel) (L₁ : Frames)
    (n : ℕ) : Prop extends Prepared k L i k₁ L₁ where
  pageDir : (k₁.tasks (.slot i)).pageDir = n * pageSize
  space : UserSpace k.paging L₁ (some i) k₁.phys.mem n
  closed : KernelClosed k.paging k.phys.mem → KernelClosed k.paging k₁.phys.mem
  opens : KernelClosed k.paging k.phys.mem →
    Opens k₁.phys.mem n (userPages img entry k.phys.pmm.usedFrames.toNat)
  whole : Whole L₁ (some i) k₁.phys.mem n ↔ k.phys.pmm.usedFrames.toNat + 5 ≤ totalFrames
  stackOnly : ∀ g, L₁ g = some (.task (some i) .kstack) → (k₁.tasks (.slot i)).kernelStack = g * pageSize
  room : k.phys.pmm.usedFrames.toNat + 4 ≤ totalFrames

/-- `task_create_user` once the directory is filled in. -/
def finishUser (img : Image) (k : Kernel) (i : Fin 64) (entry dir kstackPhys : ℕ) : Option (Option (Fin 64) × Kernel) :=
  let (ustackPhys, phys) := k.phys.allocPage
  if ustackPhys = 0 then
    some (none, dropTcb { k with phys := (pagingFreeDirectory phys dir).freePage kstackPhys } i)
  else
    let phys := pagingMapPageIn (phys.clearPage ustackPhys) dir userStackVirt ustackPhys
      (pagePresent ||| pageWritable ||| pageUser)
    let k := k.setTask (.slot i) { k.tasks (.slot i) with userStack := ustackPhys, userStackTop := userStackTop }
    (launch { k with phys } i (userFrame img userStackTop entry)).map (some i, ·)

/-- The control block with its directory, whose code pages are open. -/
def withDirectory (img : Image) (k : Kernel) (i : Fin 64) (entry dir : ℕ) (phys : Phys) : Kernel :=
  { k.setTask (.slot i) { k.tasks (.slot i) with pageDir := dir, cr3 := dir } with
    phys := (userCode img entry).foldl (mapUserPage dir) phys }

theorem withDirectory_task (img : Image) (k : Kernel) (i : Fin 64) (entry dir : ℕ) (phys : Phys) :
    (withDirectory img k i entry dir phys).tasks (.slot i) =
      { k.tasks (.slot i) with pageDir := dir, cr3 := dir } := Function.update_self ..

theorem Apart.withDirectory (img : Image) (k : Kernel) (i : Fin 64) (entry dir : ℕ) (phys : Phys) :
    Apart i k (withDirectory img k i entry dir phys) := (Apart.setTask k i _).trans (Apart.withPhys _ i _)

/-- `task_create_user` once the kernel stack is set. -/
def buildUser (img : Image) (k : Kernel) (i : Fin 64) (entry kstackPhys : ℕ) : Option (Option (Fin 64) × Kernel) :=
  let (dir, phys) := pagingCloneDirectory k.paging k.phys
  if dir = 0 then some (none, dropTcb { k with phys := phys.freePage kstackPhys } i)
  else finishUser img (withDirectory img k i entry dir phys) i entry dir kstackPhys

theorem taskCreateUser_eq (hi : allocTcb k = some i) : taskCreateUser img k entry name =
    if (assignIdentity k i name true).phys.allocPage.1 = 0 then
      some (none, dropTcb { assignIdentity k i name true with phys := (assignIdentity k i name true).phys.allocPage.2 } i)
    else
      buildUser img (setStack { assignIdentity k i name true with
        phys := (assignIdentity k i name true).phys.allocPage.2 } i (assignIdentity k i name true).phys.allocPage.1) i
        entry (assignIdentity k i name true).phys.allocPage.1 := by
  rw [taskCreateUser, hi]
  rfl

/-- Slot `i` has its stack in frame `f` and a directory in frame `n` that opens its code. -/
structure DirectoryReady (img : Image) (k : Kernel) (L : Frames) (entry : ℕ) (i : Fin 64) (f n : ℕ) (k₁ : Kernel)
    (L₁ : Frames) : Prop where
  apart : Apart i k k₁
  grows : Grows (· = .kernelTable) (some i) L k.phys L₁ k₁.phys
  kernelStack : (k₁.tasks (.slot i)).kernelStack = f * pageSize
  esp0 : (k₁.tasks (.slot i)).esp0 = f * pageSize + taskKernelStackSize
  label : L₁ f = some (.task (some i) .kstack)
  pageDir : (k₁.tasks (.slot i)).pageDir = n * pageSize
  cr3 : (k₁.tasks (.slot i)).cr3 = n * pageSize
  space : UserSpace k.paging L₁ (some i) k₁.phys.mem n
  closed : KernelClosed k.paging k.phys.mem → KernelClosed k.paging k₁.phys.mem
  opens : KernelClosed k.paging k.phys.mem → Opens k₁.phys.mem n (codePages img entry)
  empty : target k₁.phys.mem (n * pageSize) (pageDirIndex userStackVirt) = none
  whole : Whole L₁ (some i) k₁.phys.mem n
  stack : ∀ g, L₁ g = some (.task (some i) .kstack) → g = f
  used : Ledger.count (Finset.range totalFrames) L₁ = k.phys.pmm.usedFrames.toNat + 3

/-- The ways `task_create_user` ends. -/
def UserEnding (img : Image) (k : Kernel) (live : List (Fin 64)) (L : Frames) (entry : ℕ) (res : Option (Fin 64))
    (k' : Kernel) : Prop :=
  (res = none ∧ k.Unchanged k' ∧ (∃ L', Undone L k.phys L' k'.phys) ∧
      (KernelClosed k.paging k.phys.mem → KernelClosed k.paging k'.phys.mem) ∧
      (∀ g, k'.phys.pmm.testFrame g = k.phys.pmm.testFrame g) ∧
      (allocTcb k = none ∨ totalFrames < k.phys.pmm.usedFrames.toNat + 4)) ∨
    ∃ i k₁ L₁ n, i ∉ live ∧ res = some i ∧ UserReady img k L entry i k₁ L₁ n ∧
      Launched k k₁ i (userFrame img userStackTop entry) k'

variable {n : ℕ} {L₁ : Frames}

theorem finishUser_cases (hs : SchedOk k live) (hi : i ∉ live) (hnot : ∀ f s, L f ≠ some (.task (some i) s))
    (hkacc : Accounts L k.phys.pmm)
    (hk : KernelMap k.paging k.phys.mem L) (h : DirectoryReady img k L entry i f n k₁ L₁)
    (hcall : finishUser img k₁ i entry (n * pageSize) (f * pageSize) = some (res, k')) :
    UserEnding img k live L entry res k' := by
  have hzero := hs.free i hi
  have hacc := h.grows.accounts
  unfold finishUser at hcall
  rcases Phys.alloc_cases hacc with ⟨he,hall⟩ | ⟨a,hapos,ha,hLa,he⟩
  · rw [he] at hcall
    dsimp only at hcall
    rw [if_pos rfl, Option.some.injEq, Prod.mk.injEq] at hcall
    obtain ⟨rfl,rfl⟩ := hcall
    have hun := (h.apart.trans (Apart.withPhys k₁ i
      ((pagingFreeDirectory k₁.phys (n * pageSize)).freePage (f * pageSize)))).dropTcb.unchanged hzero
    obtain ⟨_,_,hmem⟩ := pagingFreeDirectory_spec hacc h.space.owned
    refine Or.inl ⟨rfl,hun,h.grows.undoBoth hnot h.space.owned h.label,fun hc => ?_,fun g => ?_,Or.inr ?_⟩
    · have hclosed := h.closed hc
      rw [← hmem] at hclosed
      exact hclosed
    · exact h.grows.undoBoth_testFrame hnot h.space.owned h.label h.whole h.stack hkacc g
    · have hfull := hacc.full hall
      rw [hacc.count, h.used] at hfull
      omega
  · have hanz : a * pageSize ≠ 0 := Nat.mul_ne_zero (Nat.ne_of_gt hapos) (by decide)
    rw [he] at hcall
    dsimp only at hcall
    rw [if_neg hanz] at hcall
    obtain ⟨L₂,hg2,hsp2,hwhole,hstack,hopens⟩ := h.space.placePage userStackVirt (pagePresent ||| pageWritable ||| pageUser) hacc
      userStackVirt_index ha hLa (fun x hx => clear_apply k₁.phys.mem hx) (by decide)
    let p₂ := pagingMapPageIn ⟨fill k₁.phys.mem (a * pageSize) pageSize 0,k₁.phys.pmm.setFrame a⟩ (n * pageSize)
      userStackVirt (a * pageSize) (pagePresent ||| pageWritable ||| pageUser)
    let k₂ : Kernel := { k₁.setTask (.slot i) { k₁.tasks (.slot i) with
      userStack := a * pageSize, userStackTop := userStackTop } with phys := p₂ }
    have hself : k₂.tasks (.slot i) = { k₁.tasks (.slot i) with
        userStack := a * pageSize, userStackTop := userStackTop } := Function.update_self ..
    have hdir : (k₂.tasks (.slot i)).pageDir = n * pageSize := by rw [hself, h.pageDir]
    have hready : UserReady img k L entry i k₂ L₂ n := by
      refine ⟨⟨(h.apart.trans (Apart.setTask k₁ i _)).trans (Apart.withPhys _ i p₂),h.grows.trans (hg2 _),
        ⟨f,?_,?_,(hg2 fun _ => False).ledger.keeps _ _ h.label⟩,fun _ => ⟨n,hdir,hsp2.owned⟩,fun hd => ?_,?_⟩,hdir,hsp2,
        fun hc => ?_,fun hc => ?_,?_,fun g hg => ?_,?_⟩
      · rw [hself, h.kernelStack]
      · rw [hself, h.esp0]
      · rw [hdir] at hd
        have hn := h.space.owned.dir
        rw [(Nat.mul_eq_zero.mp hd).resolve_right (by decide), hacc.zero] at hn
        cases hn
      · rw [hself, h.cr3, h.pageDir]
      · exact (hg2 fun _ => False).kernelClosed not_false (h.grows.kernelMap Owner.noConfusion hk) (h.closed hc)
      · unfold userPages
        rcases hopens with ⟨hop,hroom⟩ | ⟨hop,_,hfull⟩
        · have hle := hroom h.empty
          rw [h.used] at hle
          rw [if_pos (by omega)]
          exact hop _ (h.opens hc)
        · rw [h.used] at hfull
          rw [if_neg (by omega), List.append_nil]
          exact hop _ (h.opens hc)
      · rw [hwhole h.empty h.whole, h.used]
      · rw [hself, h.stack g (hstack g hg)]
        exact h.kernelStack
      · have hlt := Ledger.count_lt_card (Finset.mem_range.mpr ha) hLa
        rw [h.used, Finset.card_range] at hlt
        exact hlt
    obtain ⟨rfl,hlaunch⟩ := hs.launched_of_call hi hready.apart hready.stack_ne_zero hcall
    exact Or.inr ⟨i,k₂,L₂,n,hi,rfl,hready,hlaunch⟩

theorem DirectoryReady.of_cloned (hnot : ∀ f s, L f ≠ some (.task (some i) s)) (hacc : Accounts L k.phys.pmm)
    (hk : KernelMap k.paging k.phys.mem L) (hentry : entry < 0x400000) (h : StackReady k L i f 0 k₁) {n t : ℕ} {L₂ : Frames}
    {p₂ : Phys} (hcl : Cloned k.paging (some i) (stackLedger L i f) k₁.phys n t L₂ p₂) :
    DirectoryReady img k L entry i f n (withDirectory img k₁ i entry (n * pageSize) p₂) L₂ := by
  have hg1 := h.grows hacc fun _ => False
  have hkm := hg1.kernelMap not_false hk
  have hL₁ : stackLedger L i f f = some (.task (some i) .kstack) := Function.update_self ..
  have hg2 := hcl.grows fun _ => False
  have hop := mapUserPage_opened hcl.accounts (hg2.kernelMap not_false hkm) (hcl.userSpace hkm)
    (userCode_lt img hentry)
  have hself := withDirectory_task img k₁ i entry (n * pageSize) p₂
  refine ⟨h.apart.trans (Apart.withDirectory img k₁ i entry (n * pageSize) p₂),
    (h.grows hacc _).trans ((hcl.grows _).trans hop.grows),?_,?_,hg2.ledger.keeps _ _ hL₁,?_,?_,hop.space,
    fun hc => ?_,fun hc => ?_,?_,fun g s hs hg => ?_,fun g hg => ?_,?_⟩
  · rw [hself, h.kernelStack]
  · rw [hself, h.esp0]
  · rw [hself]
  · rw [hself]
  · exact hop.closed (hg2.kernelClosed not_false hkm (hg1.kernelClosed not_false hk hc))
  · exact hop.opens [] (hcl.opens hkm (hg1.kernelClosed not_false hk hc))
  · refine (hop.targets _ (pageDirIndex_lt _)).trans ?_
    rw [target, hcl.entry_high _ userStackVirt_index (pageDirIndex_lt _)]
    exact if_neg (by decide)
  · rcases hcl.label_cases hg with ⟨rfl,he⟩ | ⟨rfl,he⟩ | hold
    · cases he
      exact (hop.targets 0 (by decide)).trans (hcl.dirFrame_eq .pt0)
    · cases he
      rw [dirFrame, Nat.mul_div_cancel _ (by decide)]
    · rcases stackLedger_cases hold with ⟨_,he⟩ | hold
      · exact absurd (Owner.task.inj he).2 hs
      · exact absurd hold (hnot g s)
  · rcases hcl.label_cases hg with ⟨_,he⟩ | ⟨_,he⟩ | hold
    · cases he
    · cases he
    · exact (stackLedger_cases hold).elim (fun h => h.1) fun hold => absurd hold (hnot g _)
  · exact hcl.count.trans (by rw [stackLedger, Ledger.count_take (Finset.mem_range.mpr h.bound) h.free, hacc.count])

theorem buildUser_cases (hs : SchedOk k live) (hi : i ∉ live) (hnot : ∀ f s, L f ≠ some (.task (some i) s))
    (hacc : Accounts L k.phys.pmm) (hk : KernelMap k.paging k.phys.mem L) (hentry : entry < 0x400000)
    (h : StackReady k L i f 0 k₁) (hcall : buildUser img k₁ i entry (f * pageSize) = some (res, k')) :
    UserEnding img k live L entry res k' := by
  have hg1 := h.grows hacc fun _ => False
  have hkm := hg1.kernelMap not_false hk
  have hpg : k₁.paging = k.paging := h.apart.paging
  have hmem : k₁.phys.mem = k.phys.mem := by rw [h.phys]
  have hL₁ : stackLedger L i f f = some (.task (some i) .kstack) := Function.update_self ..
  unfold buildUser at hcall
  rcases pagingCloneDirectory_spec hg1.accounts hkm (some i) with ⟨p₂,hclone,hg2,hfew⟩ | ⟨n,t,L₂,p₂,hclone,hcl⟩
  · rw [← hpg] at hclone
    rw [hclone] at hcall
    dsimp only at hcall
    rw [if_pos rfl, Option.some.injEq, Prod.mk.injEq] at hcall
    obtain ⟨rfl,rfl⟩ := hcall
    have hgrow := (h.grows hacc (· = .kernelTable)).trans (hg2 _)
    refine Or.inl ⟨rfl,(h.apart.trans (Apart.withPhys k₁ i (p₂.freePage (f * pageSize)))).dropTcb.unchanged (hs.free i hi),
      hgrow.undoStack hnot hgrow.accounts rfl rfl (fun _ _ ho => ho) (fun _ _ ho _ => ho) hL₁,fun hc => ?_,fun g => ?_,
      Or.inr ?_⟩
    · exact (hg1.trans (hg2 fun _ => False)).kernelClosed not_false hk hc
    · have hfree := hgrow.accounts.testFrame_free (n := f) (by simp [hL₁]) g
      rw [Bool.eq_iff_iff]
      refine hfree.trans ?_
      rw [hgrow.accounts.used, hacc.used, stackLedger]
      by_cases hgf : g = f
      · simp [hgf, h.free]
      · simp [hgf]
    · have hused := hg1.accounts.count
      rw [stackLedger, Ledger.count_take (Finset.mem_range.mpr h.bound) h.free, ← hacc.count] at hused
      omega
  · have hnz : n * pageSize ≠ 0 := Nat.mul_ne_zero (Nat.ne_of_gt hcl.nonzero) (by decide)
    rw [← hpg] at hclone
    rw [hclone] at hcall
    dsimp only at hcall
    rw [if_neg hnz] at hcall
    exact finishUser_cases hs hi hnot hacc hk (DirectoryReady.of_cloned hnot hacc hk hentry h hcl) hcall

/-- `task_create_user` gives everything back, or leaves a task ready and queued. -/
theorem taskCreateUser_cases (hs : SchedOk k live) (hacc : Accounts L k.phys.pmm)
    (hk : KernelMap k.paging k.phys.mem L) (hnot : ∀ i ∉ live, ∀ f s, L f ≠ some (.task (some i) s))
    (hentry : entry < 0x400000) (hcall : taskCreateUser img k entry name = some (res, k')) :
    UserEnding img k live L entry res k' := by
  cases hi : allocTcb k with
  | none =>
    rw [taskCreateUser, hi, Option.some.injEq, Prod.mk.injEq] at hcall
    obtain ⟨rfl,rfl⟩ := hcall
    exact Or.inl ⟨rfl,⟨rfl,rfl,rfl,rfl,rfl⟩,⟨L,Undone.refl hacc⟩,fun hc => hc,fun _ => rfl,Or.inl hi⟩
  | some i =>
    rw [taskCreateUser_eq hi] at hcall
    rcases stack_cases hs hacc hi name true with ⟨hz,hun,hphys,hfull⟩ | ⟨f,hf,hz,hready⟩
    · rw [if_pos hz, Option.some.injEq, Prod.mk.injEq] at hcall
      obtain ⟨rfl,rfl⟩ := hcall
      refine Or.inl ⟨rfl,hun,⟨L,?_⟩,fun hc => ?_,fun g => ?_,Or.inr (by omega)⟩
      · rw [hphys]
        exact Undone.refl hacc
      · rw [hphys]
        exact hc
      · rw [hphys]
    · rw [if_neg (hf ▸ hz), hf] at hcall
      have hfree := hs.allocTcb_not_mem hi
      exact buildUser_cases hs hfree (hnot i hfree) hacc hk hentry hready hcall

end ApPa.Tasks

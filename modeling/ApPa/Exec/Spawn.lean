import ApPa.Exec.Arguments
import ApPa.Exec.Loader
import ApPa.Task.Ownership

/-! # Starting a program

The ways `elf_exec_mem` ends. The user stack is mapped like a page of the file, after all
of these; a load is then one pass over a list of pages.
-/
namespace ApPa.Exec
open ByteMem Memory Tasks Word32

/-- The user stack as a page of the plan: cleared and writable. -/
def stackPhdr : Phdr := ⟨ptLoad,0,userStackVirt,0,pageSize,pfW⟩

/-- The pages that a load maps, the user stack last. -/
def wanted (f : File) (size : ℕ) : List (Phdr × ℕ) :=
  (plan f size 0 (readEhdr f).phnum).2 ++
    if (plan f size 0 (readEhdr f).phnum).1 then [(stackPhdr, userStackVirt)] else []

def wantedPages (f : File) (size : ℕ) : List ℕ := (wanted f size).map (·.2)

theorem userPage_stack : UserPage userStackVirt := ⟨by decide,by decide,by decide⟩

theorem wanted_userPage {f : File} {size : ℕ} : ∀ x ∈ wanted f size, UserPage x.2 := by
  intro x hx
  rcases List.mem_append.mp hx with hx | hx
  · exact (plan_planned hx).userPage
  · split at hx
    · rw [List.mem_singleton] at hx
      rw [hx]
      exact userPage_stack
    · cases hx

theorem fillPage_stack (f : File) (m : Mem) (a : ℕ) : fillPage f stackPhdr m a userStackVirt = fill m a pageSize 0 := by
  have hnone : copyRange stackPhdr userStackVirt = none := by
    rw [copyRange_eq, if_neg]
    simp [stackPhdr, userStackVirt, add32]
  unfold fillPage
  rw [hnone]

theorem segFlags_stack : segFlags stackPhdr = pagePresent ||| pageWritable ||| pageUser := by decide

/-- `elf_load_internal` once everything is mapped. -/
def startTask (img : Image) (k : Kernel) (f : File) (taskName : List UInt8) (dir ustackPhys : ℕ)
    (argv : Option (ℕ → Arg)) (argc : ℤ) : Option (Option (Fin 64) × Kernel) :=
  match setupUserStackArgs k.phys.mem ustackPhys argv argc with
  | none => none
  | some (userEsp, mem) =>
    match taskCreateUserMapped img { k with phys := { k.phys with mem } } (readEhdr f).entry taskName dir dir userEsp with
    | none => none
    | some (some i, k) => some (some i, k)
    | some (none, k) => some (none, { k with phys := pagingFreeDirectory k.phys dir })

variable {img : Image} {k k' : Kernel} {live : List (Fin 64)} {f : File} {size : ℕ} {name : List UInt8}
  {argv : Option (ℕ → Arg)} {argc : ℤ} {res : Option (Fin 64)} {L L₂ L₃ : Frames} {p₂ p₃ : Phys} {n t dir : ℕ}

theorem startTask_returns (img : Image) {p : Phys} {ustack : ℕ} (hs : SchedOk k live) (f : File) (name : List UInt8) (dir : ℕ)
    (hargs : setupUserStackArgs p.mem ustack argv argc ≠ none) :
    ∃ res k', startTask img { k with phys := p } f name dir ustack argv argc = some (res, k') := by
  obtain ⟨⟨esp,m⟩,hargs⟩ := Option.ne_none_iff_exists'.mp hargs
  obtain ⟨res,k₁,htask,_⟩ := (hs.withPhys ⟨m,p.pmm⟩).taskCreateUserMapped_ok img (readEhdr f).entry name dir dir esp
  unfold startTask
  rw [hargs]
  dsimp only
  rw [htask]
  cases res with
  | none => exact ⟨_,_,rfl⟩
  | some i => exact ⟨_,_,rfl⟩

theorem startTask_calls {p : Phys} {ustack : ℕ}
    (hcall : startTask img { k with phys := p } f name dir ustack argv argc = some (res, k')) :
    ∃ esp m k₁, setupUserStackArgs p.mem ustack argv argc = some (esp, m) ∧
      taskCreateUserMapped img { k with phys := ⟨m,p.pmm⟩ } (readEhdr f).entry name dir dir esp = some (res, k₁) ∧
      k' = if res = none then { k₁ with phys := pagingFreeDirectory k₁.phys dir } else k₁ := by
  unfold startTask at hcall
  split at hcall
  · cases hcall
  rename_i esp m hargs
  split at hcall
  · cases hcall
  · rename_i i k₁ htask
    cases hcall
    exact ⟨esp,m,k',hargs,htask,rfl⟩
  · rename_i k₁ htask
    cases hcall
    exact ⟨esp,m,k₁,hargs,htask,rfl⟩

/-- The directory is freed again, or a task that is given it is queued with its arguments in place. -/
theorem startTask_ending {p : Phys} {ustack : ℕ} (hs : SchedOk k live) (hacc : Accounts L p.pmm)
    (hcall : startTask img { k with phys := p } f name dir ustack argv argc = some (res, k')) :
    ∃ esp m, setupUserStackArgs p.mem ustack argv argc = some (esp, m) ∧
      ((res = none ∧ k.Unchanged k' ∧ k'.phys = pagingFreeDirectory ⟨m,p.pmm⟩ dir ∧
          (allocTcb k = none ∨ totalFrames ≤ p.pmm.usedFrames.toNat)) ∨
        ∃ i g k₁, i ∉ live ∧ res = some i ∧ StackReady { k with phys := ⟨m,p.pmm⟩ } L i g dir k₁ ∧
          Launched { k with phys := ⟨m,p.pmm⟩ } k₁ i (userFrame img esp (readEhdr f).entry) k') := by
  obtain ⟨esp,m,k₁,hargs,htask,rfl⟩ := startTask_calls hcall
  refine ⟨esp,m,hargs,?_⟩
  rcases taskCreateUserMapped_cases (hs.withPhys ⟨m,p.pmm⟩) hacc htask with
    ⟨rfl,hun,hphys,hfull⟩ | ⟨i,k₂,g,hi,rfl,hready,hl⟩
  · refine Or.inl ⟨rfl,⟨hun.paging,hun.cpu,hun.current,hun.readyHead,hun.tasks⟩,?_,hfull⟩
    exact congrArg (pagingFreeDirectory · dir) hphys
  · exact Or.inr ⟨i,g,k₂,hi,rfl,hready,hl⟩

theorem startTask_ok {p : Phys} {ustack : ℕ} (hs : SchedOk k live)
    (hcall : startTask img { k with phys := p } f name dir ustack argv argc = some (res, k')) :
    SchedOk.Spawned k live res k' := by
  obtain ⟨esp,m,k₁,_,htask,rfl⟩ := startTask_calls hcall
  obtain ⟨res',k₂,htask',hsp⟩ := (hs.withPhys ⟨m,p.pmm⟩).taskCreateUserMapped_ok img (readEhdr f).entry name dir dir esp
  obtain ⟨rfl,rfl⟩ := Prod.mk.inj (Option.some.inj (htask'.symm.trans htask))
  split
  · exact ⟨hsp.ok.withPhys _,hsp.fresh,hsp.paging,hsp.cpu,hsp.current,hsp.slice,hsp.tasks,hsp.states⟩
  · exact ⟨hsp.ok,hsp.fresh,hsp.paging,hsp.cpu,hsp.current,hsp.slice,hsp.tasks,hsp.states⟩

/-- A load maps the wanted pages and starts the task, or it frees what it has. -/
theorem elfLoadInternal_eq (hv : elfValidate (some f) size = 0)
    (hclone : pagingCloneDirectory k.paging k.phys = (dir, p₂)) (hd : dir ≠ 0) :
    elfLoadInternal img k f size name argv argc =
      if (plan f size 0 (readEhdr f).phnum).1 && (loadAll f dir p₂ (wanted f size)).1 then
        startTask img { k with phys := (loadAll f dir p₂ (wanted f size)).2 } f name dir
          (loadAll f dir p₂ (plan f size 0 (readEhdr f).phnum).2).2.allocPage.1 argv argc
      else some (none, { k with phys := pagingFreeDirectory (loadAll f dir p₂ (wanted f size)).2 dir }) := by
  rw [elfLoadInternal, if_neg (not_not.mpr hv), hclone]
  dsimp only
  rw [if_neg hd, loadSegments_eq, wanted]
  cases hplan : (plan f size 0 (readEhdr f).phnum).1 with
  | false => simp
  | true =>
    rw [if_pos rfl, loadAll_append]
    cases hload : loadAll f dir p₂ (plan f size 0 (readEhdr f).phnum).2 with
    | mk ok p =>
      cases ok with
      | false => simp
      | true =>
        simp only [Bool.and_self, ↓reduceIte]
        by_cases hz : p.allocPage.1 = 0
        · simp [loadAll, hz]
        · simp only [loadAll, hz, ↓reduceIte, Bool.and_self, fillPage_stack, segFlags_stack]
          rfl

/-- The file is refused, there is no directory for it, or its pages are loaded. -/
theorem elfLoadInternal_split (img : Image) (k : Kernel) (f : File) (size : ℕ) (name : List UInt8)
    (argv : Option (ℕ → Arg)) (argc : ℤ) :
    (∃ p, elfLoadInternal img k f size name argv argc = some (none, { k with phys := p })) ∨
      ∃ dir p ustack, elfLoadInternal img k f size name argv argc =
        startTask img { k with phys := p } f name dir ustack argv argc := by
  by_cases hv : elfValidate (some f) size = 0
  · cases hclone : pagingCloneDirectory k.paging k.phys with
    | mk dir p₂ =>
      by_cases hd : dir = 0
      · refine Or.inl ⟨p₂,?_⟩
        rw [elfLoadInternal, if_neg (not_not.mpr hv), hclone]
        exact if_pos hd
      · rw [elfLoadInternal_eq hv hclone hd]
        split
        · exact Or.inr ⟨_,_,_,rfl⟩
        · exact Or.inl ⟨_,rfl⟩
  · exact Or.inl ⟨k.phys,if_pos hv⟩

/-! ## What is held after a load -/

/-- The clone is filled with the wanted pages, as far as memory goes. Whether every frame
can be reached again is a matter of the plan and of the number of free frames. -/
structure Loaded (pg : Paging) (f : File) (size : ℕ) (L : Frames) (p : Phys) (n t : ℕ) (L₂ : Frames) (p₂ : Phys)
    (L₃ : Frames) (p₃ : Phys) : Prop where
  cloned : Cloned pg none L p n t L₂ p₂
  fills : Fills n L₂ p₂ L₃ p₃
  exact : Exact L₃ p₃.mem n ↔ NoLeak (totalFrames - p.pmm.usedFrames.toNat - 2) [] (wantedPages f size)

theorem progress_cloned {pg : Paging} {p : Phys} (h : Cloned pg none L p n t L₂ p₂) (hacc : Accounts L p.pmm)
    (hnot : ∀ g s, L g ≠ some (.task none s)) : Progress (totalFrames - p.pmm.usedFrames.toNat - 2) n [] L₂ p₂.mem := by
  refine ⟨fun g s hg => ?_,fun i => ?_,fun v _ => ?_,?_⟩
  · rw [h.dirFrame_eq]
    rcases h.label_cases hg with ⟨rfl,he⟩ | ⟨rfl,he⟩ | hold
    · cases he
      simp
    · cases he
      simp
    · exact absurd hold (hnot g s)
  · simp [h.dirFrame_eq]
  · simp [h.dirFrame_eq]
  · have hle := Tallies.count_le L₂
    have hcount := h.count
    have hzero : need [] = 0 := rfl
    rw [hacc.count]
    omega

theorem loaded_wanted {pg : Paging} {p : Phys} (f : File) (size : ℕ) (h : Cloned pg none L p n t L₂ p₂)
    (hacc : Accounts L p.pmm) (hnot : ∀ g s, L g ≠ some (.task none s)) :
    ∃ L₃, Loaded pg f size L p n t L₂ p₂ L₃ (loadAll f (n * pageSize) p₂ (wanted f size)).2 ∧
      ((plan f size 0 (readEhdr f).phnum).1 = true → (loadAll f (n * pageSize) p₂ (wanted f size)).1 = true →
        ∃ a < totalFrames,
          (loadAll f (n * pageSize) p₂ (plan f size 0 (readEhdr f).phnum).2).2.allocPage.1 = a * pageSize ∧
          ∃ i j, L₃ a = some (.task none (.page i j))) := by
  obtain ⟨L₃,hfills,hlast,_,hprog⟩ := loadAll_fills f wanted_userPage h.accounts h.dirOwned
  obtain ⟨hno,hleak⟩ := hprog _ _ (progress_cloned h hacc hnot)
  refine ⟨L₃,⟨h,hfills,fun hex => ?_,fun hn => (hno hn).1⟩,fun hplan hok => ?_⟩
  · by_contra hn
    exact hleak hn hex
  · obtain ⟨a,ha,halloc,hLa⟩ := hlast (plan f size 0 (readEhdr f).phnum).2 (stackPhdr, userStackVirt)
      (by rw [wanted, if_pos hplan]) hok
    exact ⟨a,ha,halloc,_,_,hLa⟩

theorem write_apply {m m' : Mem} {a i j x : ℕ} {o : Owner} (ha : L a = some (.task none (.page i j)))
    (hm : ∀ x, x / pageSize ≠ a → m' x = m x) (ho : L (x / pageSize) = some o) (hs : o ≠ .task none (.page i j)) :
    m' x = m x := by
  refine hm x ?_
  rintro rfl
  rw [ha, Option.some.injEq] at ho
  exact hs ho.symm

namespace Loaded
variable {pg : Paging} {p : Phys}

theorem userSpace (h : Loaded pg f size L p n t L₂ p₂ L₃ p₃) (hk : KernelMap pg p.mem L) :
    UserSpace pg L₃ none p₃.mem n := h.fills.userSpace (h.cloned.userSpace hk)

theorem grows (h : Loaded pg f size L p n t L₂ p₂ L₃ p₃) : Grows (fun _ => False) none L p L₃ p₃ :=
  (h.cloned.grows _).trans h.fills.grows

section
variable {m : Mem} {a i j : ℕ} (h : Loaded pg f size L p n t L₂ p₂ L₃ p₃) (ha : L₃ a = some (.task none (.page i j)))
  (hm : ∀ x, x / pageSize ≠ a → m x = p₃.mem x)
include h ha hm

theorem write : Loaded pg f size L p n t L₂ p₂ L₃ ⟨m,p₃.pmm⟩ := by
  have hkeep := fun g o ho => h.fills.grows.ledger.keeps g o ho
  have hmaps : ∀ x s, L₃ (x / pageSize) = some (.task none s) → s.Maps → m x = p₃.mem x := by
    intro x s hx hs
    refine write_apply ha hm hx ?_
    intro he
    rw [(Owner.task.inj he).2] at hs
    exact hs
  have hdir : dirFrame m (n * pageSize) = dirFrame p₃.mem (n * pageSize) := h.fills.owned.dirFrame_congr hmaps
  refine ⟨h.cloned,⟨⟨h.fills.grows.accounts,h.fills.grows.errors,h.fills.grows.ledger,fun x o ho hw hs => ?_⟩,
    h.fills.owned.congr (fun _ _ hf => hf) hmaps,fun l hl => ?_,fun x hx => ?_⟩,?_⟩
  · rw [← h.fills.grows.mem x o ho hw hs]
    exact write_apply ha hm (hkeep _ _ ho) (hs _)
  · rw [← h.fills.low l hl]
    exact entry_congr (Nat.lt_trans hl (by decide)) fun x hx => hmaps x .dir (hx ▸ h.fills.owned.dir) trivial
  · rw [← h.fills.pt0 x hx]
    exact write_apply ha hm (hkeep _ _ hx) (by simp)
  · rw [← h.exact]
    unfold Exact
    rw [hdir]

theorem write_walk (hk : KernelMap pg p.mem L) (v : ℕ) : walk m (n * pageSize) v = walk p₃.mem (n * pageSize) v := by
  exact (h.userSpace hk).walk_keep (fun x o ho _ hpage => write_apply ha hm ho (hpage i j)) v

end

end Loaded

/-- The task of slot `i` has its kernel stack in frame `g` and the loaded directory. -/
structure ElfReady (f : File) (size : ℕ) (k : Kernel) (L : Frames) (i : Fin 64) (g n t : ℕ) (L₂ : Frames) (p₂ : Phys)
    (L₃ : Frames) (p₃ : Phys) (k₁ : Kernel) : Prop where
  loaded : Loaded k.paging f size L k.phys n t L₂ p₂ L₃ p₃
  ready : StackReady { k with phys := p₃ } L₃ i g (n * pageSize) k₁
  opens : KernelClosed k.paging k.phys.mem → Opens p₃.mem n (wantedPages f size)

/-- The plan is refused, there is no control block, or memory may not suffice. -/
def Unloadable (f : File) (size : ℕ) (k : Kernel) : Prop :=
  (plan f size 0 (readEhdr f).phnum).1 = false ∨ allocTcb k = none ∨
    totalFrames < k.phys.pmm.usedFrames.toNat + 3 + 2 * (wanted f size).length

/-- The ways a load ends: refused, without a directory, with everything freed that can be
reached, or with a task. -/
def ElfEnding (img : Image) (f : File) (size : ℕ) (k : Kernel) (live : List (Fin 64)) (L : Frames)
    (res : Option (Fin 64)) (k' : Kernel) : Prop :=
  (res = none ∧ k' = k ∧ elfValidate (some f) size ≠ 0) ∨
    (elfValidate (some f) size = 0 ∧ (
      (res = none ∧ k.Unchanged k' ∧ (∀ W, Grows W none L k.phys L k'.phys) ∧
          totalFrames ≤ k.phys.pmm.usedFrames.toNat + 1) ∨
        (res = none ∧ k.Unchanged k' ∧ Unloadable f size k ∧
          ∃ n t L₂ p₂ L₃ p₃, Loaded k.paging f size L k.phys n t L₂ p₂ L₃ p₃ ∧
            k'.phys = pagingFreeDirectory p₃ (n * pageSize)) ∨
        ∃ i g n t L₂ p₂ L₃ p₃ k₁ esp, i ∉ live ∧ res = some i ∧ ElfReady f size k L i g n t L₂ p₂ L₃ p₃ k₁ ∧
          Launched k k₁ i (userFrame img esp (readEhdr f).entry) k'))

theorem startTask_cases {a i j : ℕ} (hs : SchedOk k live) (hk : KernelMap k.paging k.phys.mem L)
    (hload : Loaded k.paging f size L k.phys n t L₂ p₂ L₃ p₃) (ha : a < totalFrames)
    (hLa : L₃ a = some (.task none (.page i j)))
    (hopens : KernelClosed k.paging k.phys.mem → (∃ g < totalFrames, p₃.pmm.testFrame g = false) →
      Opens p₃.mem n (wantedPages f size))
    (hused : totalFrames ≤ p₃.pmm.usedFrames.toNat → Unloadable f size k)
    (hcall : startTask img { k with phys := p₃ } f name (n * pageSize) (a * pageSize) argv argc = some (res, k')) :
    (res = none ∧ k.Unchanged k' ∧ Unloadable f size k ∧
        ∃ n t L₂ p₂ L₃ p₃, Loaded k.paging f size L k.phys n t L₂ p₂ L₃ p₃ ∧
          k'.phys = pagingFreeDirectory p₃ (n * pageSize)) ∨
      ∃ i g n t L₂ p₂ L₃ p₃ k₁ esp, i ∉ live ∧ res = some i ∧ ElfReady f size k L i g n t L₂ p₂ L₃ p₃ k₁ ∧
        Launched k k₁ i (userFrame img esp (readEhdr f).entry) k' := by
  obtain ⟨esp,m,hargs,hend⟩ := startTask_ending hs hload.grows.accounts hcall
  have hm : ∀ x, x / pageSize ≠ a → m x = p₃.mem x := fun x hx => setupUserStackArgs_apply hargs ha hx
  have hload' := hload.write hLa hm
  rcases hend with ⟨rfl,hun,hphys,hfull⟩ | ⟨i',g,k₁,hi',rfl,hready,hl⟩
  · exact Or.inl ⟨rfl,hun,hfull.elim (fun hslot => Or.inr (Or.inl hslot)) hused,n,t,L₂,p₂,L₃,_,hload',hphys⟩
  · refine Or.inr ⟨i',g,n,t,L₂,p₂,L₃,_,k₁,esp,hi',rfl,⟨hload',hready,fun hc => ?_⟩,
      ⟨hl.phys,hl.paging,hl.cpu,hl.current,hl.slice,hl.others,hl.self,hl.esp,hl.ready⟩⟩
    refine (hopens hc ⟨g,hready.bound,?_⟩).congr (hload.write_walk hLa hm hk)
    rw [hload.grows.accounts.used, hready.free]
    rfl

theorem elfLoadInternal_cases (hs : SchedOk k live) (hacc : Accounts L k.phys.pmm)
    (hk : KernelMap k.paging k.phys.mem L) (hnot : ∀ g s, L g ≠ some (.task none s))
    (hcall : elfLoadInternal img k f size name argv argc = some (res, k')) : ElfEnding img f size k live L res k' := by
  by_cases hv : elfValidate (some f) size = 0
  · refine Or.inr ⟨hv,?_⟩
    rcases pagingCloneDirectory_spec hacc hk none with ⟨p₂,hclone,hg,hfew⟩ | ⟨n,t,L₂,p₂,hclone,hcl⟩
    · rw [elfLoadInternal, if_neg (not_not.mpr hv), hclone] at hcall
      dsimp only at hcall
      rw [if_pos rfl, Option.some.injEq, Prod.mk.injEq] at hcall
      obtain ⟨rfl,rfl⟩ := hcall
      exact Or.inl ⟨rfl,⟨rfl,rfl,rfl,rfl,rfl⟩,hg,hfew⟩
    · have hnz : n * pageSize ≠ 0 := Nat.mul_ne_zero (Nat.ne_of_gt hcl.nonzero) (by decide)
      obtain ⟨L₃,hload,hlast⟩ := loaded_wanted f size hcl hacc hnot
      have hcount : p₂.pmm.usedFrames.toNat = k.phys.pmm.usedFrames.toNat + 2 := by
        rw [hcl.accounts.count, hcl.count, hacc.count]
      have hfew : (loadAll f (n * pageSize) p₂ (wanted f size)).1 = false ∨
          totalFrames ≤ (loadAll f (n * pageSize) p₂ (wanted f size)).2.pmm.usedFrames.toNat → Unloadable f size k := by
        intro hbad
        by_contra hgood
        unfold Unloadable at hgood
        push Not at hgood
        have hroom : p₂.pmm.usedFrames.toNat + 2 * (wanted f size).length ≤ totalFrames := by omega
        obtain ⟨hok,hle⟩ := loadAll_room f (n := n) hcl.accounts hroom
        rcases hbad with hbad | hbad
        · rw [hok] at hbad
          cases hbad
        · omega
      rw [elfLoadInternal_eq hv hclone hnz] at hcall
      refine Or.inr ?_
      by_cases hok : ((plan f size 0 (readEhdr f).phnum).1 && (loadAll f (n * pageSize) p₂ (wanted f size)).1) = true
      · rw [if_pos hok] at hcall
        obtain ⟨hplan,hall⟩ := (Bool.and_eq_true_iff).mp hok
        obtain ⟨a,ha,halloc,i,j,hLa⟩ := hlast hplan hall
        rw [halloc] at hcall
        refine startTask_cases hs hk hload ha hLa (fun hc hroom => ?_) (fun hfull => hfew (Or.inr hfull)) hcall
        have hopens := loadAll_opens f wanted_userPage hcl.accounts (hcl.userSpace hk) (hcl.opens hk hc) hall hroom
        rwa [List.nil_append] at hopens
      · rw [if_neg hok, Option.some.injEq, Prod.mk.injEq] at hcall
        obtain ⟨rfl,rfl⟩ := hcall
        refine Or.inl ⟨rfl,⟨rfl,rfl,rfl,rfl,rfl⟩,?_,n,t,L₂,p₂,L₃,_,hload,rfl⟩
        rw [Bool.and_eq_true, not_and_or, Bool.not_eq_true, Bool.not_eq_true] at hok
        rcases hok with hplan | hload
        · exact Or.inl hplan
        · exact hfew (Or.inl hload)
  · rw [elfLoadInternal, if_pos hv, Option.some.injEq, Prod.mk.injEq] at hcall
    exact Or.inl ⟨hcall.1.symm,hcall.2.symm,hv⟩

/-! ## The scheduler and the frames -/

theorem Spawned.refl_phys (hs : SchedOk k live) (p : Phys) : SchedOk.Spawned k live none { k with phys := p } :=
  ⟨by simpa using hs.withPhys p,by simp,rfl,rfl,rfl,rfl,fun _ _ => rfl,fun _ _ => rfl⟩

theorem elfLoadInternal_ok (hs : SchedOk k live) (hcall : elfLoadInternal img k f size name argv argc = some (res, k')) :
    SchedOk.Spawned k live res k' := by
  rcases elfLoadInternal_split img k f size name argv argc with ⟨p,he⟩ | ⟨dir,p,ustack,he⟩
  · rw [he, Option.some.injEq, Prod.mk.injEq] at hcall
    obtain ⟨rfl,rfl⟩ := hcall
    exact Spawned.refl_phys hs p
  · exact startTask_ok hs (he.symm.trans hcall)

theorem elfLoadInternal_returns (img : Image) (hs : SchedOk k live) (f : File) (size : ℕ) (name : List UInt8)
    (hargs : ∀ m a, setupUserStackArgs m a argv argc ≠ none) :
    ∃ res k', elfLoadInternal img k f size name argv argc = some (res, k') := by
  rcases elfLoadInternal_split img k f size name argv argc with ⟨p,he⟩ | ⟨dir,p,ustack,he⟩
  · exact ⟨none,_,he⟩
  · rw [he]
    exact startTask_returns img hs f name dir (hargs p.mem ustack)

/-- A program whose pages fit into memory is started. -/
theorem elfExecMem_starts (img : Image) (hs : SchedOk k live) (h : Owns k live L) (hv : elfValidate (some f) size = 0)
    (hload : ¬Unloadable f size k) (name : List UInt8) (hargs : ∀ m a, setupUserStackArgs m a argv argc ≠ none) :
    ∃ i k', elfExecMem img k (some f) size (some name) argv argc = some (some i, k') := by
  obtain ⟨res,k',hcall⟩ := elfLoadInternal_returns img hs f size name hargs
  have hsize : size ≠ 0 := by
    rintro rfl
    cases hv
  have hexec : elfExecMem img k (some f) size (some name) argv argc = some (res, k') := by
    rw [elfExecMem, if_neg hsize, hcall]
  rcases elfLoadInternal_cases hs h.accounts h.kernel h.unattached hcall with
    ⟨_,_,hbad⟩ | ⟨_,⟨_,_,_,hfew⟩ | ⟨_,_,hbad,_⟩ | ⟨i,g,n,t,L₂,p₂,L₃,p₃,k₁,esp,hi,rfl,_⟩⟩
  · exact absurd hv hbad
  · exact absurd (Or.inr (Or.inr (by omega))) hload
  · exact absurd hbad hload
  · exact ⟨i,k',hexec⟩

theorem ElfReady.prepared {i : Fin 64} {g : ℕ} {k₁ : Kernel} (h : ElfReady f size k L i g n t L₂ p₂ L₃ p₃ k₁)
    (hnot : ∀ g s, L g ≠ some (.task none s)) :
    Prepared k L i k₁ (stackLedger (L₃.relabel (reassign none (.task (some i)))) i g) := by
  have hg := h.loaded.grows.attach hnot i
  have hfree : L₃.relabel (reassign none (.task (some i))) g = none := Ledger.relabel_eq_none.mpr h.ready.free
  have htake := Grows.take (fun _ => False) (some i) hg.accounts h.ready.bound hfree .kstack fun _ _ => rfl
  rw [← h.ready.phys] at htake
  have hd : DirOwned (stackLedger (L₃.relabel (reassign none (.task (some i)))) i g) (some i) k₁.phys.mem n := by
    rw [h.ready.phys]
    exact (h.loaded.fills.owned.attach i).take hfree .kstack
  refine ⟨(Apart.withPhys k i p₃).trans h.ready.apart,(hg.trans htake).mono fun _ hf => hf.elim,
    ⟨g,h.ready.kernelStack,h.ready.esp0,Function.update_self ..⟩,fun _ => ⟨n,h.ready.pageDir,hd⟩,fun _ => h.ready.userStack,
    h.ready.cr3.trans h.ready.pageDir.symm⟩

theorem elfLoadInternal_creation (hs : SchedOk k live) (h : Owns k live L)
    (hcall : elfLoadInternal img k f size name argv argc = some (res, k')) : Creation k live L res k' := by
  rcases elfLoadInternal_cases hs h.accounts h.kernel h.unattached hcall with
    ⟨rfl,rfl,_⟩ | ⟨_,⟨rfl,hun,hg,_⟩ | ⟨rfl,hun,_,n,t,L₂,p₂,L₃,p₃,hload,hphys⟩ |
      ⟨i,g,n,t,L₂,p₂,L₃,p₃,k₁,esp,hi,rfl,hready,hl⟩⟩
  · exact h.creation_none ⟨rfl,rfl,rfl,rfl,rfl⟩ rfl
  · have hg := hg fun _ => False
    refine .failed hun ⟨hg.accounts,hg.errors,fun _ _ ho => ho,fun _ _ ho => Or.inl ho,fun x o ho _ => ?_⟩
      (hg.kernelClosed not_false h.kernel h.closed)
    exact hg.mem x o ho not_false (not_mine h.unattached ho)
  · obtain ⟨_,_,hmem⟩ := pagingFreeDirectory_spec hload.grows.accounts hload.fills.owned
    have hgrows : Grows (· = .kernelTable) none L k.phys L₃ p₃ := hload.grows.mono fun _ hf => hf.elim
    obtain ⟨L',hu⟩ := hgrows.undoDirectory h.unattached hload.fills.owned
    rw [← hphys] at hmem hu
    refine .failed hun hu ?_
    rw [hmem]
    exact hload.grows.kernelClosed not_false h.kernel h.closed
  · refine .launched hi (hready.prepared h.unattached) hl (by simp [userFrame]) ?_
    rw [hready.ready.phys]
    exact hready.loaded.grows.kernelClosed not_false h.kernel h.closed

theorem elfExecMem_eq {buf : Option File} {taskName : Option (List UInt8)}
    (hcall : elfExecMem img k buf size taskName argv argc = some (res, k')) :
    (res = none ∧ k' = k) ∨ ∃ f name, buf = some f ∧ taskName = some name ∧ size ≠ 0 ∧
      elfLoadInternal img k f size name argv argc = some (res, k') := by
  unfold elfExecMem at hcall
  split at hcall
  · split at hcall
    · rw [Option.some.injEq, Prod.mk.injEq] at hcall
      exact Or.inl ⟨hcall.1.symm,hcall.2.symm⟩
    · rename_i hz
      exact Or.inr ⟨_,_,rfl,rfl,hz,hcall⟩
  · rw [Option.some.injEq, Prod.mk.injEq] at hcall
    exact Or.inl ⟨hcall.1.symm,hcall.2.symm⟩

theorem elfExecMem_creation {buf : Option File} {taskName : Option (List UInt8)} (hs : SchedOk k live) (h : Owns k live L)
    (hcall : elfExecMem img k buf size taskName argv argc = some (res, k')) :
    SchedOk.Spawned k live res k' ∧ Creation k live L res k' := by
  rcases elfExecMem_eq hcall with ⟨rfl,rfl⟩ | ⟨f,name,_,_,_,hload⟩
  · exact ⟨hs.spawned_full,h.creation_none ⟨rfl,rfl,rfl,rfl,rfl⟩ rfl⟩
  · exact ⟨elfLoadInternal_ok hs hload,elfLoadInternal_creation hs h hload⟩

end ApPa.Exec

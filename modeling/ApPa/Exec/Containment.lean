import ApPa.Exec.FileBounds
import ApPa.System.Run

/-! # What a loaded program can reach

A program sees the kernel's part of memory through the kernel's own tables and a copy of
one of them, and everything above it in frames that were free. Its load writes to no frame
that was in use.
-/
namespace ApPa.Exec
open ByteMem Memory ApPa.System Tasks

theorem pageDirIndex_low {v : ℕ} (hv : v < 0x1000000) : pageDirIndex v < kernelPdeCount := by
  rw [pageDirIndex_eq]
  simp only [kernelPdeCount]
  omega

theorem supervisor_entry (f : ℕ) :
    isPresent (f * pageSize + 3) ∧ ¬isUser (f * pageSize + 3) ∧ (f * pageSize + 3) / pageSize = f := by
  rw [isPresent_iff, isUser_iff]
  simp only [pageSize]
  omega

theorem target_supervisor {m : Mem} {b i f : ℕ} (h : entry m b i = f * pageSize + 3) : target m b i = some f := by
  obtain ⟨hp,_,hdiv⟩ := supervisor_entry f
  rw [target_eq, h, if_pos hp, hdiv]

theorem walk_lt {m : Mem} {dir v : ℕ} {e : ℕ × ℕ} (h : walk m dir v = some e) : e.2 < 2 ^ 32 := by
  unfold walk at h
  dsimp only at h
  split at h
  · split at h
    · cases h
      exact entry_lt m _ _
    · cases h
  · cases h

theorem kernelWalk_eq {pg : Paging} {m : Mem} {L : Frames} (hk : KernelMap pg m L) {v : ℕ} (hv : v < 0x1000000) :
    walk m pg.kernelDirectory v =
      if isPresent (entry m (pg.pdTables (pageDirIndex v)) (pageTableIndex v)) then
        some (pg.pdTables (pageDirIndex v) + 3, entry m (pg.pdTables (pageDirIndex v)) (pageTableIndex v))
      else none := by
  have hl := pageDirIndex_low hv
  obtain ⟨kd,hkd,_⟩ := hk.dir
  obtain ⟨kt,hkt,_⟩ := hk.table _ hl
  have hentry := hk.entries _ hl
  rw [hkd, hkt] at hentry
  rw [hkd, walk_eq, target_supervisor hentry, Option.bind_some, hkt, hentry]

theorem kernelWalk_congr {pg : Paging} {m m' : Mem} {L : Frames} (hk : KernelMap pg m L)
    (hm : ∀ x o, L (x / pageSize) = some o → m' x = m x) {v : ℕ} (hv : v < 0x1000000) :
    walk m' pg.kernelDirectory v = walk m pg.kernelDirectory v := by
  obtain ⟨kd,hkd,hLkd⟩ := hk.dir
  obtain ⟨kt,hkt,hLkt⟩ := hk.table _ (pageDirIndex_low hv)
  have hk' : KernelMap pg m' L := by
    refine ⟨hk.dir,hk.table,fun i hi => ?_,hk.inj⟩
    rw [← hk.entries i hi, hkd]
    exact entry_congr (Nat.lt_trans hi (by decide)) fun x hx => hm x _ (hx ▸ hLkd)
  rw [kernelWalk_eq hk hv, kernelWalk_eq hk' hv, hkt, entry_congr (pageTableIndex_lt v) fun x hx => hm x _ (hx ▸ hLkt)]

section
variable {pg : Paging} {f : File} {size n t : ℕ} {L L₂ L₃ : Frames} {p p₂ p₃ : Phys}

/-- Entry `l` of the loaded directory leads to a table with the entries of the kernel's. -/
theorem Loaded.table_low (h : Loaded pg f size L p n t L₂ p₂ L₃ p₃) (hk : KernelMap pg p.mem L) {l : ℕ}
    (hl : l < kernelPdeCount) :
    ∃ g, entry p₃.mem (n * pageSize) l = g * pageSize + 3 ∧
      ∀ j < 1024, entry p₃.mem (g * pageSize) j = entry p.mem (pg.pdTables l) j := by
  by_cases hzero : l = 0
  · -- the private copy of the first table
    subst hzero
    refine ⟨t,(h.fills.low 0 hl).trans h.cloned.entry_zero,fun j hj => ?_⟩
    rw [← h.cloned.table_zero j hj]
    exact entry_congr hj fun x hx => h.fills.pt0 x (hx ▸ h.cloned.label_pt0)
  · obtain ⟨g,hg,hLg⟩ := hk.table l hl
    refine ⟨g,?_,fun j hj => ?_⟩
    · rw [h.fills.low l hl, h.cloned.entry_low l (Nat.pos_of_ne_zero hzero) hl, hk.entries l hl, hg]
    · rw [hg]
      exact entry_congr hj fun x hx => h.grows.mem x .kernelTable (hx ▸ hLg) not_false (by simp)

/-- Below 16 MB a walk ends at the entry that the kernel's own walk ends at. -/
theorem Loaded.walk_low (h : Loaded pg f size L p n t L₂ p₂ L₃ p₃) (hk : KernelMap pg p.mem L) {v : ℕ}
    (hv : v < 0x1000000) :
    ∃ pde, ¬isUser pde ∧
      walk p₃.mem (n * pageSize) v = (walk p.mem pg.kernelDirectory v).map fun e => (pde, e.2) := by
  obtain ⟨g,hg,hentries⟩ := h.table_low hk (pageDirIndex_low hv)
  refine ⟨g * pageSize + 3,(supervisor_entry g).2.1,?_⟩
  rw [kernelWalk_eq hk hv, walk_eq, target_supervisor hg, Option.bind_some, hentries _ (pageTableIndex_lt v), hg]
  split
  · rfl
  · rfl

/-- Above 16 MB a walk ends in a frame that was free. -/
theorem Loaded.walk_high (h : Loaded pg f size L p n t L₂ p₂ L₃ p₃) (hacc : Accounts L p.pmm)
    (hnot : ∀ g s, L g ≠ some (.task none s)) {v : ℕ} {e : ℕ × ℕ} (hi : kernelPdeCount ≤ pageDirIndex v)
    (hwalk : walk p₃.mem (n * pageSize) v = some e) :
    e.2 / pageSize < totalFrames ∧ p.pmm.testFrame (e.2 / pageSize) = false := by
  rw [walk_eq, Option.bind_eq_some_iff] at hwalk
  obtain ⟨g,hg,hwalk⟩ := hwalk
  have hpage : dirFrame p₃.mem (n * pageSize) (.page (pageDirIndex v) (pageTableIndex v)) = some (e.2 / pageSize) := by
    rw [dirFrame, if_pos ⟨⟨hi,pageDirIndex_lt v⟩,pageTableIndex_lt v⟩, hg, Option.bind_some, target_eq]
    split at hwalk
    · rename_i hp
      cases hwalk
      rw [if_pos hp]
    · cases hwalk
  have hlabel := h.fills.owned.owned _ _ hpage
  refine ⟨h.fills.grows.accounts.lt hlabel,?_⟩
  rcases h.grows.ledger.fresh _ _ hlabel with hold | ⟨hfree,_⟩
  · exact absurd hold (hnot _ _)
  · rw [hacc.used, hfree]
    rfl

end

variable {img : Image} {k k' : Kernel} {live : List (Fin 64)} {L : Frames} {i : Fin 64}

theorem elfExecMem_loaded {f : File} {size : ℕ} {taskName : Option (List UInt8)} {argv : Option (ℕ → Arg)} {argc : ℤ}
    (hs : SchedOk k live) (h : Owns k live L)
    (hcall : elfExecMem img k (some f) size taskName argv argc = some (some i, k')) :
    ∃ n t L₂ p₂ L₃ p₃, Loaded k.paging f size L k.phys n t L₂ p₂ L₃ p₃ ∧
      k'.paging = k.paging ∧ (k'.tasks (.slot i)).cr3 = n * pageSize ∧
      (∀ v, walk k'.phys.mem (n * pageSize) v = walk p₃.mem (n * pageSize) v) ∧
      ∀ x o, L (x / pageSize) = some o → k'.phys.mem x = k.phys.mem x := by
  rcases elfExecMem_eq hcall with ⟨hnone,_⟩ | ⟨f,name,hf,_,_,hload⟩
  · cases hnone
  cases hf
  rcases elfLoadInternal_cases hs h.accounts h.kernel h.unattached hload with
    ⟨hnone,_⟩ | ⟨_,⟨hnone,_⟩ | ⟨hnone,_⟩ | ⟨j,g,n,t,L₂,p₂,L₃,p₃,k₁,esp,hj,hres,hready,hl⟩⟩
  · cases hnone
  · cases hnone
  · cases hnone
  cases hres
  have hmem : k₁.phys.mem = p₃.mem := by rw [hready.ready.phys]
  have hsp := hready.loaded.userSpace h.kernel
  rw [← hmem] at hsp
  have hlen : (userFrame img esp (readEhdr f).entry).length ≤ 1024 := by simp [userFrame]
  refine ⟨n,t,L₂,p₂,L₃,p₃,hready.loaded,hl.paging,?_,fun v => ?_,fun x o ho => ?_⟩
  · rw [hl.self]
    exact hready.ready.cr3
  · rw [hl.walk_eq hlen hready.ready.esp0 hsp (Or.inl hready.ready.free), hmem]
  · have hkept := hready.loaded.grows.ledger.keeps _ _ ho
    rw [← hready.loaded.grows.mem x o ho not_false (not_mine h.unattached ho), ← hmem, hl.phys, hready.ready.esp0]
    exact push_stack _ hlen (Ledger.ne_of_free hkept hready.ready.free)

/-- In a kernel whose tables are closed to Ring 3, a started program reads the kernel's part
of memory through the kernel's own map and cannot use it, it reaches frames above 16 MB that
were free, and its start has written to no frame in use. -/
theorem elfExecMem_contained {k₀ : Kernel} (hrun : Reachable img k₀ k live)
    (hsup : ∀ l < kernelPdeCount, ∀ j < pagesPerTable, ¬isUser (entry k.phys.mem (k.paging.pdTables l) j))
    (f : File) (size : ℕ) (taskName : Option (List UInt8)) (argv : Option (ℕ → Arg)) (argc : ℤ)
    (hcall : elfExecMem img k (some f) size taskName argv argc = some (some i, k')) :
    (∀ v < 0x1000000,
      Memory.translate k'.phys.mem (k'.tasks (.slot i)).cr3 v = Memory.translate k'.phys.mem k'.paging.kernelDirectory v ∧
      Memory.translate k'.phys.mem (k'.tasks (.slot i)).cr3 v = Memory.translate k.phys.mem k.paging.kernelDirectory v ∧
      ∀ e, walk k'.phys.mem (k'.tasks (.slot i)).cr3 v = some e → ¬isUser e.1 ∧ ¬isUser e.2) ∧
    (∀ v < 2 ^ 32, Accessible k'.phys.mem (k'.tasks (.slot i)).cr3 v → 0x1000000 ≤ v ∧
      ∃ a, Memory.translate k'.phys.mem (k'.tasks (.slot i)).cr3 v = some a ∧ a / pageSize < totalFrames ∧
        k.phys.pmm.testFrame (a / pageSize) = false) ∧
    ∀ x, k.phys.pmm.testFrame (x / pageSize) = true → k'.phys.mem x = k.phys.mem x := by
  obtain ⟨⟨hsched,L,hown⟩,_⟩ := hrun.sound
  obtain ⟨n,t,L₂,p₂,L₃,p₃,hload,hpg,hcr3,hwalk,hmem⟩ := elfExecMem_loaded hsched hown hcall
  have hlow : ∀ v < 0x1000000, ∃ pde, ¬isUser pde ∧ walk k'.phys.mem (k'.tasks (.slot i)).cr3 v =
      (walk k.phys.mem k.paging.kernelDirectory v).map fun e => (pde, e.2) := by
    intro v hv
    rw [hcr3, hwalk v]
    exact hload.walk_low hown.kernel hv
  have hclosed : ∀ v < 0x1000000, ∀ e, walk k'.phys.mem (k'.tasks (.slot i)).cr3 v = some e → ¬isUser e.1 ∧ ¬isUser e.2 := by
    intro v hv e he
    obtain ⟨pde,hpde,hlow⟩ := hlow v hv
    rw [hlow, kernelWalk_eq hown.kernel hv] at he
    split at he
    · cases he
      exact ⟨hpde,hsup _ (pageDirIndex_low hv) _ (pageTableIndex_lt v)⟩
    · cases he
  refine ⟨fun v hv => ?_,fun v hv hacc => ?_,fun x hx => ?_⟩
  · obtain ⟨pde,_,hlow⟩ := hlow v hv
    have htranslate : Memory.translate k'.phys.mem (k'.tasks (.slot i)).cr3 v =
        Memory.translate k.phys.mem k.paging.kernelDirectory v := by
      rw [Memory.translate, Memory.translate, hlow, Option.map_map]
      rfl
    refine ⟨?_,htranslate,hclosed v hv⟩
    rw [htranslate, hpg, Memory.translate, Memory.translate, kernelWalk_congr hown.kernel hmem hv]
  · obtain ⟨e,he,hu,_⟩ := hacc
    have hge : 0x1000000 ≤ v := by
      by_contra hlt
      exact (hclosed v (Nat.not_le.mp hlt) e he).1 hu
    have hi : kernelPdeCount ≤ pageDirIndex v := by
      rw [pageDirIndex_eq]
      simp only [kernelPdeCount]
      omega
    have he₃ := he
    rw [hcr3, hwalk v] at he₃
    obtain ⟨hlt,hfree⟩ := hload.walk_high hown.accounts hown.unattached hi he₃
    have hdiv : (pageFrame e.2 + v % pageSize) / pageSize = e.2 / pageSize := by
      rw [pageFrame_eq (walk_lt he)]
      simp only [pageSize]
      omega
    refine ⟨hge,pageFrame e.2 + v % pageSize,?_,?_⟩
    · rw [Memory.translate, he]
      rfl
    · rw [hdiv]
      exact ⟨hlt,hfree⟩
  · rw [hown.accounts.used] at hx
    obtain ⟨o,ho⟩ := Option.isSome_iff_exists.mp hx
    exact hmem x o ho

/-- The program is started right after boot. -/
theorem elfExecMem_contained_tiny : ∃ i k', elfExecMem flatImage (boot idleKernel) (some tinyElf) 84 (some []) none 0 =
    some (some i, k') ∧ ∀ x, (boot idleKernel).phys.pmm.testFrame (x / pageSize) = true →
      k'.phys.mem x = (boot idleKernel).phys.mem x := by
  have hpool : ∀ i, idleKernel.tasks (.slot i) = Task.zero := fun _ => rfl
  obtain ⟨i,k',hcall⟩ := boot_exec flatImage hpool tinyElf 84 (by decide +kernel) (by decide +kernel)
    (by decide +kernel) [] none 0 fun _ _ => Option.some_ne_none _
  obtain ⟨L₀,hL₀,_⟩ := boot_booted idleKernel
  have h := elfExecMem_contained ⟨hpool,.refl⟩ (fun l hl j hj => hL₀.supervisor hl hj) tinyElf 84 (some []) none 0 hcall
  exact ⟨i,k',hcall,h.2.2⟩

end ApPa.Exec

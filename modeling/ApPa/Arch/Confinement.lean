import ApPa.Arch.Syscall
import ApPa.System.Run

/-! # What a system call may read

`validate_user_ptr` looks at the range of a buffer and not at the directory of the task. A
task of the kernel image reaches its code and its stack, a loaded program the pages of its
file and its stack; a buffer inside these pages is safe, and no other non-empty one that
passes the check.
-/
namespace ApPa.Arch
open ByteMem Exec Memory ApPa.System Tasks

/-- Slot `i` of the kernel holds a Ring 3 task that was just built, with the pages that its
builder maps for it. -/
inductive Built (img : Image) : Kernel → Fin 64 → List ℕ → Prop
  | user {k₀ k k' : Kernel} {live : List (Fin 64)} {entry : ℕ} {name : List UInt8} {i : Fin 64}
      (hrun : Reachable img k₀ k live) (hentry : entry < 0x400000)
      (hcall : taskCreateUser img k entry name = some (some i, k')) :
      Built img k' i (userPages img entry k.phys.pmm.usedFrames.toNat)
  | elf {k₀ k k' : Kernel} {live : List (Fin 64)} {f : File} {size : ℕ} {taskName : Option (List UInt8)}
      {argv : Option (ℕ → Arg)} {argc : ℤ} {i : Fin 64} (hrun : Reachable img k₀ k live)
      (hcall : elfExecMem img k (some f) size taskName argv argc = some (some i, k')) :
      Built img k' i (wantedPages f size)

theorem codePages_index {img : Image} {entry : ℕ} (hentry : entry < 0x400000) :
    ∀ w ∈ codePages img entry, pageDirIndex w = 1 → pageTableIndex w = 0 := by
  intro w hw hi
  obtain ⟨a,ha,rfl⟩ := List.mem_map.mp hw
  have hlt := userCode_lt img hentry a ha
  rw [show a &&& pageFrameMask = a / 4096 * 4096 from Word32.land_frame (by omega)] at hi ⊢
  rw [pageDirIndex_eq] at hi
  rw [pageTableIndex_eq]
  omega

theorem userPages_index {img : Image} {entry : ℕ} (hentry : entry < 0x400000) (used : ℕ) :
    ∀ w ∈ userPages img entry used, pageDirIndex w = 1 → pageTableIndex w = 0 := by
  intro w hw hi
  rcases List.mem_append.mp hw with hw | hw
  · exact codePages_index hentry w hw hi
  · split at hw
    · rw [List.mem_singleton] at hw
      have hstack := userStackVirt_index
      rw [← hw, hi] at hstack
      exact absurd hstack (by decide)
    · cases hw

theorem wantedPages_index {f : File} {size : ℕ} : ∀ w ∈ wantedPages f size, pageDirIndex w = 1 → pageTableIndex w = 0 := by
  intro w hw hi
  obtain ⟨x,hx,rfl⟩ := List.mem_map.mp hw
  have hlow := (wanted_userPage x hx).dirIndex
  rw [hi] at hlow
  exact absurd hlow (by decide)

theorem Built.opens {img : Image} {k : Kernel} {i : Fin 64} {vs : List ℕ} (h : Built img k i vs) :
    ∃ n, (k.tasks (.slot i)).cr3 = n * pageSize ∧ Opens k.phys.mem n vs ∧
      ∀ w ∈ vs, pageDirIndex w = 1 → pageTableIndex w = 0 := by
  cases h with
  | user hrun hentry hcall =>
    obtain ⟨⟨hsched,L,hown⟩,_⟩ := hrun.sound
    rcases taskCreateUser_cases hsched hown.accounts hown.kernel (fun i hi => hown.untagged hi) hentry hcall with
      ⟨hnone,_⟩ | ⟨j,k₁,L₁,n,hj,hres,hready,hl⟩
    · cases hnone
    · cases hres
      obtain ⟨g,_,hesp,hg⟩ := hready.stack
      refine ⟨n,?_,(hready.opens hown.closed).congr (hl.walk_eq (by simp [userFrame]) hesp hready.space (Or.inr hg)),
        userPages_index hentry _⟩
      rw [hl.self]
      exact hready.directory.trans hready.pageDir
  | elf hrun hcall =>
    obtain ⟨⟨hsched,L,hown⟩,_⟩ := hrun.sound
    rcases elfExecMem_eq hcall with ⟨hnone,_⟩ | ⟨f,name,hf,_,_,hload⟩
    · cases hnone
    · cases hf
      rcases elfLoadInternal_cases hsched hown.accounts hown.kernel hown.unattached hload with
        ⟨hnone,_⟩ | ⟨_,⟨hnone,_⟩ | ⟨hnone,_⟩ | ⟨j,g,n,t,L₂,p₂,L₃,p₃,k₁,esp,hj,hres,hready,hl⟩⟩
      · cases hnone
      · cases hnone
      · cases hnone
      · cases hres
        have hsp := hready.loaded.userSpace hown.kernel
        have hmem : k₁.phys.mem = p₃.mem := by rw [hready.ready.phys]
        rw [← hmem] at hsp
        have hopens := hready.opens hown.closed
        rw [← hmem] at hopens
        refine ⟨n,?_,hopens.congr (hl.walk_eq (by simp [userFrame]) hready.ready.esp0 hsp (Or.inl hready.ready.free)),
          wantedPages_index⟩
        rw [hl.self]
        exact hready.ready.cr3

theorem Built.accessible_iff {img : Image} {k : Kernel} {i : Fin 64} {vs : List ℕ} (h : Built img k i vs) (v : ℕ) :
    Accessible k.phys.mem (k.tasks (.slot i)).cr3 v ↔ ∃ w ∈ vs, SamePage w v := by
  obtain ⟨n,hn,hopens,hindex⟩ := h.opens
  rw [hn]
  exact hopens.accessible_iff hindex

section
variable {m m' : Mem} {dir : ℕ} {ptr len : UInt32} {env : Env} {fuel : ℕ} {k k₁ k₂ : Kernel} {regs : Registers}

/-- Every byte of an accepted buffer that the task can read itself. -/
def InReach (m : Mem) (dir : ℕ) (ptr len : UInt32) : Prop :=
  validateUserPtr ptr len = 0 → ∀ v, ptr.toNat ≤ v → v < ptr.toNat + len.toNat → Accessible m dir v

theorem InReach.read (h : InReach m dir ptr len) (hv : validateUserPtr ptr len = 0) {i : ℕ} (hi : i < len.toNat) :
    Accessible m dir (ptr + UInt32.ofNat i).toNat := by
  obtain ⟨hlt,_,_⟩ := validateUserPtr_eq_zero.mp hv
  rw [toNat_add_ofNat hlt hi]
  exact h hv _ (by omega) (by omega)

theorem InReach.printed (h : InReach k₁.phys.mem k₁.cpu.cr3 regs.ebx regs.ecx) {ret : UInt32} {out : List UInt8}
    (hcall : sysWriteHandler env fuel k₁ regs = .ok (k₂, ret, out)) {b : UInt8} (hb : b ∈ out) :
    ∃ v : UInt32, Accessible k₁.phys.mem k₁.cpu.cr3 v.toNat ∧ readVirt k₁.phys.mem k₁.cpu.cr3 v = some b := by
  unfold sysWriteHandler at hcall
  dsimp only at hcall
  split at hcall
  · cases hcall
    cases hb
  · split at hcall
    · cases hcall
      cases hb
    · rename_i hv
      split at hcall
      · rename_i written out' hw
        cases hcall
        obtain ⟨i,hi,hread⟩ := writeLoop_mem hw hb
        exact ⟨_,h.read (not_not.mp hv) hi,hread⟩
      · cases hcall
      · cases hcall

/-- What `SYS_WRITE` prints and returns depends on memory the task can read. -/
theorem InReach.dependsOnly (h : InReach k₁.phys.mem k₁.cpu.cr3 regs.ebx regs.ecx) (hcr3 : k₂.cpu.cr3 = k₁.cpu.cr3)
    (hmem : ∀ v : UInt32, Accessible k₁.phys.mem k₁.cpu.cr3 v.toNat →
      readVirt k₂.phys.mem k₁.cpu.cr3 v = readVirt k₁.phys.mem k₁.cpu.cr3 v) :
    (sysWriteHandler env fuel k₂ regs).map Prod.snd = (sysWriteHandler env fuel k₁ regs).map Prod.snd := by
  unfold sysWriteHandler
  dsimp only
  by_cases hz : regs.ecx = 0
  · rw [if_pos hz, if_pos hz]
    rfl
  rw [if_neg hz, if_neg hz]
  by_cases hv : validateUserPtr regs.ebx regs.ecx = 0
  · rw [if_neg (not_not.mpr hv), if_neg (not_not.mpr hv), hcr3, writeLoop_congr fun i hi => hmem _ (h.read hv hi)]
    cases writeLoop k₁.phys.mem k₁.cpu.cr3 regs.ebx regs.ecx with
    | none => rfl
    | some r =>
      cases r with
      | error v => rfl
      | ok r => rfl
  · rw [if_pos hv, if_pos hv]
    rfl

end

/-- For a task just built, an accepted buffer is readable for the task, and `SYS_WRITE`
prints what the task could read and depends on nothing else, exactly when the check refuses
the range or every page of the range was mapped for the task. -/
theorem validateUserPtr_confines_iff {img : Image} {k : Kernel} {i : Fin 64} {vs : List ℕ} (h : Built img k i vs)
    (ptr len : UInt32) :
    (InReach k.phys.mem (k.tasks (.slot i)).cr3 ptr len ∧
      ∀ (env : Env) (fuel : ℕ) (k₁ : Kernel) (regs : Registers), k₁.phys.mem = k.phys.mem →
        k₁.cpu.cr3 = (k.tasks (.slot i)).cr3 → regs.ebx = ptr → regs.ecx = len →
        (∀ k₂ ret out, sysWriteHandler env fuel k₁ regs = .ok (k₂, ret, out) → ∀ b ∈ out,
          ∃ v : UInt32, Accessible k₁.phys.mem k₁.cpu.cr3 v.toNat ∧ readVirt k₁.phys.mem k₁.cpu.cr3 v = some b) ∧
        ∀ k₂ : Kernel, k₂.cpu.cr3 = k₁.cpu.cr3 →
          (∀ v : UInt32, Accessible k₁.phys.mem k₁.cpu.cr3 v.toNat →
            readVirt k₂.phys.mem k₁.cpu.cr3 v = readVirt k₁.phys.mem k₁.cpu.cr3 v) →
          (sysWriteHandler env fuel k₂ regs).map Prod.snd = (sysWriteHandler env fuel k₁ regs).map Prod.snd) ↔
    (2 ^ 32 ≤ ptr.toNat + len.toNat ∨ ptr.toNat < 0x1000 ∨ 0xC0000000 < ptr.toNat + len.toNat ∨
      ∀ v, ptr.toNat ≤ v → v < ptr.toNat + len.toNat → ∃ w ∈ vs, SamePage w v) := by
  have hreach : InReach k.phys.mem (k.tasks (.slot i)).cr3 ptr len ↔
      (2 ^ 32 ≤ ptr.toNat + len.toNat ∨ ptr.toNat < 0x1000 ∨ 0xC0000000 < ptr.toNat + len.toNat ∨
        ∀ v, ptr.toNat ≤ v → v < ptr.toNat + len.toNat → ∃ w ∈ vs, SamePage w v) := by
    unfold InReach
    rw [validateUserPtr_eq_zero]
    simp only [h.accessible_iff]
    constructor
    · intro hall
      by_cases hin : ptr.toNat + len.toNat < 2 ^ 32 ∧ 0x1000 ≤ ptr.toNat ∧ ptr.toNat + len.toNat ≤ 0xC0000000
      · exact Or.inr (Or.inr (Or.inr (hall hin)))
      · omega
    · rintro (hout | hout | hout | hall) hin
      · omega
      · omega
      · omega
      · exact hall
  rw [← hreach]
  constructor
  · exact fun hall => hall.1
  · intro hr
    refine ⟨hr,fun env fuel k₁ regs hm hc hp hl => ?_⟩
    rw [← hm, ← hc, ← hp, ← hl] at hr
    exact ⟨fun k₂ ret out hcall b hb => hr.printed hcall hb,fun k₂ hcr3 hmem => hr.dependsOnly hcr3 hmem⟩

theorem built_first : ∃ k i, Built flatImage k i (userPages flatImage 0x100000 774) := by
  have hpool : ∀ i, idleKernel.tasks (.slot i) = Task.zero := fun _ => rfl
  obtain ⟨i,k,hcall,_⟩ := boot_createUser flatImage hpool (by decide : 0x100000 < 0x400000) []
  have hbuilt := Built.user ⟨hpool,.refl⟩ (by decide) hcall
  rw [boot_used] at hbuilt
  exact ⟨k,i,hbuilt⟩

/-- The page of its code is in reach of the task. -/
theorem validateUserPtr_confines_code : ∃ k i, Built flatImage k i (userPages flatImage 0x100000 774) ∧
    InReach k.phys.mem (k.tasks (.slot i)).cr3 0x100000 16 := by
  obtain ⟨k,i,h⟩ := built_first
  refine ⟨k,i,h,((validateUserPtr_confines_iff h 0x100000 16).mpr ?_).1⟩
  refine Or.inr (Or.inr (Or.inr fun v hlo hhi => ⟨0x100000,by decide,?_⟩))
  rw [show (UInt32.toNat 0x100000) = 0x100000 from rfl] at hlo hhi
  rw [show (UInt32.toNat 16) = 16 from rfl] at hhi
  rw [SamePage, pageDirIndex_eq, pageDirIndex_eq, pageTableIndex_eq, pageTableIndex_eq]
  omega

/-- The check accepts a buffer in kernel memory that the task cannot read. -/
theorem validateUserPtr_accepts_kernel : ∃ k i, Built flatImage k i (userPages flatImage 0x100000 774) ∧
    validateUserPtr 0x300000 16 = 0 ∧ ¬Accessible k.phys.mem (k.tasks (.slot i)).cr3 0x300000 := by
  obtain ⟨k,i,h⟩ := built_first
  refine ⟨k,i,h,by decide,?_⟩
  rw [h.accessible_iff]
  rintro ⟨w,hw,hsame⟩
  have hpages : ∀ w ∈ userPages flatImage 0x100000 774,
      ¬(pageDirIndex w = pageDirIndex 0x300000 ∧ pageTableIndex w = pageTableIndex 0x300000) := by decide
  exact hpages w hw hsame

end ApPa.Arch

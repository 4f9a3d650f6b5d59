import ApPa.Exec.EntryFrame
import ApPa.Exec.FileBuffer
import ApPa.Lib.WordStack

/-! # Programs that are about to run

What a new task finds when it is switched to for the first time: the words on its kernel stack, the segments of its file
and its arguments. All of it is in frames of its own.
-/
namespace ApPa.Exec
open ByteMem Memory Tasks WordStack

/-- The directory of the task shows the file, the page below `USER_STACK_TOP` holds the arguments, and the words on the
kernel stack lead through `enter_usermode` to the entry point. -/
structure Started (img : Image) (m : Mem) (t : Task) (f : File) (argv : ℕ → Arg) (n : ℕ) : Prop where
  cr3_ne : t.cr3 ≠ 0
  pageDir : t.pageDir = t.cr3
  built : Built m t.cr3 f
  esp : t.esp + 40 = t.kernelStack + taskKernelStackSize
  enters : ∃ a esp array strs, Memory.translate m t.cr3 userStackVirt = some (a * pageSize) ∧
    ArgFrame m (a * pageSize) esp n argv array strs ∧
    Holds m t.esp ((userFrame img esp (readEhdr f).entry).reverse.map UInt32.ofNat)

/-! ## Frames of the task -/

section
variable {L : Frames} {tag : Option (Fin 64)} {m m' : Mem} {n v : ℕ}

theorem walk_user_congr (h : DirOwned L tag m n) (hm : ∀ x s, L (x / pageSize) = some (.task tag s) → m' x = m x)
    (hv : kernelPdeCount ≤ pageDirIndex v) : walk m' (n * pageSize) v = walk m (n * pageSize) v := by
  refine walk_congr fun x hx => ?_
  rcases hx with hx | ht
  · exact hm x .dir (hx ▸ h.dir)
  · exact hm x _ (h.table hv (pageDirIndex_lt v) ht)

theorem walk_user_label (h : DirOwned L tag m n) (hv : kernelPdeCount ≤ pageDirIndex v) {e : ℕ × ℕ}
    (hw : walk m (n * pageSize) v = some e) (o : ℕ) (ho : o < pageSize) :
    ∃ s, L ((pageFrame e.2 + o) / pageSize) = some (.task tag s) := by
  have hi := pageDirIndex_lt v
  have hj := pageTableIndex_lt v
  rw [walk_eq] at hw
  obtain ⟨t,ht,hw⟩ := Option.bind_eq_some_iff.mp hw
  split at hw
  · rename_i hp
    cases hw
    have hpage : dirFrame m (n * pageSize) (.page (pageDirIndex v) (pageTableIndex v)) =
        some (entry m (t * pageSize) (pageTableIndex v) / pageSize) := by
      rw [dirFrame, if_pos ⟨⟨hv,hi⟩,hj⟩, ht, Option.bind_some, target_eq, if_pos hp]
    refine ⟨_,Eq.trans (congrArg L ?_) (h.owned _ _ hpage)⟩
    rw [pageFrame_eq (entry_lt m _ _), Nat.add_comm, Nat.add_mul_div_right _ _ (by decide), Nat.div_eq_of_lt ho, Nat.zero_add]
  · cases hw

theorem dirIndex_of_user {va : ℕ} (hlo : 0x1000000 ≤ va) (hhi : va < 0xC0000000) : kernelPdeCount ≤ pageDirIndex va := by
  rw [pageDirIndex_eq]
  unfold kernelPdeCount
  omega

theorem Built.congr {f : File} {size : ℕ} (hb : Built m (n * pageSize) f) (hwf : WellFormed f size)
    (h : DirOwned L tag m n) (hm : ∀ x s, L (x / pageSize) = some (.task tag s) → m' x = m x) :
    Built m' (n * pageSize) f := by
  have hwalk : ∀ va, 0x1000000 ≤ va → va < 0xC0000000 → walk m' (n * pageSize) va = walk m (n * pageSize) va :=
    fun va hlo hhi => walk_user_congr h hm (dirIndex_of_user hlo hhi)
  have hbyte : ∀ va e, 0x1000000 ≤ va → va < 0xC0000000 → walk m (n * pageSize) va = some e →
      m' (pageFrame e.2 + va % pageSize) = m (pageFrame e.2 + va % pageSize) := by
    intro va e hlo hhi he
    obtain ⟨s,hs⟩ := walk_user_label h (dirIndex_of_user hlo hhi) he (va % pageSize) (Nat.mod_lt _ (by decide))
    exact hm _ s hs
  have hstack : userStackVirt = 0xBFFFF000 := rfl
  refine ⟨fun i hi hload => ⟨fun c hc => ?_,fun v hv o ho hout => ?_⟩,?_⟩
  · have hlo := hwf.vaddr_ge i hi hload
    have hend := hwf.end_le i hi hload
    obtain ⟨e,he,hu,hu',hw,hbytes⟩ := (hb.segments i hi hload).inside c hc
    refine ⟨e,(hwalk _ (by omega) (by omega)).trans he,hu,hu',hw,?_⟩
    rw [hbyte _ e (by omega) (by omega) he, hbytes]
  · have hlo := hwf.vaddr_ge i hi hload
    have hend := hwf.end_le i hi hload
    have hrange : 0x1000000 ≤ v + o ∧ v + o < 0xC0000000 := by
      obtain ⟨⟨c,rfl⟩,hlt,hlt'⟩ := hv
      simp only [pageSize] at *
      omega
    obtain ⟨a,ha,hzero⟩ := (hb.segments i hi hload).outside v hv o ho hout
    obtain ⟨e,he,rfl⟩ := Option.map_eq_some_iff.mp ha
    refine ⟨_,by rw [Memory.translate, hwalk _ hrange.1 hrange.2, he]; rfl,?_⟩
    rw [hbyte _ e hrange.1 hrange.2 he, hzero]
  · obtain ⟨e,he,hopen⟩ := hb.stack
    exact ⟨e,(hwalk _ (by decide) (by decide)).trans he,hopen⟩

end

theorem ArgFrame.congr {m m' : Mem} {a esp n array : ℕ} {argv : ℕ → Arg} {strs : ℕ → ℕ}
    (h : ArgFrame m (a * pageSize) esp n argv array strs) (hn : 1 ≤ n) (hm : ∀ x, x / pageSize = a → m' x = m x) :
    ArgFrame m' (a * pageSize) esp n argv array strs := by
  have hesp := h.esp_ge
  have hheader := h.header_lt
  have hin : ∀ i < n, strs i + ((argv i).1.length + 1) ≤ userStackVirt + pageSize := h.string_le
  have hfirst := h.array_lt 0 hn
  have hlast := hin 0 hn
  have hread : ∀ v, userStackVirt ≤ v → v + 4 ≤ userStackVirt + pageSize →
      read32 m' (stackPhys (a * pageSize) v) = read32 m (stackPhys (a * pageSize) v) := by
    intro v hlo hhi
    refine read32_congr fun x hx hx' => hm x ?_
    simp only [stackPhys, pageSize] at *
    omega
  refine ⟨h.aligned,hesp,?_,?_,fun i hi => ?_,?_,fun i hi => ?_,hheader,h.array_lt,h.ordered,h.string_le⟩
  · rw [hread _ hesp (by omega), h.count]
  · rw [hread _ (by omega) (by omega), h.table]
  · rw [hread _ (by omega) (by omega), h.pointer i hi]
  · rw [hread _ (by omega) (by omega), h.sentinel]
  · rw [← h.string i hi]
    have hlo := h.array_lt i hi
    have hhi := hin i hi
    refine load_congr fun x hx hx' => hm x ?_
    simp only [stackPhys, pageSize] at *
    omega

theorem Started.congr {img : Image} {m m' : Mem} {t : Task} {f : File} {size n : ℕ} {argv : ℕ → Arg} {L : Frames}
    {i : Fin 64} (h : Started img m t f argv n) (hwf : WellFormed f size) (hn : 1 ≤ n) (hown : TaskOwned L m i t)
    (hm : ∀ x s, L (x / pageSize) = some (.task (some i) s) → m' x = m x) : Started img m' t f argv n := by
  obtain ⟨a,esp,array,strs,htrans,hargs,hwords⟩ := h.enters
  obtain ⟨d,hdir,hdo⟩ := hown.dir (h.pageDir ▸ h.cr3_ne)
  obtain ⟨g,hstack,hg⟩ := hown.stack
  have hcr3 : t.cr3 = d * pageSize := h.pageDir.symm.trans hdir
  have hbuilt := h.built
  rw [hcr3] at hbuilt htrans
  obtain ⟨e,hwalk,ha⟩ := Option.map_eq_some_iff.mp htrans
  have hpage : ∀ x, x / pageSize = a → ∃ s, L (x / pageSize) = some (.task (some i) s) := by
    intro x hx
    obtain ⟨s,hs⟩ := walk_user_label hdo (dirIndex_of_user (by decide) (by decide)) hwalk (userStackVirt % pageSize)
      (Nat.mod_lt _ (by decide))
    rw [ha, Nat.mul_div_cancel _ (by decide)] at hs
    exact ⟨s,hx ▸ hs⟩
  refine ⟨h.cr3_ne,h.pageDir,?_,h.esp,a,esp,array,strs,?_,hargs.congr hn fun x hx => ?_,hwords.congr fun x hlo hhi => ?_⟩
  · rw [hcr3]
    exact hbuilt.congr hwf hdo hm
  · rw [hcr3, Memory.translate, walk_user_congr hdo hm (dirIndex_of_user (by decide) (by decide))]
    exact htrans
  · obtain ⟨s,hs⟩ := hpage x hx
    exact hm x s hs
  · have hesp := h.esp
    have hlen : ((userFrame img esp (readEhdr f).entry).reverse.map UInt32.ofNat).length = 10 := by simp [userFrame]
    have hframe : x / pageSize = g := by
      simp only [taskKernelStackSize, pageSize] at *
      omega
    exact hm x _ (hframe ▸ hg)

/-! ## The load -/

theorem push_eq_pushes (m : Mem) (sp : ℕ) (vs : List ℕ) : (push m sp vs).1 = pushes m sp (vs.map UInt32.ofNat) := by
  induction vs generalizing m sp with
  | nil => rfl
  | cons v vs ih => rw [push, ih, List.map_cons, pushes, write32_ofNat]

theorem holds_push (m : Mem) {sp : ℕ} {vs : List ℕ} (hsp : 4 * vs.length ≤ sp) :
    Holds (push m sp vs).1 (push m sp vs).2 (vs.reverse.map UInt32.ofNat) := by
  have h : Holds (pushes m sp (vs.map UInt32.ofNat)) (sp - 4 * (vs.map UInt32.ofNat).length)
      ((vs.map UInt32.ofNat).reverse ++ []) := holds_pushes (by rwa [List.length_map]) trivial
  rwa [List.append_nil, List.length_map, ← push_eq_pushes, ← List.map_reverse, ← push_snd m] at h

/-- With a control block and frames for its pages, a well-formed file becomes a task that is about to run it. -/
theorem elfLoadInternal_starts (img : Image) {k : Kernel} {live : List (Fin 64)} {L : Frames} {f : File} {size : ℕ}
    (hs : SchedOk k live) (h : Owns k live L) (hwf : WellFormed f size) (hsize : size < 2 ^ 32)
    (hroom : k.phys.pmm.usedFrames.toNat + need (wantedPages f size) + 3 ≤ totalFrames) (hslot : allocTcb k ≠ none)
    (name : List UInt8) {argv : ℕ → Arg} {n : ℕ} (hn : 1 ≤ n) (h64 : n ≤ 64) (hfit : frameBytes argv n ≤ argvMaxTotal) :
    ∃ i k', elfLoadInternal img k f size name (some argv) n = some (some i, k') ∧ i ∉ live ∧
      Started img k'.phys.mem (k'.tasks (.slot i)) f argv n := by
  rcases pagingCloneDirectory_spec h.accounts h.kernel none with ⟨_,_,_,hfew⟩ | ⟨d,t,L',p₂,hclone,hcl⟩
  · omega
  have hdir : d * pageSize ≠ 0 := Nat.mul_ne_zero (Nat.ne_of_gt hcl.nonzero) (by decide)
  have hplan := hwf.plan_ok hsize
  have hneed : need (wantedPages f size) ≤ totalFrames - k.phys.pmm.usedFrames.toNat - 2 := by omega
  have hempty := populated_cloned (f := f) hcl h.kernel h.accounts
  obtain ⟨hok,a,L₃,ha,halloc,hLa,hpop,pde,hwalk⟩ := wanted_populates hempty hplan hneed
  have hload : elfLoadInternal img k f size name (some argv) n =
      startTask img { k with phys := (loadAll f (d * pageSize) p₂ (wanted f size)).2 } f name (d * pageSize) (a * pageSize)
        (some argv) n := by
    rw [elfLoadInternal_eq hwf.valid hclone hdir, hplan, hok, halloc]
    rfl
  have hused : (loadAll f (d * pageSize) p₂ (wanted f size)).2.pmm.usedFrames.toNat < totalFrames := by
    have hbudget := hpop.budget
    have hsame : need ((wanted f size).map (·.2)) = need (wantedPages f size) := rfl
    rw [hpop.accounts.count]
    omega
  revert hload hused hpop hwalk
  generalize (loadAll f (d * pageSize) p₂ (wanted f size)).2 = p
  intro hpop hwalk hload hused
  obtain ⟨i,k',hcall⟩ : ∃ i k', startTask img { k with phys := p } f name (d * pageSize) (a * pageSize) (some argv) n =
      some (some i, k') :=
    startTask_starts hs hpop.accounts hslot hused (setupUserStackArgs_ne_none p.mem (a * pageSize) h64 hfit)
  obtain ⟨hcr3,hkeep⟩ := startTask_keeps hs hpop.accounts ha hcall
  obtain ⟨esp,m,hargs,⟨hnone,_⟩ | ⟨j,g,k₁,hi,hj,hready,hl⟩⟩ := startTask_ending hs hpop.accounts hcall
  · cases hnone
  cases hj
  obtain ⟨esp',m',array,strs,hargs',hframe⟩ := setupUserStackArgs_frame p.mem a hn h64 hfit
  obtain ⟨rfl,rfl⟩ := Prod.mk.inj (Option.some.inj (hargs.symm.trans hargs'))
  refine ⟨i,k',hload.trans hcall,hi,hcr3 ▸ hdir,?_,?_,?_,a,esp,array,strs,?_,hframe.congr hn fun x hx => ?_,?_⟩
  · rw [hl.self]
    exact hready.pageDir.trans hready.cr3.symm
  · rw [hcr3]
    exact hpop.built hwf hsize hLa hkeep
  · have hkstack : (k'.tasks (.slot i)).kernelStack = g * pageSize := by
      rw [hl.self]
      exact hready.kernelStack
    rw [hl.esp, push_snd, hready.esp0, hkstack]
    change g * pageSize + taskKernelStackSize - 4 * 10 + 40 = _
    have hsize : taskKernelStackSize = 4096 := rfl
    omega
  · have htable : ∀ v, walk k'.phys.mem (d * pageSize) v = walk p.mem (d * pageSize) v := by
      refine hpop.space.walk_keep fun x o ho _ hpage => hkeep x o ho ?_
      rintro rfl
      rw [hLa, Option.some.injEq] at ho
      exact hpage _ _ ho.symm
    obtain ⟨hlt,_,hframe⟩ := pteValue_spec ha (segFlags stackPhdr)
    rw [hcr3, Memory.translate, htable, hwalk, Option.map_some, pageFrame_eq hlt, hframe, show userStackVirt % pageSize = 0 by decide,
      Nat.add_zero]
  · have hlen : (userFrame img esp (readEhdr f).entry).length ≤ 1024 := by simp [userFrame]
    rw [hl.phys, hready.esp0, hready.phys]
    refine push_stack m hlen ?_
    rintro rfl
    rw [hx] at hready
    exact absurd hready.free (by rw [hLa]; exact Option.some_ne_none _)
  · rw [hl.phys, hl.esp, hready.esp0, hready.phys]
    exact holds_push m (by simp only [userFrame, List.length_cons, List.length_nil, taskKernelStackSize]; omega)

end ApPa.Exec

import ApPa.Exec.FileBounds
import ApPa.Exec.Mapping
import ApPa.Exec.Spawn
import ApPa.System.Run

/-! # What a program finds in its memory

The pages of a segment in exact arithmetic, the pages the loader visits, and what the new
directory shows there. A load is complete exactly if no segment reaches into the last page
of the address space and there are frames for all pages and tables.
-/
namespace ApPa.Exec
open ByteMem Memory ApPa.System Tasks Word32

def Loadable (ph : Phdr) : Prop := ph.type = ptLoad ∧ 0 < ph.memsz

instance (ph : Phdr) : Decidable (Loadable ph) := inferInstanceAs (Decidable (_ ∧ _))

/-- The page at `v` overlaps the segment, in exact arithmetic. -/
def Overlaps (ph : Phdr) (v : ℕ) : Prop := pageSize ∣ v ∧ v < ph.vaddr + ph.memsz ∧ ph.vaddr < v + pageSize

/-! ## Headers and the plan -/

section
variable {ph : Phdr} {size v : ℕ}

theorem overlaps_of_mem_segPages (hw : ph.Words) (hv : v ∈ segPages ph) : Overlaps ph v := by
  obtain ⟨hdvd,hlo,hhi⟩ := mem_segPages hv hw.vaddr
  have hs : segStart ph = ph.vaddr / pageSize * pageSize := land_frame hw.vaddr
  have he : segEnd ph = add32 (add32 ph.vaddr ph.memsz) (pageSize - 1) / pageSize * pageSize :=
    land_frame (Nat.mod_lt _ (by decide))
  have hmod : add32 ph.vaddr ph.memsz ≤ ph.vaddr + ph.memsz := Nat.mod_le _ _
  have hlt : add32 ph.vaddr ph.memsz < 2 ^ 32 := Nat.mod_lt _ (by decide)
  rw [hs] at hlo
  rw [he, add32] at hhi
  simp only [pageSize] at *
  refine ⟨hdvd,?_,?_⟩
  · show v < ph.vaddr + ph.memsz
    omega
  · show ph.vaddr < v + 4096
    omega

theorem mem_segPages_of_overlaps (hw : ph.Words) (hend : ph.vaddr + ph.memsz ≤ 0xFFFFF000) (h : Overlaps ph v) :
    v ∈ segPages ph := by
  obtain ⟨hdvd,hlt,hgt⟩ := h
  have hs : segStart ph = ph.vaddr / pageSize * pageSize := land_frame hw.vaddr
  have he : segEnd ph = add32 (add32 ph.vaddr ph.memsz) (pageSize - 1) / pageSize * pageSize :=
    land_frame (Nat.mod_lt _ (by decide))
  rw [add32_of_lt (show ph.vaddr + ph.memsz < 2 ^ 32 by omega),
    add32_of_lt (show ph.vaddr + ph.memsz + (pageSize - 1) < 2 ^ 32 by simp only [pageSize]; omega)] at he
  refine mem_segPages_of hw.vaddr hdvd ?_ ?_
  · rw [hs]
    simp only [pageSize] at *
    omega
  · rw [he]
    simp only [pageSize] at *
    omega

theorem verdict_cases (size : ℕ) (ph : Phdr) :
    verdict size ph = .skip ∧ ¬Loadable ph ∨ verdict size ph = .reject ∧ Loadable ph ∨
      verdict size ph = .load ∧ Loadable ph := by
  unfold verdict Loadable
  by_cases ht : ph.type ≠ ptLoad
  · rw [if_pos ht]
    exact Or.inl ⟨rfl,fun h => ht h.1⟩
  · rw [if_neg ht]
    by_cases hm : ph.memsz = 0
    · rw [if_pos hm]
      exact Or.inl ⟨rfl,fun h => absurd hm (Nat.ne_of_gt h.2)⟩
    · have hload : ph.type = ptLoad ∧ 0 < ph.memsz := ⟨not_not.mp ht,Nat.pos_of_ne_zero hm⟩
      rw [if_neg hm]
      split
      · exact Or.inr (Or.inl ⟨rfl,hload⟩)
      split
      · exact Or.inr (Or.inl ⟨rfl,hload⟩)
      split
      · exact Or.inr (Or.inl ⟨rfl,hload⟩)
      · exact Or.inr (Or.inr ⟨rfl,hload⟩)

theorem loadable_of_load (h : verdict size ph = .load) : Loadable ph := by
  rcases verdict_cases size ph with ⟨hv,_⟩ | ⟨hv,_⟩ | ⟨_,hload⟩
  · rw [h] at hv
    cases hv
  · rw [h] at hv
    cases hv
  · exact hload

end

section
variable {f : File} {size : ℕ}

theorem plan_ok_iff {i n : ℕ} :
    (plan f size i n).1 = true ↔ ∀ j, i ≤ j → j < i + n → verdict size (phdrAt f j) ≠ .reject := by
  induction n generalizing i with
  | zero => exact iff_of_true rfl fun j hlo hhi => by omega
  | succ n ih =>
    have hsplit : (∀ j, i ≤ j → j < i + (n + 1) → verdict size (phdrAt f j) ≠ .reject) ↔
        verdict size (phdrAt f i) ≠ .reject ∧ ∀ j, i + 1 ≤ j → j < i + 1 + n → verdict size (phdrAt f j) ≠ .reject := by
      refine ⟨fun h => ⟨h i le_rfl (by omega),fun j hlo hhi => h j (by omega) (by omega)⟩,fun h j hlo hhi => ?_⟩
      rcases Nat.eq_or_lt_of_le hlo with rfl | hlo
      · exact h.1
      · exact h.2 j hlo (by omega)
    rw [hsplit, ← ih, plan]
    cases verdict size (phdrAt f i) with
    | skip => simp
    | reject => simp
    | load => simp

theorem mem_plan_of_ok {n : ℕ} (hok : (plan f size 0 n).1 = true) {x : Phdr × ℕ} :
    x ∈ (plan f size 0 n).2 ↔ ∃ j < n, x.1 = phdrAt f j ∧ Loadable (phdrAt f j) ∧ x.2 ∈ segPages (phdrAt f j) := by
  have hreject := plan_ok_iff.mp hok
  rw [mem_plan_iff]
  constructor
  · rintro ⟨j,_,hj,_,hload,v,hv,rfl⟩
    exact ⟨j,by omega,rfl,loadable_of_load hload,hv⟩
  · rintro ⟨j,hj,hx,hload,hv⟩
    refine ⟨j,Nat.zero_le j,by omega,fun l _ hl => hreject l (Nat.zero_le l) (by omega),?_,x.2,hv,Prod.ext hx rfl⟩
    rcases verdict_cases size (phdrAt f j) with ⟨_,hnot⟩ | ⟨hrej,_⟩ | ⟨h,_⟩
    · exact absurd hload hnot
    · exact absurd hrej (hreject j (Nat.zero_le j) (by omega))
    · exact h

theorem segPages_nodup (ph : Phdr) : (segPages ph).Nodup := by
  refine List.nodup_range.map fun k l hkl => ?_
  simp only [pageSize] at hkl
  omega

theorem plan_nodup {i n : ℕ}
    (hdisj : ∀ j l, i ≤ j → j < l → l < i + n → Loadable (phdrAt f j) → Loadable (phdrAt f l) →
      ∀ v ∈ segPages (phdrAt f j), v ∉ segPages (phdrAt f l)) :
    ((plan f size i n).2.map (·.2)).Nodup := by
  induction n generalizing i with
  | zero => exact List.nodup_nil
  | succ n ih =>
    have hrest := ih (i := i + 1) fun j l hij hjl hl => hdisj j l (by omega) hjl (by omega)
    rw [plan]
    rcases verdict_cases size (phdrAt f i) with ⟨hv,_⟩ | ⟨hv,_⟩ | ⟨hv,hload⟩
    · rw [hv]
      exact hrest
    · rw [hv]
      exact List.nodup_nil
    · rw [hv, List.map_append, List.map_map]
      refine List.nodup_append.mpr ⟨?_,hrest,fun v hv' w hw => ?_⟩
      · exact (congrArg List.Nodup (List.map_id _)).mpr (segPages_nodup _)
      · rintro rfl
        obtain ⟨x,hx,rfl⟩ := List.mem_map.mp hw
        obtain ⟨l,hlo,hhi,_,hl,w,hseg,rfl⟩ := mem_plan_iff.mp hx
        obtain ⟨w',hw',he⟩ := List.mem_map.mp hv'
        have hsame : w' = w := he
        rw [hsame] at hw'
        exact hdisj i l le_rfl (by omega) (by omega) hload (loadable_of_load hl) w hw' hseg

end

/-! ## Complete loads -/

theorem walk_fst {m : Mem} {dir v : ℕ} {e : ℕ × ℕ} (h : walk m dir v = some e) :
    e.1 = entry m dir (pageDirIndex v) ∧ isPresent e.1 := by
  unfold walk at h
  dsimp only at h
  split at h
  · rename_i hp
    split at h
    · cases h
      exact ⟨rfl,hp⟩
    · cases h
  · cases h

section
variable {pg : Paging} {n F : ℕ} {L : Frames} {p : Phys} {f : File} {pages : List (Phdr × ℕ)} {v : ℕ}

theorem Populated.open_table (h : Populated f pg n F pages L p) (hv : UserPage v) {e : ℕ × ℕ}
    (he : walk p.mem (n * pageSize) v = some e) : isUser e.1 ∧ isWritable e.1 := by
  obtain ⟨hfst,hp⟩ := walk_fst he
  rw [hfst] at hp ⊢
  refine h.opened _ hv.dirIndex (pageDirIndex_lt v) ?_
  rw [target, if_pos hp]
  exact Option.some_ne_none _

theorem Populated.accessible_iff (h : Populated f pg n F pages L p) (hv : UserPage v) :
    Accessible p.mem (n * pageSize) v ↔ v ∈ pages.map (·.2) := by
  have hshown := h.shown v hv
  cases hpl : placed pages v with
  | none =>
    rw [hpl] at hshown
    refine iff_of_false ?_ (placed_eq_none.mp hpl)
    rintro ⟨e,he,_⟩
    rw [hshown] at he
    cases he
  | some ph =>
    rw [hpl] at hshown
    obtain ⟨a,pde,_,_,hwalk,_⟩ := hshown
    refine iff_of_true ⟨_,hwalk,(h.open_table hv hwalk).1,isUser_pteValue _ (segFlags_user ph)⟩ ?_
    by_contra hnot
    rw [placed_eq_none.mpr hnot] at hpl
    cases hpl

end

/-- The pages that `load_segments` maps. -/
def planPages (f : File) (size : ℕ) : List ℕ := (plan f size 0 (readEhdr f).phnum).2.map (·.2)

section
variable {img : Image} {k₀ k : Kernel} {live : List (Fin 64)} {f : File} {size dir : ℕ} {p₂ : Phys}

/-- A load into a new directory that reports success has mapped every page of every segment
exactly if no segment reaches into the last page of the address space and there are frames
for all pages and their tables. -/
theorem loadSegments_complete_iff (hrun : Reachable img k₀ k live)
    (hclone : pagingCloneDirectory k.paging k.phys = (dir, p₂)) (hdir : dir ≠ 0)
    (hok : (loadSegments f size dir p₂ 0 (readEhdr f).phnum).1 = true) :
    (∀ i < (readEhdr f).phnum, Loadable (phdrAt f i) → ∀ v, Overlaps (phdrAt f i) v →
        v < 2 ^ 32 ∧ Accessible (loadSegments f size dir p₂ 0 (readEhdr f).phnum).2.mem dir v) ↔
      (∀ i < (readEhdr f).phnum, Loadable (phdrAt f i) → (phdrAt f i).vaddr + (phdrAt f i).memsz ≤ 0xFFFFF000) ∧
        p₂.pmm.usedFrames.toNat + need (planPages f size) ≤ totalFrames := by
  obtain ⟨⟨_,L,hown⟩,_⟩ := hrun.sound
  rcases pagingCloneDirectory_spec hown.accounts hown.kernel none with ⟨p',hnull,_⟩ | ⟨n,t,L',p',hnew,hcl⟩
  · rw [hclone, Prod.mk.injEq] at hnull
    exact absurd hnull.1 hdir
  rw [hclone, Prod.mk.injEq] at hnew
  obtain ⟨rfl,rfl⟩ := hnew
  have hused : p₂.pmm.usedFrames.toNat = k.phys.pmm.usedFrames.toNat + 2 := by
    rw [hcl.accounts.count, hcl.count, hown.accounts.count]
  have hle := Tallies.count_le L'
  rw [← hcl.accounts.count] at hle
  rw [loadSegments_eq] at hok ⊢
  obtain ⟨hplan,hall⟩ := Bool.and_eq_true_iff.mp hok
  obtain ⟨hgood,hbad⟩ := loadAll_populates (populated_cloned (f := f) hcl hown.kernel hown.accounts)
    (l := (plan f size 0 (readEhdr f).phnum).2) fun x hx => (plan_planned hx).userPage
  rw [List.nil_append] at hgood hbad
  have hpages : ∀ {v}, v ∈ planPages f size ↔ ∃ i < (readEhdr f).phnum, Loadable (phdrAt f i) ∧ v ∈ segPages (phdrAt f i) := by
    intro v
    rw [planPages, List.mem_map]
    constructor
    · rintro ⟨x,hx,rfl⟩
      obtain ⟨i,hi,_,hload,hv⟩ := (mem_plan_of_ok hplan).mp hx
      exact ⟨i,hi,hload,hv⟩
    · rintro ⟨i,hi,hload,hv⟩
      exact ⟨(phdrAt f i, v),(mem_plan_of_ok hplan).mpr ⟨i,hi,rfl,hload,hv⟩,rfl⟩
  have huser : ∀ {v}, v ∈ planPages f size → UserPage v := by
    intro v hv
    obtain ⟨x,hx,rfl⟩ := List.mem_map.mp hv
    exact (plan_planned hx).userPage
  constructor
  · intro h
    have hroom : need (planPages f size) ≤ totalFrames - k.phys.pmm.usedFrames.toNat - 2 := by
      by_contra hlt
      obtain ⟨⟨x,hx,hnone⟩,_⟩ := hbad (Nat.not_le.mp hlt) hall
      obtain ⟨i,hi,_,hload,hv⟩ := (mem_plan_of_ok hplan).mp hx
      obtain ⟨_,e,he,_⟩ := h i hi hload x.2 (overlaps_of_mem_segPages (phdrAt_words f i) hv)
      rw [hnone] at he
      cases he
    obtain ⟨_,L₂,hpop⟩ := hgood hroom
    refine ⟨fun i hi hload => ?_,by omega⟩
    by_contra hlast
    have hv := (phdrAt_words f i).vaddr
    have hacc := (h i hi hload 0xFFFFF000 ⟨by decide,by omega,hv⟩).2
    -- no page that ends at the end of the address space is ever planned
    have hmem := (hpop.accessible_iff ⟨by decide,by decide,by decide⟩).mp hacc
    obtain ⟨x,hx,hx2⟩ := List.mem_map.mp hmem
    have hbound := (plan_planned hx).bounds.2.2
    rw [hx2] at hbound
    exact absurd hbound (by decide)
  · rintro ⟨hend,hroom⟩ i hi hload v hv
    obtain ⟨_,L₂,hpop⟩ := hgood (show need (planPages f size) ≤ _ by omega)
    have hmem := hpages.mpr ⟨i,hi,hload,mem_segPages_of_overlaps (phdrAt_words f i) (hend i hi hload) hv⟩
    exact ⟨(huser hmem).high,(hpop.accessible_iff (huser hmem)).mpr hmem⟩

theorem boot_clone (hpool : ∀ i, k.tasks (.slot i) = Task.zero) :
    ∃ n L p, pagingCloneDirectory (boot k).paging (boot k).phys = (n * pageSize, p) ∧ n * pageSize ≠ 0 ∧
      p.pmm.usedFrames.toNat = 776 ∧ Populated f (boot k).paging n 3320 [] L p := by
  obtain ⟨_,L,hown⟩ := (boot_sound hpool).1
  have hused := boot_used k
  rcases pagingCloneDirectory_spec hown.accounts hown.kernel none with ⟨_,_,_,hfew⟩ | ⟨n,t,L',p,hclone,hcl⟩
  · rw [hused] at hfew
    exact absurd hfew (by decide)
  · have hpop := populated_cloned (f := f) hcl hown.kernel hown.accounts
    rw [hused] at hpop
    refine ⟨n,L',p,hclone,Nat.mul_ne_zero (Nat.ne_of_gt hcl.nonzero) (by decide),?_,hpop⟩
    rw [hcl.accounts.count, hcl.count, ← hown.accounts.count, hused]

theorem loadSegments_complete_tiny :
    ∃ dir p₂, pagingCloneDirectory (boot idleKernel).paging (boot idleKernel).phys = (dir, p₂) ∧
      (loadSegments tinyElf 84 dir p₂ 0 (readEhdr tinyElf).phnum).1 = true ∧
      ∀ i < (readEhdr tinyElf).phnum, Loadable (phdrAt tinyElf i) → ∀ v, Overlaps (phdrAt tinyElf i) v →
        v < 2 ^ 32 ∧ Accessible (loadSegments tinyElf 84 dir p₂ 0 (readEhdr tinyElf).phnum).2.mem dir v := by
  have hpool : ∀ i, idleKernel.tasks (.slot i) = Task.zero := fun _ => rfl
  obtain ⟨n,L,p,hclone,hdir,hused,hpop⟩ := boot_clone (f := tinyElf) hpool
  have hneed : need (planPages tinyElf 84) ≤ 3320 := by decide +kernel
  have hload := (loadAll_populates hpop (l := (plan tinyElf 84 0 (readEhdr tinyElf).phnum).2)
    fun x hx => (plan_planned hx).userPage).1 hneed
  have hplan : (plan tinyElf 84 0 (readEhdr tinyElf).phnum).1 = true := by decide +kernel
  have hok : (loadSegments tinyElf 84 (n * pageSize) p 0 (readEhdr tinyElf).phnum).1 = true := by
    rw [loadSegments_eq]
    exact Bool.and_eq_true_iff.mpr ⟨hplan,hload.1⟩
  have hreach : Reachable flatImage idleKernel (boot idleKernel) [] := ⟨hpool,.refl⟩
  refine ⟨_,p,hclone,hok,(loadSegments_complete_iff hreach hclone hdir hok).mpr ⟨by decide +kernel,?_⟩⟩
  rw [hused]
  exact Nat.add_le_add_left hneed 776

/-- A program whose segment ends with the address space. -/
def wrapElf : File := elfFile 0x1000054 52 1 [⟨ptLoad,0,0xFFFFE000,0,0x2000,5⟩]

/-- The rounded end of the segment is 0, so that none of it is loaded and nothing is reported. -/
theorem loadSegments_skips_wrapped :
    Loadable (phdrAt wrapElf 0) ∧ Overlaps (phdrAt wrapElf 0) 0xFFFFE000 ∧
      ∃ dir p₂, pagingCloneDirectory (boot idleKernel).paging (boot idleKernel).phys = (dir, p₂) ∧ dir ≠ 0 ∧
        loadSegments wrapElf 84 dir p₂ 0 (readEhdr wrapElf).phnum = (true, p₂) ∧
        ¬Accessible p₂.mem dir 0xFFFFE000 := by
  have hpool : ∀ i, idleKernel.tasks (.slot i) = Task.zero := fun _ => rfl
  obtain ⟨n,L,p,hclone,hdir,_,hpop⟩ := boot_clone (f := wrapElf) hpool
  have hplan : plan wrapElf 84 0 (readEhdr wrapElf).phnum = (true, []) := by decide +kernel
  refine ⟨by decide +kernel,⟨by decide,by decide +kernel,by decide +kernel⟩,_,p,hclone,hdir,?_,fun hacc => ?_⟩
  · rw [loadSegments_eq, hplan]
    rfl
  · exact absurd ((hpop.accessible_iff ⟨by decide,by decide,by decide⟩).mp hacc) List.not_mem_nil

end

/-! ## The contents of a started program -/

/-- Program header `i` at its offset in exact arithmetic. -/
def header (f : File) (i : ℕ) : Phdr := readPhdr f ((readEhdr f).phoff + i * (readEhdr f).phentsize)

/-- A file whose segments lie inside it and in the user range, with no common page. -/
structure WellFormed (f : File) (size : ℕ) : Prop where
  valid : elfValidate (some f) size = 0
  table : (readEhdr f).phoff + (readEhdr f).phnum * (readEhdr f).phentsize ≤ size
  filesz_le : ∀ i < (readEhdr f).phnum, Loadable (header f i) → (header f i).filesz ≤ (header f i).memsz
  file_le : ∀ i < (readEhdr f).phnum, Loadable (header f i) → (header f i).offset + (header f i).filesz ≤ size
  vaddr_ge : ∀ i < (readEhdr f).phnum, Loadable (header f i) → 0x1000000 ≤ (header f i).vaddr
  end_le : ∀ i < (readEhdr f).phnum, Loadable (header f i) → (header f i).vaddr + (header f i).memsz ≤ userStackVirt
  disjoint : ∀ i j, i < j → j < (readEhdr f).phnum → Loadable (header f i) → Loadable (header f j) →
    ∀ v, Overlaps (header f i) v → ¬Overlaps (header f j) v

/-- The directory shows a segment: its bytes, zeroes behind the file data and around the
segment, writable as the header says. -/
structure Pictures (m : Mem) (dir : ℕ) (f : File) (ph : Phdr) : Prop where
  inside : ∀ k < ph.memsz, ∃ e, walk m dir (ph.vaddr + k) = some e ∧ isUser e.1 ∧ isUser e.2 ∧
    (isWritable e.1 ∧ isWritable e.2 ↔ ph.flags &&& pfW ≠ 0) ∧
    m (pageFrame e.2 + (ph.vaddr + k) % pageSize) = if k < ph.filesz then f (ph.offset + k) else 0
  outside : ∀ v, Overlaps ph v → ∀ o < pageSize, v + o < ph.vaddr ∨ ph.vaddr + ph.memsz ≤ v + o →
    ∃ a, Memory.translate m dir (v + o) = some a ∧ m a = 0

/-- The segments and the stack of a program, as its directory shows them. -/
structure Built (m : Mem) (dir : ℕ) (f : File) : Prop where
  segments : ∀ i < (readEhdr f).phnum, Loadable (header f i) → Pictures m dir f (header f i)
  stack : ∃ e, walk m dir userStackVirt = some e ∧ isUser e.1 ∧ isUser e.2 ∧ isWritable e.1 ∧ isWritable e.2

/-- The bytes of a page when no sum of its header wraps. -/
theorem pageByte_eq {f : File} {ph : Phdr} (hfile : ph.vaddr + ph.filesz < 2 ^ 32) (hoff : ph.offset + ph.filesz < 2 ^ 32)
    {v o : ℕ} (hv : v + pageSize < 2 ^ 32) (ho : o < pageSize) :
    pageByte f ph v o =
      if ph.vaddr ≤ v + o ∧ v + o < ph.vaddr + ph.filesz then f (ph.offset + (v + o - ph.vaddr)) else 0 := by
  unfold pageByte
  rw [copyRange_eq, add32_of_lt hfile, add32_of_lt hv]
  by_cases hlt : max v ph.vaddr < min (ph.vaddr + ph.filesz) (v + pageSize)
  · rw [if_pos hlt]
    dsimp only
    by_cases hin : ph.vaddr ≤ v + o ∧ v + o < ph.vaddr + ph.filesz
    · rw [if_pos hin, if_pos (by omega), add32_of_lt (show ph.offset + (max v ph.vaddr - ph.vaddr) < 2 ^ 32 by omega),
        add32_of_lt (by omega)]
      congr 1
      omega
    · rw [if_neg hin, if_neg (by omega)]
  · rw [if_neg hlt, if_neg (by omega)]

namespace WellFormed
variable {f : File} {size : ℕ} (h : WellFormed f size) (hsize : size < 2 ^ 32)
include h hsize

theorem phdrAt_eq {i : ℕ} (hi : i < (readEhdr f).phnum) : phdrAt f i = header f i := by
  have htable := h.table
  have hle : i * (readEhdr f).phentsize ≤ (readEhdr f).phnum * (readEhdr f).phentsize := Nat.mul_le_mul_right _ hi.le
  rw [phdrAt, header, add32_of_lt (by omega)]

theorem plan_ok : (plan f size 0 (readEhdr f).phnum).1 = true := by
  refine plan_ok_iff.mpr fun i _ hi => ?_
  rw [Nat.zero_add] at hi
  rw [h.phdrAt_eq hsize hi]
  by_cases hload : Loadable (header f i)
  · have h1 := h.filesz_le i hi hload
    have h2 := h.file_le i hi hload
    have h3 : kernelPdeCount * 4 * 1024 * 1024 ≤ (header f i).vaddr := h.vaddr_ge i hi hload
    unfold verdict
    rw [if_neg (not_not.mpr hload.1), if_neg (Nat.ne_of_gt hload.2), if_neg (Nat.not_lt.mpr h1),
      add32_of_lt (Nat.lt_of_le_of_lt h2 hsize), if_neg (Nat.not_lt.mpr h2), if_neg (Nat.not_lt.mpr h3)]
    exact Verdict.noConfusion
  · rcases verdict_cases size (header f i) with ⟨hv,_⟩ | ⟨_,hl⟩ | ⟨_,hl⟩
    · rw [hv]
      exact Verdict.noConfusion
    · exact absurd hl hload
    · exact absurd hl hload

theorem words {i : ℕ} (hi : i < (readEhdr f).phnum) : (header f i).Words := h.phdrAt_eq hsize hi ▸ phdrAt_words f i

theorem mem_wanted {i v : ℕ} (hi : i < (readEhdr f).phnum) (hload : Loadable (header f i)) (hv : Overlaps (header f i) v) :
    (header f i, v) ∈ wanted f size ∧ v < userStackVirt := by
  have hend := h.end_le i hi hload
  have hstack : userStackVirt = 0xBFFFF000 := rfl
  refine ⟨List.mem_append_left _ ((mem_plan_of_ok (h.plan_ok hsize)).mpr ⟨i,hi,(h.phdrAt_eq hsize hi).symm,?_,?_⟩),?_⟩
  · rwa [h.phdrAt_eq hsize hi]
  · rw [h.phdrAt_eq hsize hi]
    exact mem_segPages_of_overlaps (h.words hsize hi) (by omega) hv
  · exact Nat.lt_of_lt_of_le hv.2.1 hend

theorem wanted_nodup : (wantedPages f size).Nodup := by
  have hdisj : ((plan f size 0 (readEhdr f).phnum).2.map (·.2)).Nodup := by
    refine plan_nodup fun i j _ hij hj hi' hj' v hv hv' => ?_
    rw [Nat.zero_add] at hj
    rw [h.phdrAt_eq hsize (hij.trans hj)] at hi' hv
    rw [h.phdrAt_eq hsize hj] at hj' hv'
    exact h.disjoint i j hij hj hi' hj' v (overlaps_of_mem_segPages (h.words hsize (hij.trans hj)) hv)
      (overlaps_of_mem_segPages (h.words hsize hj) hv')
  rw [wantedPages, wanted, if_pos (h.plan_ok hsize), List.map_append]
  refine List.nodup_append.mpr ⟨hdisj,List.nodup_singleton _,fun v hv w hw => ?_⟩
  obtain ⟨x,hx,rfl⟩ := List.mem_map.mp hv
  obtain ⟨i,hi,_,hload,hseg⟩ := (mem_plan_of_ok (h.plan_ok hsize)).mp hx
  rw [h.phdrAt_eq hsize hi] at hload hseg
  have hlt := (h.mem_wanted hsize hi hload (overlaps_of_mem_segPages (h.words hsize hi) hseg)).2
  rw [List.mem_singleton.mp hw]
  exact hlt.ne

end WellFormed

theorem walk_page (m : Mem) (dir va : ℕ) : walk m dir va = walk m dir (va / pageSize * pageSize) := by
  have hi : pageDirIndex (va / pageSize * pageSize) = pageDirIndex va := by
    rw [pageDirIndex_eq, pageDirIndex_eq]
    simp only [pageSize]
    omega
  have hj : pageTableIndex (va / pageSize * pageSize) = pageTableIndex va := by
    rw [pageTableIndex_eq, pageTableIndex_eq]
    simp only [pageSize]
    omega
  unfold walk
  rw [hi, hj]

section
variable {pg : Paging} {n F a : ℕ} {L : Frames} {p : Phys} {f : File} {size : ℕ} {m : Mem}

theorem pictures_of_shown {ph : Phdr} (hle : ph.filesz ≤ ph.memsz) (hfile : ph.vaddr + ph.filesz < 2 ^ 32)
    (hoff : ph.offset + ph.filesz < 2 ^ 32)
    (hopen : ∀ v, Overlaps ph v → v + pageSize < 2 ^ 32 ∧ Shown f L m n v (some ph) ∧
      ∀ e, walk m (n * pageSize) v = some e → isUser e.1 ∧ isWritable e.1) : Pictures m (n * pageSize) f ph := by
  -- what is found at offset `o` of an overlapping page
  have hbyte : ∀ v, Overlaps ph v → ∀ o < pageSize, ∃ e, walk m (n * pageSize) (v + o) = some e ∧ isUser e.1 ∧ isUser e.2 ∧
      (isWritable e.1 ∧ isWritable e.2 ↔ ph.flags &&& pfW ≠ 0) ∧
      m (pageFrame e.2 + (v + o) % pageSize) =
        if ph.vaddr ≤ v + o ∧ v + o < ph.vaddr + ph.filesz then f (ph.offset + (v + o - ph.vaddr)) else 0 := by
    intro v hv o ho
    obtain ⟨hlt,⟨a,pde,ha,_,hwalk,hbytes⟩,htable⟩ := hopen v hv
    obtain ⟨hpte,_,hdiv⟩ := pteValue_spec ha (segFlags ph)
    obtain ⟨hu,hw⟩ := htable _ hwalk
    have hpage : (v + o) / pageSize * pageSize = v ∧ (v + o) % pageSize = o := by
      obtain ⟨c,rfl⟩ := hv.1
      simp only [pageSize] at *
      omega
    refine ⟨_,(walk_page m _ _).trans (by rw [hpage.1, hwalk]),hu,isUser_pteValue _ (segFlags_user ph),?_,?_⟩
    · rw [isWritable_pteValue, isWritable_segFlags]
      exact and_iff_right hw
    · rw [← pageByte_eq hfile hoff hlt ho, ← hbytes o ho, hpage.2, pageFrame_eq hpte, hdiv]
  refine ⟨fun k hk => ?_,fun v hv o ho hout => ?_⟩
  · have hsplit : (ph.vaddr + k) / pageSize * pageSize + (ph.vaddr + k) % pageSize = ph.vaddr + k :=
      Nat.div_add_mod' _ _
    have hmod : (ph.vaddr + k) % pageSize < pageSize := Nat.mod_lt _ (by decide)
    have hover : Overlaps ph ((ph.vaddr + k) / pageSize * pageSize) := ⟨Dvd.intro_left _ rfl,by omega,by omega⟩
    obtain ⟨e,he,hu1,hu2,hw,hb⟩ := hbyte _ hover _ hmod
    rw [hsplit] at he hb
    refine ⟨e,he,hu1,hu2,hw,hb.trans ?_⟩
    rw [Nat.add_sub_cancel_left]
    exact if_congr (by omega) rfl rfl
  · obtain ⟨e,he,_,_,_,hb⟩ := hbyte v hv o ho
    exact ⟨_,by rw [Memory.translate, he]; rfl,hb.trans (if_neg (by omega))⟩

/-- What the load of a well-formed file leaves, whatever is written to the stack page. -/
theorem Populated.built (h : Populated f pg n F (wanted f size) L p) (hwf : WellFormed f size) (hsize : size < 2 ^ 32)
    (ha : L a = some (.task none (.page (pageDirIndex userStackVirt) (pageTableIndex userStackVirt))))
    (hm : ∀ x o, L (x / pageSize) = some o → x / pageSize ≠ a → m x = p.mem x) : Built m (n * pageSize) f := by
  have hwalk : ∀ v, walk m (n * pageSize) v = walk p.mem (n * pageSize) v := by
    refine h.space.walk_keep fun x o ho _ hpage => hm x o ho ?_
    rintro rfl
    rw [ha, Option.some.injEq] at ho
    exact hpage _ _ ho.symm
  have hshown : ∀ x ∈ wanted f size, Shown f L p.mem n x.2 (some x.1) := by
    intro x hx
    rw [← placed_eq_some (hwf.wanted_nodup hsize) hx]
    exact h.shown x.2 (wanted_userPage x hx)
  refine ⟨fun i hi hload => ?_,?_⟩
  · have hstack : userStackVirt = 0xBFFFF000 := rfl
    have hle := hwf.filesz_le i hi hload
    have hend := hwf.end_le i hi hload
    have hfile := hwf.file_le i hi hload
    refine pictures_of_shown (L := L) hle (by omega) (by omega) fun v hv => ?_
    obtain ⟨hmem,hlt⟩ := hwf.mem_wanted hsize hi hload hv
    have hpage := wanted_userPage _ hmem
    refine ⟨by simp only [pageSize]; omega,?_,fun e he => h.open_table hpage ((hwalk v).symm.trans he)⟩
    refine (hshown _ hmem).congr (fun _ _ _ hg => hg) (fun y hy => hm y _ hy ?_) (g := id) ?_
    · rintro rfl
      rw [ha, Option.some.injEq, Owner.task.injEq, Slot.page.injEq] at hy
      exact hlt.ne (hpage.ext userPage_stack hy.2.1.symm hy.2.2.symm)
    · exact (hwalk v).trans Option.map_id'.symm
  · have hmem : (stackPhdr, userStackVirt) ∈ wanted f size := by
      rw [wanted, if_pos (hwf.plan_ok hsize)]
      exact List.mem_append_right _ (List.mem_singleton_self _)
    obtain ⟨b,pde,_,_,he,_⟩ := hshown _ hmem
    obtain ⟨hu,hw⟩ := h.open_table userPage_stack he
    refine ⟨_,(hwalk _).trans he,hu,isUser_pteValue _ (segFlags_user _),hw,?_⟩
    rw [isWritable_pteValue, isWritable_segFlags]
    decide

/-- With frames for all wanted pages and their tables the load succeeds, the stack page last. -/
theorem wanted_populates (h : Populated f pg n F [] L p) (hplan : (plan f size 0 (readEhdr f).phnum).1 = true)
    (hroom : need (wantedPages f size) ≤ F) :
    (loadAll f (n * pageSize) p (wanted f size)).1 = true ∧
      ∃ a L', a < totalFrames ∧
        (loadAll f (n * pageSize) p (plan f size 0 (readEhdr f).phnum).2).2.allocPage.1 = a * pageSize ∧
        L' a = some (.task none (.page (pageDirIndex userStackVirt) (pageTableIndex userStackVirt))) ∧
        Populated f pg n F (wanted f size) L' (loadAll f (n * pageSize) p (wanted f size)).2 ∧
        ∃ pde, walk (loadAll f (n * pageSize) p (wanted f size)).2.mem (n * pageSize) userStackVirt =
          some (pde, pteValue (a * pageSize) (segFlags stackPhdr)) := by
  have hwanted : wanted f size = (plan f size 0 (readEhdr f).phnum).2 ++ [(stackPhdr, userStackVirt)] := by
    rw [wanted, if_pos hplan]
  have hneed : need ((plan f size 0 (readEhdr f).phnum).2.map (·.2) ++ [userStackVirt]) ≤ F := by
    rw [wantedPages, hwanted, List.map_append] at hroom
    exact hroom
  have hlt := need_lt_append ((plan f size 0 (readEhdr f).phnum).2.map (·.2)) userStackVirt
  obtain ⟨hok,L₁,h₁⟩ := (loadAll_populates h (l := (plan f size 0 (readEhdr f).phnum).2)
    fun x hx => (plan_planned hx).userPage).1 (hlt.le.trans hneed)
  rw [List.nil_append] at h₁
  rw [hwanted, loadAll_append, if_pos hok]
  revert h₁
  generalize (loadAll f (n * pageSize) p (plan f size 0 (readEhdr f).phnum).2).2 = p₁
  intro h₁
  rcases loadAll_turn f (n * pageSize) stackPhdr userStackVirt h₁.accounts with ⟨hfull,_⟩ | ⟨a,ha,hfree,he,hload⟩
  · have hall := Ledger.count_eq_card fun g hg => hfull g (Finset.mem_range.mp hg)
    have hbudget := h₁.budget
    rw [hall, Finset.card_range] at hbudget
    omega
  · have hfill : ∀ x, x / pageSize ≠ a → fillPage f stackPhdr p₁.mem (a * pageSize) userStackVirt x = p₁.mem x :=
      fun x hx => fillPage_apply f stackPhdr p₁.mem userStackVirt hx
    have hbytes : ∀ o < pageSize, fillPage f stackPhdr p₁.mem (a * pageSize) userStackVirt (a * pageSize + o) =
        pageByte f stackPhdr userStackVirt o := fun o ho => fillPage_byte f stackPhdr p₁.mem (a * pageSize) userStackVirt ho
    rw [hload, loadAll]
    refine ⟨rfl,a,?_⟩
    rcases h₁.step stackPhdr userPage_stack ha hfree hfill hbytes rfl with ⟨L₂,h₂,hlabel,hfound⟩ | ⟨hshort,_⟩
    · exact ⟨L₂,ha,he,hlabel,h₂,hfound⟩
    · omega

end

section
variable {img : Image} {k₀ k k' : Kernel} {live : List (Fin 64)} {L : Frames} {p : Phys} {f : File} {size n a : ℕ}
  {name : List UInt8} {argv : Option (ℕ → Arg)} {argc : ℤ} {i : Fin 64}

theorem startTask_keeps (hs : SchedOk k live) (hacc : Accounts L p.pmm) (ha : a < totalFrames)
    (hcall : startTask img { k with phys := p } f name (n * pageSize) (a * pageSize) argv argc = some (some i, k')) :
    (k'.tasks (.slot i)).cr3 = n * pageSize ∧
      ∀ x o, L (x / pageSize) = some o → x / pageSize ≠ a → k'.phys.mem x = p.mem x := by
  obtain ⟨esp,m,hargs,⟨hnone,_⟩ | ⟨j,g,k₁,_,hj,hready,hl⟩⟩ := startTask_ending hs hacc hcall
  · cases hnone
  · cases hj
    refine ⟨by rw [hl.self]; exact hready.cr3,fun x o ho hx => ?_⟩
    have hlen : (userFrame img esp (readEhdr f).entry).length ≤ 1024 := by simp [userFrame]
    rw [hl.phys, hready.esp0, hready.phys]
    exact (push_stack _ hlen (Ledger.ne_of_free ho hready.free)).trans (setupUserStackArgs_apply hargs ha hx)

theorem startTask_starts (hs : SchedOk k live) (hacc : Accounts L p.pmm) (hslot : allocTcb k ≠ none)
    (hroom : p.pmm.usedFrames.toNat < totalFrames) (hargs : setupUserStackArgs p.mem (a * pageSize) argv argc ≠ none) :
    ∃ i k', startTask img { k with phys := p } f name (n * pageSize) (a * pageSize) argv argc = some (some i, k') := by
  obtain ⟨res,k',hcall⟩ := startTask_returns img hs f name (n * pageSize) hargs
  obtain ⟨_,_,_,⟨_,_,_,hslot' | hfull⟩ | ⟨i,_,_,_,rfl,_⟩⟩ := startTask_ending hs hacc hcall
  · exact absurd hslot' hslot
  · exact absurd hfull (Nat.not_le.mpr hroom)
  · exact ⟨i,k',hcall⟩

/-- `elf_exec_mem` builds a directory that shows the segments of a well-formed file and an
open stack. A task that is started has this directory; only the want of a task slot, or
arguments that the stack page cannot take, keep it from being started. -/
theorem elfExecMem_builds (hrun : Reachable img k₀ k live) (hwf : WellFormed f size) (hsize : size < 2 ^ 32)
    (hroom : k.phys.pmm.usedFrames.toNat + need (wantedPages f size) + 3 ≤ totalFrames) (name : List UInt8)
    (argv : Option (ℕ → Arg)) (argc : ℤ) :
    ∃ dir ustack p,
      elfExecMem img k (some f) size (some name) argv argc =
        startTask img { k with phys := p } f name dir ustack argv argc ∧
      Built p.mem dir f ∧
      (∀ i k', elfExecMem img k (some f) size (some name) argv argc = some (some i, k') →
        (k'.tasks (.slot i)).cr3 = dir ∧ Built k'.phys.mem dir f) ∧
      (allocTcb k ≠ none → setupUserStackArgs p.mem ustack argv argc ≠ none →
        ∃ i k', elfExecMem img k (some f) size (some name) argv argc = some (some i, k')) := by
  obtain ⟨⟨hsched,L,hown⟩,_⟩ := hrun.sound
  have hnz : size ≠ 0 := by
    rintro rfl
    cases hwf.valid
  rcases pagingCloneDirectory_spec hown.accounts hown.kernel none with ⟨_,_,_,hfew⟩ | ⟨n,t,L',p₂,hclone,hcl⟩
  · omega
  have hdir : n * pageSize ≠ 0 := Nat.mul_ne_zero (Nat.ne_of_gt hcl.nonzero) (by decide)
  have hplan := hwf.plan_ok hsize
  obtain ⟨hok,a,L₃,ha,halloc,hLa,hpop,_⟩ := wanted_populates (populated_cloned hcl hown.kernel hown.accounts) hplan
    (show need (wantedPages f size) ≤ _ by omega)
  have hexec : elfExecMem img k (some f) size (some name) argv argc =
      startTask img { k with phys := (loadAll f (n * pageSize) p₂ (wanted f size)).2 } f name (n * pageSize) (a * pageSize)
        argv argc := by
    rw [elfExecMem, if_neg hnz, elfLoadInternal_eq hwf.valid hclone hdir, hplan, hok, halloc]
    rfl
  rw [hexec]
  refine ⟨_,_,_,rfl,hpop.built hwf hsize hLa fun _ _ _ _ => rfl,fun i k' hcall => ?_,fun hslot hargs => ?_⟩
  · obtain ⟨hcr3,hkeep⟩ := startTask_keeps hsched hpop.accounts ha hcall
    exact ⟨hcr3,hpop.built hwf hsize hLa hkeep⟩
  · refine startTask_starts hsched hpop.accounts hslot ?_ hargs
    have hbudget := hpop.budget
    rw [hpop.accounts.count]
    have hsame : need ((wanted f size).map (·.2)) = need (wantedPages f size) := rfl
    omega

theorem elfExecMem_builds_tiny :
    ∃ i k', elfExecMem flatImage (boot idleKernel) (some tinyElf) 84 (some []) none 0 = some (some i, k') ∧
      Built k'.phys.mem (k'.tasks (.slot i)).cr3 tinyElf := by
  have hpool : ∀ i, idleKernel.tasks (.slot i) = Task.zero := fun _ => rfl
  have hone : (readEhdr tinyElf).phnum = 1 := by decide +kernel
  have hwf : WellFormed tinyElf 84 := by
    refine ⟨by decide +kernel,by decide +kernel,by decide +kernel,by decide +kernel,by decide +kernel,by decide +kernel,?_⟩
    intro i j hij hj
    omega
  have hreach : Reachable flatImage idleKernel (boot idleKernel) [] := ⟨hpool,.refl⟩
  have hroom : (boot idleKernel).phys.pmm.usedFrames.toNat + need (wantedPages tinyElf 84) + 3 ≤ totalFrames := by
    rw [boot_used]
    decide +kernel
  obtain ⟨dir,ustack,p,_,_,hbuilt,hstarts⟩ := elfExecMem_builds hreach hwf (by decide) hroom [] none 0
  have hslot : allocTcb (boot idleKernel) ≠ none := by
    rw [allocTcb_empty (boot_sound hpool).1.sched]
    exact Option.some_ne_none _
  obtain ⟨i,k',hcall⟩ := hstarts hslot (Option.some_ne_none _)
  obtain ⟨hcr3,hb⟩ := hbuilt i k' hcall
  exact ⟨i,k',hcall,hcr3 ▸ hb⟩

end

end ApPa.Exec

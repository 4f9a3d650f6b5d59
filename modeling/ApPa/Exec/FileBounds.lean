import ApPa.Exec.Plan

/-! # Which bytes of the file are read

A load reads the program headers and copies byte ranges of the file. `elf_validate` and the
checks of `load_segments` bound both by 32-bit sums of fields of the file; where such a sum
wraps, the loader reads outside the file.
-/
namespace ApPa.Exec
open Memory Word32

/-- The bytes of the file that belong to a planned page: offset and length. -/
def sourceRange (x : Phdr × ℕ) : Option (ℕ × ℕ) := (copyRange x.1 x.2).map Prod.snd

/-- The ranges copied by a load that is granted `pages` pages. -/
def copies (f : File) (size pages : ℕ) : List (ℕ × ℕ) :=
  ((plan f size 0 (readEhdr f).phnum).2.take pages).filterMap sourceRange

/-- The number of pages a load fills before memory runs out. -/
def granted (f : File) (dir : ℕ) (p : Phys) : List (Phdr × ℕ) → ℕ
  | [] => 0
  | (ph, vpage) :: pages =>
    let (phys, p) := p.allocPage
    if phys = 0 then 0
    else
      let p := { p with mem := fillPage f ph p.mem phys vpage }
      granted f dir (pagingMapPageIn p dir vpage phys (segFlags ph)) pages + 1

/-! ## The copied ranges are all that a load reads -/

section
variable {f f' : File} {size dir : ℕ} {p : Phys}

theorem fillPage_congr {ph : Phdr} {v : ℕ}
    (h : ∀ r, sourceRange (ph, v) = some r → bytesAt f' r.1 r.2 = bytesAt f r.1 r.2) (m : ByteMem.Mem) (phys : ℕ) :
    fillPage f' ph m phys v = fillPage f ph m phys v := by
  unfold fillPage
  cases hc : copyRange ph v with
  | none => rfl
  | some r =>
    obtain ⟨dst,off,len⟩ := r
    have hr := h (off, len) (by rw [sourceRange, hc]; rfl)
    dsimp only at hr ⊢
    rw [hr]

theorem loadAll_congr {l : List (Phdr × ℕ)}
    (h : ∀ r ∈ (l.take (granted f dir p l)).filterMap sourceRange, bytesAt f' r.1 r.2 = bytesAt f r.1 r.2) :
    loadAll f' dir p l = loadAll f dir p l := by
  induction l generalizing p with
  | nil => rfl
  | cons x l ih =>
    obtain ⟨ph,v⟩ := x
    simp only [loadAll, granted] at h ⊢
    split
    · rfl
    · rename_i hz
      rw [if_neg hz, List.take_succ_cons, List.filterMap_cons] at h
      have hpage : ∀ r, sourceRange (ph, v) = some r → bytesAt f' r.1 r.2 = bytesAt f r.1 r.2 := by
        intro r hr
        rw [hr] at h
        exact h r List.mem_cons_self
      rw [fillPage_congr hpage]
      refine ih fun r hr => h r ?_
      cases sourceRange (ph, v) with
      | none => exact hr
      | some r' => exact List.mem_cons_of_mem _ hr

/-- Two files with one plan are loaded alike when they agree on the copied ranges. -/
theorem loadSegments_congr
    (hplan : plan f' size 0 (readEhdr f').phnum = plan f size 0 (readEhdr f).phnum)
    (h : ∀ r ∈ copies f size (granted f dir p (plan f size 0 (readEhdr f).phnum).2),
      bytesAt f' r.1 r.2 = bytesAt f r.1 r.2) :
    loadSegments f' size dir p 0 (readEhdr f').phnum = loadSegments f size dir p 0 (readEhdr f).phnum := by
  rw [loadSegments_eq, loadSegments_eq, hplan, loadAll_congr h]

end

/-! ## Bounds -/

theorem mem_segPages_of {ph : Phdr} {v : ℕ} (hvaddr : ph.vaddr < 2 ^ 32) (hdvd : pageSize ∣ v) (hlo : segStart ph ≤ v)
    (hhi : v < segEnd ph) : v ∈ segPages ph := by
  have hs : segStart ph = ph.vaddr / pageSize * pageSize := land_frame hvaddr
  have he : segEnd ph = add32 (add32 ph.vaddr ph.memsz) (pageSize - 1) / pageSize * pageSize :=
    land_frame (Nat.mod_lt _ (by decide))
  obtain ⟨c,rfl⟩ := hdvd
  refine List.mem_map.mpr ⟨c - ph.vaddr / pageSize,List.mem_range.mpr ?_,?_⟩
  · rw [hs] at hlo ⊢
    rw [he] at hhi ⊢
    simp only [pageSize] at *
    omega
  · rw [hs] at hlo ⊢
    simp only [pageSize] at *
    omega

theorem verdict_load {size : ℕ} {ph : Phdr} (h : verdict size ph = .load) : add32 ph.offset ph.filesz ≤ size := by
  unfold verdict at h
  split at h
  · cases h
  split at h
  · cases h
  split at h
  · cases h
  split at h
  · cases h
  · rename_i hle
    exact Nat.not_lt.mp hle

/-- The fields of a program header are 32-bit words. -/
structure Phdr.Words (ph : Phdr) : Prop where
  offset : ph.offset < 2 ^ 32
  vaddr : ph.vaddr < 2 ^ 32
  filesz : ph.filesz < 2 ^ 32

theorem phdrAt_words (f : File) (i : ℕ) : (phdrAt f i).Words := ⟨word_lt f _,word_lt f _,word_lt f _⟩

section
variable {size : ℕ} {ph : Phdr}

/-- No sum of the header wraps, or it wraps where it does no harm: no byte is copied, or the
pages of the segment end before the file does. -/
def Phdr.Bounded (size : ℕ) (ph : Phdr) : Prop :=
  ph.offset + ph.filesz < 2 ^ 32 ∨ 2 ^ 32 ≤ ph.vaddr + ph.filesz ∨ segEnd ph ≤ ph.vaddr ∨
    ph.offset + (segEnd ph - ph.vaddr) ≤ size

instance : Decidable (ph.Bounded size) := inferInstanceAs (Decidable (_ ∨ _))

/-- A copied range in exact arithmetic, up to the wrap of its offset. -/
theorem sourceRange_eq_some (hw : ph.Words) {v : ℕ} (hv : v ∈ segPages ph) {r : ℕ × ℕ}
    (h : sourceRange (ph, v) = some r) :
    ph.vaddr + ph.filesz < 2 ^ 32 ∧ max v ph.vaddr < min (ph.vaddr + ph.filesz) (v + pageSize) ∧
      r = (add32 ph.offset (max v ph.vaddr - ph.vaddr), min (ph.vaddr + ph.filesz) (v + pageSize) - max v ph.vaddr) := by
  obtain ⟨_,_,hhi⟩ := mem_segPages hv hw.vaddr
  have hend := segEnd_lt ph
  have hpage : add32 v pageSize = v + pageSize := add32_of_lt (by omega)
  obtain ⟨⟨dst,off,len⟩,hc,rfl⟩ := Option.map_eq_some_iff.mp h
  obtain ⟨hlt,_,hoff,hlen⟩ := copyRange_eq_some hc
  dsimp only at hlt hoff hlen
  rw [hpage] at hlt hlen
  have hfit : ph.vaddr + ph.filesz < 2 ^ 32 := by
    have hfilesz := hw.filesz
    unfold add32 at hlt
    omega
  rw [add32_of_lt hfit] at hlt hlen
  exact ⟨hfit,hlt,Prod.ext hoff hlen⟩

theorem inside_of_bounded (hw : ph.Words) (hsize : size < 2 ^ 32) (hload : verdict size ph = .load)
    (hb : ph.Bounded size) {v : ℕ} (hv : v ∈ segPages ph) {r : ℕ × ℕ} (hr : sourceRange (ph, v) = some r) :
    r.1 + r.2 ≤ size := by
  obtain ⟨hfit,hlt,rfl⟩ := sourceRange_eq_some hw hv hr
  obtain ⟨_,_,hhi⟩ := mem_segPages hv hw.vaddr
  -- the range ends where the file-backed part of the segment does, or before
  have hlast : ph.offset + (min (ph.vaddr + ph.filesz) (v + pageSize) - ph.vaddr) ≤ size := by
    rcases hb with hb | hb | hb | hb
    · have hle := verdict_load hload
      rw [add32_of_lt hb] at hle
      omega
    · omega
    · omega
    · omega
  dsimp only
  rw [add32_of_lt (by omega)]
  omega

theorem bounded_of_inside (hw : ph.Words) (hsize : size < 2 ^ 32)
    (h : ∀ v ∈ segPages ph, ∀ r, sourceRange (ph, v) = some r → r.1 + r.2 ≤ size) : ph.Bounded size := by
  by_contra hb
  unfold Phdr.Bounded at hb
  push Not at hb
  obtain ⟨hwrap,hfit,hpages,hover⟩ := hb
  have hoffset := hw.offset
  have hs : segStart ph = ph.vaddr / pageSize * pageSize := land_frame hw.vaddr
  have he : segEnd ph = add32 (add32 ph.vaddr ph.memsz) (pageSize - 1) / pageSize * pageSize :=
    land_frame (Nat.mod_lt _ (by decide))
  have hend := segEnd_lt ph
  -- the first byte of the segment that lies outside the file, and its page
  let b := size - ph.offset
  let v := (ph.vaddr + b) / pageSize * pageSize
  have hv : v ∈ segPages ph := by
    refine mem_segPages_of hw.vaddr (Dvd.intro_left _ rfl) ?_ ?_
    · simp only [hs, v, b, pageSize]
      omega
    · simp only [v, b, pageSize]
      omega
  have hstart : v ≤ ph.vaddr + b ∧ ph.vaddr + b < v + pageSize := by
    simp only [v, pageSize]
    omega
  have hnext : v + pageSize ≤ segEnd ph := (mem_segPages hv hw.vaddr).2.2
  have hlt : max v ph.vaddr < min (ph.vaddr + ph.filesz) (v + pageSize) := by
    simp only [b] at hstart
    omega
  have hr : sourceRange (ph, v) = some (add32 ph.offset (max v ph.vaddr - ph.vaddr),
      min (ph.vaddr + ph.filesz) (v + pageSize) - max v ph.vaddr) := by
    rw [sourceRange, copyRange_eq, add32_of_lt hfit, add32_of_lt (by omega : v + pageSize < 2 ^ 32), if_pos hlt]
    rfl
  have hin := h v hv _ hr
  dsimp only at hin
  simp only [b] at hstart
  rw [add32_of_lt (by omega)] at hin
  omega

end

/-- The planned pages are those of the loadable headers before the first rejected one. -/
theorem mem_plan_iff {f : File} {size i n : ℕ} {x : Phdr × ℕ} :
    x ∈ (plan f size i n).2 ↔ ∃ j, i ≤ j ∧ j < i + n ∧ (∀ l, i ≤ l → l < j → verdict size (phdrAt f l) ≠ .reject) ∧
      verdict size (phdrAt f j) = .load ∧ ∃ v ∈ segPages (phdrAt f j), x = (phdrAt f j, v) := by
  induction n generalizing i with
  | zero =>
    refine ⟨fun h => absurd h List.not_mem_nil,?_⟩
    rintro ⟨j,hlo,hhi,_⟩
    omega
  | succ n ih =>
    -- headers after the first are reached unless the first is rejected
    have hreach : ∀ {j}, i + 1 ≤ j → verdict size (phdrAt f i) ≠ .reject →
        (∀ l, i + 1 ≤ l → l < j → verdict size (phdrAt f l) ≠ .reject) →
        ∀ l, i ≤ l → l < j → verdict size (phdrAt f l) ≠ .reject := by
      intro j _ hi h l hl hlj
      rcases Nat.eq_or_lt_of_le hl with rfl | hl
      · exact hi
      · exact h l hl hlj
    rw [plan]
    constructor
    · intro h
      cases hv : verdict size (phdrAt f i) with
      | reject =>
        rw [hv] at h
        cases h
      | skip =>
        rw [hv] at h
        obtain ⟨j,hlo,hhi,hr,h⟩ := ih.mp h
        exact ⟨j,by omega,by omega,hreach hlo (by rw [hv]; decide) hr,h⟩
      | load =>
        rw [hv] at h
        rcases List.mem_append.mp h with h | h
        · obtain ⟨v,hv',rfl⟩ := List.mem_map.mp h
          exact ⟨i,le_rfl,by omega,fun l hl hli => absurd hli (Nat.not_lt.mpr hl),hv,v,hv',rfl⟩
        · obtain ⟨j,hlo,hhi,hr,h⟩ := ih.mp h
          exact ⟨j,by omega,by omega,hreach hlo (by rw [hv]; decide) hr,h⟩
    · rintro ⟨j,hlo,hhi,hr,hload,v,hv,rfl⟩
      rcases Nat.eq_or_lt_of_le hlo with rfl | hlt
      · rw [hload]
        exact List.mem_append_left _ (List.mem_map_of_mem hv)
      · have htail : (phdrAt f j, v) ∈ (plan f size (i + 1) n).2 :=
          ih.mpr ⟨j,hlt,by omega,fun l hl => hr l (by omega),hload,v,hv,rfl⟩
        cases hi : verdict size (phdrAt f i) with
        | reject => exact absurd hi (hr i le_rfl hlt)
        | skip => exact htail
        | load => exact List.mem_append_right _ htail

/-- The header table fits, or its end wraps and the last header is in the file all the same. -/
def Ehdr.Bounded (size : ℕ) (eh : Ehdr) : Prop :=
  eh.phoff + eh.phnum * eh.phentsize < 2 ^ 32 ∨ eh.phoff + (eh.phnum - 1) * eh.phentsize + sizeofPhdr ≤ size

instance {size : ℕ} {eh : Ehdr} : Decidable (eh.Bounded size) := inferInstanceAs (Decidable (_ ∨ _))

theorem check_passed {c : Prop} [Decidable c] {z : ℤ} (h : (if c then -1 else z) = 0) : ¬c ∧ z = 0 := by
  split at h
  · cases h
  · rename_i hc
    exact ⟨hc,h⟩

theorem elfValidate_eq_zero {f : File} {size : ℕ} (h : elfValidate (some f) size = 0) :
    (readEhdr f).phnum ≠ 0 ∧ sizeofPhdr ≤ (readEhdr f).phentsize ∧
      add32 (readEhdr f).phoff ((readEhdr f).phnum * (readEhdr f).phentsize) ≤ size := by
  unfold elfValidate at h
  obtain ⟨_,h⟩ := check_passed h
  obtain ⟨_,h⟩ := check_passed h
  obtain ⟨_,h⟩ := check_passed h
  obtain ⟨_,h⟩ := check_passed h
  obtain ⟨_,h⟩ := check_passed h
  obtain ⟨_,h⟩ := check_passed h
  obtain ⟨htable,h⟩ := check_passed h
  obtain ⟨hent,h⟩ := check_passed h
  obtain ⟨hend,_⟩ := check_passed h
  exact ⟨fun hz => htable (Or.inr hz),Nat.not_lt.mp hent,Nat.not_lt.mp hend⟩

theorem headers_inside_iff {f : File} {size : ℕ} (hv : elfValidate (some f) size = 0) :
    (∀ i < (readEhdr f).phnum, (readEhdr f).phoff + i * (readEhdr f).phentsize + sizeofPhdr ≤ size) ↔
      (readEhdr f).Bounded size := by
  obtain ⟨hnum,hent,hend⟩ := elfValidate_eq_zero hv
  have hmono : ∀ i j, i ≤ j → i * (readEhdr f).phentsize ≤ j * (readEhdr f).phentsize :=
    fun i j hij => Nat.mul_le_mul_right _ hij
  constructor
  · intro h
    exact Or.inr (h _ (by omega))
  · rintro (hfit | hlast) i hi
    · rw [add32_of_lt hfit] at hend
      have hle := hmono (i + 1) _ hi
      rw [Nat.add_mul, Nat.one_mul] at hle
      omega
    · have hle := hmono i _ (Nat.le_sub_one_of_lt hi)
      omega

/-- For an accepted file of 32-bit size, every program header and every range that a load
copies lies inside the file exactly when the end of the header table does not wrap, or its
last header is inside all the same, and every loadable header that is reached is bounded. -/
theorem elfValidate_inside_iff (f : File) {size : ℕ} (hsize : size < 2 ^ 32) (hv : elfValidate (some f) size = 0) :
    ((∀ i < (readEhdr f).phnum, (readEhdr f).phoff + i * (readEhdr f).phentsize + sizeofPhdr ≤ size) ∧
      ∀ pages, ∀ r ∈ copies f size pages, r.1 + r.2 ≤ size) ↔
    ((readEhdr f).Bounded size ∧ ∀ i < (readEhdr f).phnum, (∀ j < i, verdict size (phdrAt f j) ≠ .reject) →
      verdict size (phdrAt f i) = .load → (phdrAt f i).Bounded size) := by
  rw [headers_inside_iff hv]
  refine and_congr_right fun _ => ?_
  constructor
  · intro h i hi hreach hload
    refine bounded_of_inside (phdrAt_words f i) hsize fun v hv r hr => ?_
    have hmem : (phdrAt f i, v) ∈ (plan f size 0 (readEhdr f).phnum).2 := by
      refine mem_plan_iff.mpr ⟨i,Nat.zero_le i,?_,fun l _ => hreach l,hload,v,hv,rfl⟩
      rwa [Nat.zero_add]
    refine h (plan f size 0 (readEhdr f).phnum).2.length r (List.mem_filterMap.mpr ⟨_,?_,hr⟩)
    rwa [List.take_length]
  · intro h pages r hr
    obtain ⟨x,hx,hr⟩ := List.mem_filterMap.mp hr
    obtain ⟨i,_,hi,hreach,hload,v,hv,rfl⟩ := mem_plan_iff.mp (List.mem_of_mem_take hx)
    rw [Nat.zero_add] at hi
    exact inside_of_bounded (phdrAt_words f i) hsize hload (h i hi (fun l => hreach l (Nat.zero_le l)) hload) hv hr

/-- A program of one page above the kernel range. -/
def tinyElf : File := elfFile 0x1000054 52 1 [⟨ptLoad,0,0x1000000,84,84,5⟩]

theorem elfValidate_inside_tiny : elfValidate (some tinyElf) 84 = 0 ∧
    (∀ i < (readEhdr tinyElf).phnum, (readEhdr tinyElf).phoff + i * (readEhdr tinyElf).phentsize + sizeofPhdr ≤ 84) ∧
      ∀ pages, ∀ r ∈ copies tinyElf 84 pages, r.1 + r.2 ≤ 84 := by
  have hv : elfValidate (some tinyElf) 84 = 0 := by decide +kernel
  exact ⟨hv,(elfValidate_inside_iff tinyElf (by decide) hv).mpr (by decide +kernel)⟩

/-- A file whose header table ends at `2 ^ 32` is accepted, and its header is read outside. -/
theorem elfValidate_accepts_outside : elfValidate (some (elfFile 0x1000054 0xFFFFFFE0 1 [])) 52 = 0 ∧
    0 < (readEhdr (elfFile 0x1000054 0xFFFFFFE0 1 [])).phnum ∧
    52 < (readEhdr (elfFile 0x1000054 0xFFFFFFE0 1 [])).phoff + 0 * (readEhdr (elfFile 0x1000054 0xFFFFFFE0 1 [])).phentsize +
      sizeofPhdr := by
  decide +kernel

end ApPa.Exec

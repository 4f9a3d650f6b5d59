import ApPa.Exec.ImageLoad

/-! # Loading a file from a buffer

`elf_exec` reads a file into a buffer and loads the program from there. The buffer is longer than the file by
what follows it in memory. For a well-formed file this does not show: the load reads bytes of the file only.
-/
namespace ApPa.Exec
open Memory Tasks Word32

def fileOf (data : List UInt8) : File := fun i => data.getD i 0

section
variable {f f' : File} {size : ℕ} (hf : ∀ i < size, f' i = f i) (hsize : size < 2 ^ 32)
include hf hsize

theorem bytesAt_congr {off n : ℕ} (hin : off + n ≤ size) : bytesAt f' off n = bytesAt f off n := by
  refine List.map_congr_left fun t ht => ?_
  rw [List.mem_range] at ht
  rw [add32_of_lt (by omega)]
  exact hf _ (by omega)

theorem half_congr {off : ℕ} (hin : off + 2 ≤ size) : half f' off = half f off := by
  rw [half, bytesAt_congr hf hsize hin, half]

theorem word_congr {off : ℕ} (hin : off + 4 ≤ size) : word f' off = word f off := by
  rw [word, bytesAt_congr hf hsize hin, word]

theorem readEhdr_congr (h52 : sizeofEhdr ≤ size) :
    (readEhdr f').type = (readEhdr f).type ∧ (readEhdr f').machine = (readEhdr f).machine ∧
      (readEhdr f').entry = (readEhdr f).entry ∧ (readEhdr f').phoff = (readEhdr f).phoff ∧
      (readEhdr f').phentsize = (readEhdr f).phentsize ∧ (readEhdr f').phnum = (readEhdr f).phnum := by
  unfold sizeofEhdr at h52
  exact ⟨half_congr hf hsize (by omega),half_congr hf hsize (by omega),word_congr hf hsize (by omega),
    word_congr hf hsize (by omega),half_congr hf hsize (by omega),half_congr hf hsize (by omega)⟩

theorem elfValidate_congr : elfValidate (some f') size = elfValidate (some f) size := by
  by_cases h52 : size < sizeofEhdr
  · simp [elfValidate, h52]
  · obtain ⟨htype,hmachine,hentry,hphoff,hphentsize,hphnum⟩ := readEhdr_congr hf hsize (Nat.not_lt.mp h52)
    have hident : ∀ i < 16, (readEhdr f').ident i = (readEhdr f).ident i := by
      intro i hi
      unfold sizeofEhdr at h52
      exact hf i (by omega)
    simp only [elfValidate, htype, hmachine, hentry, hphoff, hphentsize, hphnum, hident 0 (by decide), hident 1 (by decide),
      hident 2 (by decide), hident 3 (by decide), hident 4 (by decide), hident 5 (by decide)]

omit hf hsize in
theorem plan_congr {i n : ℕ} (h : ∀ j, i ≤ j → j < i + n → phdrAt f' j = phdrAt f j) : plan f' size i n = plan f size i n := by
  induction n generalizing i with
  | zero => rfl
  | succ n ih =>
    have hrest : plan f' size (i + 1) n = plan f size (i + 1) n := ih fun j hj hj' => h j (by omega) (by omega)
    rw [plan, plan, h i le_rfl (by omega), hrest]

/-- A well-formed file is loaded from any buffer that starts with its bytes. -/
theorem WellFormed.elfLoadInternal_congr (h : WellFormed f size) (img : Image) (k : Kernel) (name : List UInt8)
    (argv : Option (ℕ → Arg)) (argc : ℤ) :
    elfLoadInternal img k f' size name argv argc = elfLoadInternal img k f size name argv argc := by
  have h52 : sizeofEhdr ≤ size := by
    by_contra hlt
    have hvalid := h.valid
    rw [elfValidate] at hvalid
    rw [if_pos (Nat.not_le.mp hlt)] at hvalid
    cases hvalid
  obtain ⟨_,_,hentry,hphoff,hphentsize,hphnum⟩ := readEhdr_congr hf hsize h52
  obtain ⟨_,hent,_⟩ := elfValidate_eq_zero h.valid
  have htable := h.table
  have hphdr : ∀ j, 0 ≤ j → j < 0 + (readEhdr f).phnum → phdrAt f' j = phdrAt f j := by
    intro j _ hj
    have hle : (j + 1) * (readEhdr f).phentsize ≤ (readEhdr f).phnum * (readEhdr f).phentsize :=
      Nat.mul_le_mul_right _ (by omega)
    rw [Nat.add_mul, Nat.one_mul] at hle
    unfold sizeofPhdr at hent
    have hoff : add32 (readEhdr f).phoff (j * (readEhdr f).phentsize) = (readEhdr f).phoff + j * (readEhdr f).phentsize :=
      add32_of_lt (by omega)
    have hfield : ∀ c ≤ 28, word f' (add32 (add32 (readEhdr f).phoff (j * (readEhdr f).phentsize)) c) =
        word f (add32 (add32 (readEhdr f).phoff (j * (readEhdr f).phentsize)) c) := by
      intro c hc
      rw [hoff, add32_of_lt (by omega)]
      exact word_congr hf hsize (by omega)
    have hfirst : word f' (add32 (readEhdr f).phoff (j * (readEhdr f).phentsize)) =
        word f (add32 (readEhdr f).phoff (j * (readEhdr f).phentsize)) := by
      rw [hoff]
      exact word_congr hf hsize (by omega)
    simp only [phdrAt, readPhdr, hphoff, hphentsize, hfirst, hfield 4 (by decide), hfield 8 (by decide),
      hfield 16 (by decide), hfield 20 (by decide), hfield 24 (by decide)]
  have hplan : plan f' size 0 (readEhdr f').phnum = plan f size 0 (readEhdr f).phnum := by
    rw [hphnum]
    exact plan_congr hphdr
  -- the segments lie in the file, so the copied ranges do
  have hcopies : ∀ pages, ∀ r ∈ copies f size pages, bytesAt f' r.1 r.2 = bytesAt f r.1 r.2 := by
    intro pages r hr
    obtain ⟨x,hx,hr⟩ := List.mem_filterMap.mp hr
    obtain ⟨i,_,hi,_,hload,v,hv,rfl⟩ := mem_plan_iff.mp (List.mem_of_mem_take hx)
    rw [Nat.zero_add] at hi
    refine bytesAt_congr hf hsize (inside_of_bounded (phdrAt_words f i) hsize hload (Or.inl ?_) hv hr)
    rw [h.phdrAt_eq hsize hi] at hload ⊢
    exact Nat.lt_of_le_of_lt (h.file_le i hi (loadable_of_load hload)) hsize
  have hsegments : ∀ dir p, loadSegments f' size dir p 0 (readEhdr f').phnum = loadSegments f size dir p 0 (readEhdr f).phnum :=
    fun dir p => loadSegments_congr hplan (hcopies _)
  simp only [elfLoadInternal, elfValidate_congr hf hsize, hsegments, hentry]

end

end ApPa.Exec

import ApPa.Lib.Ledger
import ApPa.Memory.Paging

/-! # Who holds each physical frame

The frame manager only knows whether a frame is in use. A ledger beside it says by whom:
the kernel, a place in the address space of a task, or nobody any more although the frame
is still marked.
-/
namespace ApPa.Memory

/-- A place of a task that holds a frame. -/
inductive Slot where
  | kstack
  | dir
  | pt0
  | table (i : ℕ)
  | page (i j : ℕ)
  deriving DecidableEq, Repr

/-- The tag of a task is its slot of the task pool, `none` as long as there is no such slot. -/
inductive Owner where
  | kernel
  | kernelTable
  | task (tag : Option (Fin 64)) (s : Slot)
  | lost
  deriving DecidableEq, Repr

abbrev Frames := Ledger ℕ Owner

/-- The bitmap and the counter of the manager are those of the ledger. -/
structure Tallies (L : Frames) (p : Pmm) : Prop where
  used : ∀ n, p.testFrame n = (L n).isSome
  bound : ∀ n, L n ≠ none → n < totalFrames
  count : p.usedFrames.toNat = Ledger.count (Finset.range totalFrames) L

namespace Tallies
variable {L : Frames} {p : Pmm}

theorem count_le (L : Frames) : Ledger.count (Finset.range totalFrames) L ≤ totalFrames :=
  (Finset.card_filter_le _ _).trans (Finset.card_range _).le

theorem testFrame_eq_false (h : Tallies L p) {n : ℕ} : p.testFrame n = false ↔ L n = none := by
  rw [h.used, Option.isSome_eq_false_iff, Option.isNone_iff_eq_none]

theorem testFrame_eq_true (h : Tallies L p) {n : ℕ} : p.testFrame n = true ↔ L n ≠ none := by
  rw [h.used, Option.isSome_iff_ne_none]

theorem take (h : Tallies L p) {n : ℕ} (hn : n < totalFrames) (hfree : L n = none) (o : Owner) :
    Tallies (Function.update L n (some o)) (p.setFrame n) where
  used m := by
    rw [Pmm.testFrame_setFrame, h.used]
    by_cases hm : m = n
    · simp [hm]
    · simp [hm, Ne.symm hm]
  bound m hm := by
    by_cases hmn : m = n
    · rw [hmn]
      exact hn
    · rw [Function.update_of_ne hmn] at hm
      exact h.bound m hm
  count := by
    have hle := count_le (Function.update L n (some o))
    have hc := Ledger.count_take (Finset.mem_range.mpr hn) hfree o
    rw [hc] at hle ⊢
    change (p.usedFrames + 1).toNat = _
    rw [UInt32.toNat_add, h.count]
    simp only [totalFrames] at hle ⊢
    change (_ + 1) % 4294967296 = _
    omega

theorem drop (h : Tallies L p) {n : ℕ} (hn : L n ≠ none) : Tallies (Function.update L n none) (p.clearFrame n) where
  used m := by
    rw [Pmm.testFrame_clearFrame, h.used]
    by_cases hm : m = n
    · simp [hm]
    · simp [hm, Ne.symm hm]
  bound m hm := by
    by_cases hmn : m = n
    · rw [hmn, Function.update_self] at hm
      exact absurd rfl hm
    · rw [Function.update_of_ne hmn] at hm
      exact h.bound m hm
  count := by
    have hle := count_le L
    have hc := Ledger.count_drop (Finset.mem_range.mpr (h.bound n hn)) hn
    have hu := h.count
    change (p.usedFrames - 1).toNat = _
    rw [UInt32.toNat_sub_of_le _ _ (by rw [UInt32.le_iff_toNat_le, hu, ← hc]; exact Nat.le_add_left 1 _), hu, ← hc]
    exact Nat.add_sub_cancel _ 1

theorem takeRun (h : Tallies L p) {start count : ℕ} (hb : start + count ≤ totalFrames)
    (hfree : ∀ k < count, L (start + k) = none) (o : Owner) :
    ∃ L', Tallies L' (p.setFrames start count) ∧ Ledger.Extends (· = o) L L' := by
  induction count generalizing L p start with
  | zero => exact ⟨L,h,Ledger.Extends.refl _ L⟩
  | succ count ih =>
    have hstart : L start = none := hfree 0 (Nat.succ_pos count)
    have hrest : ∀ k < count, Function.update L start (some o) (start + 1 + k) = none := by
      intro k hk
      rw [Function.update_of_ne (by omega), Nat.add_right_comm]
      exact hfree (k + 1) (by omega)
    obtain ⟨L',hL',hext⟩ := ih (h.take (by omega) hstart o) (by omega) hrest
    have hfirst : Ledger.Extends (· = o) L (Function.update L start (some o)) := Ledger.Extends.take hstart rfl
    exact ⟨L',hL',hfirst.trans hext⟩

theorem allocPages (h : Tallies L p) (count : ℕ) (o : Owner) :
    ∃ L', Tallies L' (p.allocPages count).2 ∧ Ledger.Extends (· = o) L L' ∧ (p.allocPages count).2.errors = p.errors := by
  by_cases h0 : count = 0
  · rw [Pmm.allocPages, if_pos h0]
    exact ⟨L,h,Ledger.Extends.refl _ L,rfl⟩
  rcases p.allocPages_first (Nat.pos_of_ne_zero h0) with ⟨start,hfirst,he⟩ | ⟨he,_⟩
  · obtain ⟨L',hL',hext⟩ := h.takeRun hfirst.fits (fun k hk => h.testFrame_eq_false.mp (hfirst.run k hk)) o
    rw [he]
    exact ⟨L',hL',hext,p.errors_setFrames start count⟩
  · rw [he]
    exact ⟨L,h,Ledger.Extends.refl _ L,rfl⟩

theorem free (h : Tallies L p) {n : ℕ} (hn : L n ≠ none) : p.freePage (n * pageSize) = p.clearFrame n :=
  Pmm.freePage_of_used (h.bound n hn) (h.testFrame_eq_true.mpr hn)

end Tallies

/-- The ledger accounts for the manager, and frame 0 is the kernel's. -/
structure Accounts (L : Frames) (p : Pmm) : Prop extends Tallies L p where
  zero : L 0 = some .kernel

namespace Accounts
variable {L : Frames} {p : Pmm}

theorem lt (h : Accounts L p) {n : ℕ} {o : Owner} (hn : L n = some o) : n < totalFrames :=
  h.bound n (by simp [hn])

theorem pos (h : Accounts L p) {n : ℕ} {tag : Option (Fin 64)} {s : Slot} (hn : L n = some (.task tag s)) : 0 < n := by
  refine Nat.pos_of_ne_zero ?_
  rintro rfl
  rw [h.zero] at hn
  cases hn

theorem take (h : Accounts L p) {n : ℕ} (hn : n < totalFrames) (hfree : L n = none) (o : Owner) :
    Accounts (Function.update L n (some o)) (p.setFrame n) where
  toTallies := h.toTallies.take hn hfree o
  zero := by rw [Function.update_of_ne (Ledger.ne_of_free h.zero hfree), h.zero]

theorem alloc (h : Accounts L p) :
    (p.allocPage = (0, p) ∧ ∀ n < totalFrames, L n ≠ none) ∨
      ∃ n, 0 < n ∧ n < totalFrames ∧ L n = none ∧ p.allocPage = (n * pageSize, p.setFrame n) := by
  rcases p.allocPage_spec with ⟨n,hn,hfree,_,he⟩ | ⟨he,hall⟩
  · rw [h.used, Option.isSome_eq_false_iff, Option.isNone_iff_eq_none] at hfree
    have hpos : 0 ≠ n := Ledger.ne_of_free h.zero hfree
    exact Or.inr ⟨n,Nat.pos_of_ne_zero hpos.symm,hn,hfree,he⟩
  · refine Or.inl ⟨he,fun n hn hnone => ?_⟩
    have hused := hall n hn
    rw [h.used, hnone] at hused
    cases hused

theorem full (h : Accounts L p) (hall : ∀ n < totalFrames, L n ≠ none) : totalFrames ≤ p.usedFrames.toNat := by
  rw [h.count, Ledger.count_eq_card fun n hn => hall n (Finset.mem_range.mp hn), Finset.card_range]

theorem drop (h : Accounts L p) {n : ℕ} (hn : L n ≠ none) (hpos : n ≠ 0) :
    Accounts (Function.update L n none) (p.clearFrame n) where
  toTallies := h.toTallies.drop hn
  zero := by rw [Function.update_of_ne (Ne.symm hpos), h.zero]

theorem allocPages (h : Accounts L p) (count : ℕ) (o : Owner) :
    ∃ L', Accounts L' (p.allocPages count).2 ∧ Ledger.Extends (· = o) L L' ∧ (p.allocPages count).2.errors = p.errors := by
  obtain ⟨L',hL',hext,herr⟩ := h.toTallies.allocPages count o
  exact ⟨L',⟨hL',hext.keeps 0 _ h.zero⟩,hext,herr⟩

theorem allocPages_one_used (h : Accounts L p) (hroom : p.usedFrames.toNat < totalFrames) :
    (p.allocPages 1).2.usedFrames.toNat = p.usedFrames.toNat + 1 := by
  rw [Pmm.allocPages, if_neg Nat.one_ne_zero, if_pos rfl]
  rcases h.alloc with ⟨_,hall⟩ | ⟨n,_,hn,hfree,he⟩
  · exact absurd (h.full hall) (Nat.not_le.mpr hroom)
  · rw [he, (h.take hn hfree .kernel).count, Ledger.count_take (Finset.mem_range.mpr hn) hfree, h.count]

theorem freeAll {l : List ℕ} (h : Accounts L p) (hnodup : l.Nodup) (hl : ∀ n ∈ l, L n ≠ none) (h0 : 0 ∉ l) :
    Accounts (L.release l) (l.foldl (fun q n => q.freePage (n * pageSize)) p) ∧
      (l.foldl (fun q n => q.freePage (n * pageSize)) p).errors = p.errors := by
  induction l generalizing L p with
  | nil =>
    have hL : L.release [] = L := by
      funext n
      simp [Ledger.release]
    rw [hL]
    exact ⟨h,rfl⟩
  | cons n l ih =>
    obtain ⟨hnl,hnodup⟩ := List.nodup_cons.mp hnodup
    have hn := hl n List.mem_cons_self
    rw [Ledger.release_cons, List.foldl_cons, h.free hn]
    refine ih (h.drop hn ?_) hnodup (fun m hm => ?_) (fun hm => h0 (List.mem_cons_of_mem _ hm))
    · rintro rfl
      exact h0 List.mem_cons_self
    · rw [Function.update_of_ne (by rintro rfl; exact hnl hm)]
      exact hl m (List.mem_cons_of_mem _ hm)

/-- The ledger determines the state of the manager. -/
theorem determines {L' : Frames} {p' : Pmm} (h : Accounts L p) (h' : Accounts L' p')
    (hsame : ∀ n, (L' n).isSome = (L n).isSome) : p'.bitmap = p.bitmap ∧ p'.usedFrames = p.usedFrames := by
  constructor
  · refine BitTable.ext_testBit (by decide) fun n => ?_
    have hn := (h'.used n).trans ((hsame n).trans (h.used n).symm)
    exact hn
  · apply UInt32.toNat_inj.mp
    have hfilter : ((Finset.range totalFrames).filter fun n => (L' n).isSome) =
        (Finset.range totalFrames).filter fun n => (L n).isSome :=
      Finset.filter_congr fun n _ => by rw [hsame n]
    rw [h.count, h'.count, Ledger.count, Ledger.count, hfilter]

theorem same {L' : Frames} {p' : Pmm} (h : Accounts L p) (h' : Accounts L' p')
    (hsame : ∀ n, p'.testFrame n = p.testFrame n) : p'.bitmap = p.bitmap ∧ p'.usedFrames = p.usedFrames :=
  h.determines h' fun n => by rw [← h.used, ← h'.used, hsame]

theorem testFrame_free (h : Accounts L p) {n : ℕ} (hn : L n ≠ none) (m : ℕ) :
    (p.freePage (n * pageSize)).testFrame m = true ↔ p.testFrame m = true ∧ m ≠ n := by
  rw [h.free hn, Pmm.testFrame_clearFrame]
  by_cases hm : m = n
  · simp [hm]
  · simp [hm, Ne.symm hm]

theorem not_freed {L' : Frames} {p' : Pmm} {P : ℕ → Prop} (h : Accounts L p) (h' : Accounts L' p')
    (hkeep : ∀ f o, L f = some o → L' f = some o) (f : ℕ) (hf : p.testFrame f = true) (hf' : p'.testFrame f = false) :
    P f := by
  rw [h.used] at hf
  rw [h'.used] at hf'
  obtain ⟨o,ho⟩ := Option.isSome_iff_exists.mp hf
  rw [hkeep f o ho] at hf'
  cases hf'

theorem relabel (h : Accounts L p) {g : Owner → Owner} (hg : g .kernel = .kernel) : Accounts (L.relabel g) p where
  used n := by
    rw [h.used]
    simp [Ledger.relabel]
  bound n hn := h.bound n fun hnone => hn (Ledger.relabel_eq_none.mpr hnone)
  zero := by simp [Ledger.relabel, h.zero, hg]
  count := by rw [h.count, Ledger.count_relabel]

end Accounts

/-- Frames of one task pass to other owners, place by place. -/
def reassign (tag : Option (Fin 64)) (g : Slot → Owner) : Owner → Owner
  | .task t s => if t = tag then g s else .task t s
  | o => o

theorem reassign_of_ne {tag : Option (Fin 64)} {g : Slot → Owner} {o : Owner} (h : ∀ s, o ≠ .task tag s) :
    reassign tag g o = o := by
  cases o with
  | task t s =>
    refine if_neg ?_
    rintro rfl
    exact h s rfl
  | kernel => rfl
  | kernelTable => rfl
  | lost => rfl

theorem reassign_self (tag : Option (Fin 64)) (g : Slot → Owner) (s : Slot) : reassign tag g (.task tag s) = g s :=
  if_pos rfl

end ApPa.Memory

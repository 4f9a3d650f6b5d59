import ApPa.Memory.Boot
import Mathlib.Logic.Relation

/-! # Runs of the physical memory manager

The manager stands for the set of frames in use. Allocations and frees in any order, with
any counts and addresses, keep the counter at the size of that set. Address 0 is both the
first frame and the answer of a failed allocation, and the reserved frames are only bits of
the same map, so what an allocation may return depends on what was freed before.
-/
namespace ApPa.Memory.Pmm
open BitTable

inductive Op where
  | allocPage
  | allocPages (count : ℕ)
  | freePage (addr : ℕ)

def exec (p : Pmm) : Op → Pmm
  | .allocPage => p.allocPage.2
  | .allocPages count => (p.allocPages count).2
  | .freePage addr => p.freePage addr

def Step (p p' : Pmm) : Prop := ∃ op, p.exec op = p'

def setBits (p : Pmm) : ℕ := ((Finset.range (bitmapSize * 32)).filter fun f => p.testFrame f = true).card

variable {L : Frames} {p : Pmm} {f count : ℕ}

theorem setBits_eq (h : Tallies L p) : p.setBits = p.usedFrames.toNat := by
  rw [setBits, h.count, Ledger.count]
  exact congrArg Finset.card (Finset.filter_congr fun f _ => by rw [h.used])

/-- An allocation found `count` free frames and took these and no others. -/
def Took (p : Pmm) (start count : ℕ) (r : ℕ × Pmm) : Prop :=
  r.1 = start * pageSize ∧ start + count ≤ totalFrames ∧ (∀ f, start ≤ f → f < start + count → p.testFrame f = false) ∧
    ∀ f, r.2.testFrame f = (decide (start ≤ f ∧ f < start + count) || p.testFrame f)

theorem allocPages_one (p : Pmm) : p.allocPages 1 = p.allocPage := rfl

theorem allocPages_spec (p : Pmm) (count : ℕ) :
    (∃ start, 0 < count ∧ Took p start count (p.allocPages count) ∧ (p.allocPages count).2 = p.setFrames start count) ∨
      p.allocPages count = (0, p) := by
  by_cases h0 : count = 0
  · exact Or.inr (if_pos h0)
  rcases p.allocPages_first (Nat.pos_of_ne_zero h0) with ⟨start,hfirst,he⟩ | ⟨he,_⟩
  · rw [he]
    refine Or.inl ⟨start,Nat.pos_of_ne_zero h0,⟨rfl,hfirst.fits,fun f hf hlt => ?_,p.testFrame_setFrames start count⟩,rfl⟩
    rw [← Nat.add_sub_cancel' hf]
    exact hfirst.run (f - start) (by omega)
  · exact Or.inr he

/-- First fit: with frame 0 in use, an allocation returns 0 exactly when no run of free frames
is long enough, and otherwise the address of the lowest one. The word-skipping search for one
frame stops where the scan of single bits would. -/
theorem allocPages_firstFit (h0 : p.testFrame 0 = true) (hc : 1 ≤ count) :
    ((p.allocPages count).1 = 0 ↔ ∀ s, s + count ≤ totalFrames → ¬∀ k < count, p.testFrame (s + k) = false) ∧
    (∀ s, RunSearch.FirstRun (p.testFrame · = false) count totalFrames s → (p.allocPages count).1 = s * pageSize) ∧
    ((p.allocPages count).1 ≠ 0 → ∃ s, RunSearch.FirstRun (p.testFrame · = false) count totalFrames s ∧
      (p.allocPages count).1 = s * pageSize) ∧
    p.allocPage = p.allocPages 1 ∧
    p.firstFreeFrame = (RunSearch.scan (fun frame => !p.testFrame frame) 1 totalFrames 0 0 0).getD totalFrames := by
  refine ⟨?_,?_,?_,rfl,?_⟩
  · rcases p.allocPages_first hc with ⟨s,hfirst,he⟩ | ⟨he,hno⟩
    · have hs : s ≠ 0 := by
        rintro rfl
        exact Bool.false_ne_true ((hfirst.run 0 hc).symm.trans h0)
      rw [he]
      exact ⟨fun hzero => absurd hzero (Nat.mul_ne_zero hs (by decide)),fun hno => absurd hfirst.run (hno s hfirst.fits)⟩
    · rw [he]
      exact ⟨fun _ => hno,fun _ => rfl⟩
  · intro s hs
    rcases p.allocPages_first hc with ⟨t,hfirst,he⟩ | ⟨_,hno⟩
    · rw [he, hs.unique hfirst]
    · exact absurd hs.run (hno s hs.fits)
  · intro hne
    rcases p.allocPages_first hc with ⟨s,hfirst,he⟩ | ⟨he,_⟩
    · exact ⟨s,hfirst,congrArg Prod.fst he⟩
    · exact absurd (congrArg Prod.fst he) hne
  · obtain ⟨hbefore,hlast⟩ := p.firstFreeFrame_spec
    rcases p.scan_frames Nat.one_pos with ⟨s,hs,hfirst⟩ | ⟨hs,hno⟩
    · rw [hs, Option.getD_some]
      have hfree : p.testFrame s = false := hfirst.run 0 Nat.one_pos
      have hfits : s < totalFrames := hfirst.fits
      rcases Nat.lt_trichotomy p.firstFreeFrame s with hlt | heq | hgt
      · rcases hlast with heq | ⟨_,hff⟩
        · omega
        · refine absurd (fun k hk => ?_) (hfirst.first _ hlt)
          rwa [Nat.lt_one_iff.mp hk]
      · exact heq
      · exact absurd (hfree.symm.trans (hbefore s hgt)) Bool.false_ne_true
    · rw [hs, Option.getD_none]
      refine hlast.resolve_right fun hff => hno _ hff.1 fun k hk => ?_
      rw [Nat.lt_one_iff.mp hk]
      exact hff.2

def blank : Pmm := ⟨fun _ => 0,0,[]⟩

/-- After `pmm_init` two pages come from the start of the pool. -/
theorem allocPages_firstFit_init : (blank.init.allocPages 2).1 = 513 * pageSize := by
  have h0 : blank.init.testFrame 0 = true := by
    rw [testFrame_init]
    decide
  refine (allocPages_firstFit h0 (show 1 ≤ 2 by decide)).2.1 513 ⟨by decide,fun k hk => ?_,fun s hs hrun => ?_⟩
  · rw [testFrame_init, decide_eq_false_iff_not]
    omega
  · have hused := hrun 0 (by decide)
    rw [testFrame_init, decide_eq_false_iff_not] at hused
    omega

theorem allocPages_low (hpos : 0 < count) (hle : count ≤ totalFrames) (hfree : ∀ f < count, p.testFrame f = false) :
    p.allocPages count = (0, p.setFrames 0 count) := by
  have hrun : ∀ k < count, p.testFrame (0 + k) = false := by simpa only [Nat.zero_add] using hfree
  have hlow : RunSearch.FirstRun (p.testFrame · = false) count totalFrames 0 :=
    ⟨by omega,hrun,fun s hs => absurd hs (Nat.not_lt_zero s)⟩
  rcases p.allocPages_first hpos with ⟨s,hfirst,he⟩ | ⟨_,hno⟩
  · rw [he, hfirst.unique hlow, Nat.zero_mul]
  · exact absurd hrun (hno 0 (by omega))

theorem allocPages_zero_iff (p : Pmm) (count : ℕ) : ((p.allocPages count).1 = 0 → (p.allocPages count).2 = p) ↔
    count = 0 ∨ totalFrames < count ∨ ∃ f < count, p.testFrame f = true := by
  constructor
  · intro h
    by_contra hnot
    rw [not_or, not_or, Nat.not_lt] at hnot
    obtain ⟨h0,hle,hnone⟩ := hnot
    have hfree : ∀ f < count, p.testFrame f = false := by
      intro f hf
      by_contra hused
      exact hnone ⟨f,hf,by simpa using hused⟩
    have hpos := Nat.pos_of_ne_zero h0
    rw [allocPages_low hpos hle hfree] at h
    have hset := p.testFrame_setFrames 0 count 0
    have hsame : p.setFrames 0 count = p := h rfl
    rw [hsame, hfree 0 hpos, decide_eq_true ⟨Nat.le_refl 0,by omega⟩] at hset
    cases hset
  · intro h hret
    rcases p.allocPages_spec count with ⟨start,hpos,⟨hr,hb,hfree,_⟩,_⟩ | he
    · exfalso
      rw [hret] at hr
      have hzero : start = 0 := by
        rcases Nat.mul_eq_zero.mp hr.symm with hs | hs
        · exact hs
        · cases hs
      subst hzero
      rcases h with h0 | hbig | ⟨f,hf,hused⟩
      · exact Nat.ne_of_gt hpos h0
      · omega
      · rw [hfree f (Nat.zero_le f) (by omega)] at hused
        cases hused
    · rw [he]

/-! ## Runs -/

theorem exec_tallies (h : Tallies L p) (op : Op) : ∃ L', Tallies L' (p.exec op) := by
  have hpages : ∀ count, ∃ L', Tallies L' (p.allocPages count).2 := by
    intro count
    obtain ⟨L',hL',_⟩ := h.allocPages count .kernel
    exact ⟨L',hL'⟩
  cases op with
  | allocPage => exact hpages 1
  | allocPages count => exact hpages count
  | freePage addr =>
    rcases p.freePage_spec addr with ⟨_,_,hused,he⟩ | ⟨_,hmap,hcount⟩
    · rw [exec, he]
      exact ⟨_,h.drop (h.testFrame_eq_true.mp hused)⟩
    · refine ⟨L,fun f => ?_,h.bound,?_⟩
      · rw [← h.used, exec, testFrame, testFrame, hmap]
      · rw [exec, hcount, h.count]

theorem run_tallies {p₀ : Pmm} (hrun : Relation.ReflTransGen Step p₀.init p) : ∃ L, Tallies L p := by
  induction hrun with
  | refl => exact ⟨_,(accounts_init p₀).toTallies⟩
  | tail _ hstep ih =>
    obtain ⟨op,rfl⟩ := hstep
    obtain ⟨L,hL⟩ := ih
    exact exec_tallies hL op

theorem getFreeMemory_add (h : Tallies L p) : p.getFreeMemory.toNat + p.getUsedMemory.toNat = getTotalMemory.toNat := by
  have hle := Tallies.count_le L
  rw [← h.count, totalFrames] at hle
  have hsub : p.usedFrames ≤ UInt32.ofNat totalFrames := by
    rw [UInt32.le_iff_toNat_le]
    exact hle
  rw [getFreeMemory, getUsedMemory, UInt32.toNat_mul, UInt32.toNat_mul, UInt32.toNat_sub_of_le _ _ hsub]
  change (4096 - p.usedFrames.toNat) * 4096 % 4294967296 + p.usedFrames.toNat * 4096 % 4294967296 = 16777216
  omega

/-- At every point of a run of allocations and frees, with any counts and addresses: the
counter is the number of set bits; an allocation that returns an address has taken free
frames and set their bits and no others; `free_page` clears the bit of an aligned address
of a frame in use and changes nothing for any other address. An allocation that returns 0
leaves the manager as it was exactly when there is a frame in use among the first ones. -/
theorem run_accounting {p₀ p : Pmm} (hrun : Relation.ReflTransGen Step p₀.init p) :
    (p.usedFrames.toNat = p.setBits ∧ p.getFreeMemory.toNat + p.getUsedMemory.toNat = getTotalMemory.toNat) ∧
    (p.allocPage.1 ≠ 0 → ∃ start, Took p start 1 p.allocPage) ∧
    (∀ count, (p.allocPages count).1 ≠ 0 → ∃ start, Took p start count (p.allocPages count)) ∧
    (∀ addr, if addr % pageSize = 0 ∧ addr / pageSize < totalFrames ∧ p.testFrame (addr / pageSize) = true then
        ∀ f, (p.freePage addr).testFrame f = (!decide (addr / pageSize = f) && p.testFrame f)
      else (p.freePage addr).bitmap = p.bitmap ∧ (p.freePage addr).usedFrames = p.usedFrames) ∧
    ((p.allocPage.1 = 0 → p.allocPage.2 = p) ↔ p.testFrame 0 = true) ∧
    ∀ count, (((p.allocPages count).1 = 0 → (p.allocPages count).2 = p) ↔
      count = 0 ∨ totalFrames < count ∨ ∃ f < count, p.testFrame f = true) := by
  obtain ⟨L,hL⟩ := run_tallies hrun
  have htook : ∀ count, (p.allocPages count).1 ≠ 0 → ∃ start, Took p start count (p.allocPages count) := by
    intro count hne
    rcases p.allocPages_spec count with ⟨start,_,htook,_⟩ | he
    · exact ⟨start,htook⟩
    · rw [he] at hne
      exact absurd rfl hne
  refine ⟨⟨(setBits_eq hL).symm,getFreeMemory_add hL⟩,htook 1,htook,fun addr => ?_,?_,p.allocPages_zero_iff⟩
  · rcases p.freePage_spec addr with ⟨ha,hr,hu,he⟩ | ⟨hnot,hsame⟩
    · rw [if_pos ⟨ha,hr,hu⟩, he]
      exact p.testFrame_clearFrame _
    · rw [if_neg hnot]
      exact hsame
  · have hone := p.allocPages_zero_iff 1
    rw [allocPages_one] at hone
    rw [hone]
    constructor
    · rintro (h | h | ⟨f,hf,hused⟩)
      · cases h
      · exact absurd h (by decide)
      · rwa [Nat.lt_one_iff.mp hf] at hused
    · exact fun hused => Or.inr (Or.inr ⟨0,Nat.one_pos,hused⟩)

/-- Three pages right after the start. -/
theorem run_accounting_three : ∃ p, Step blank.init p ∧ p.usedFrames.toNat = p.setBits ∧
    ((p.allocPage.1 = 0 → p.allocPage.2 = p) ↔ p.testFrame 0 = true) := by
  have hstep : Step blank.init (blank.init.exec (.allocPages 3)) := ⟨.allocPages 3,rfl⟩
  have h := run_accounting (.single hstep)
  exact ⟨_,hstep,h.1.1,h.2.2.2.2.1⟩

/-- A frame of the low reserved part that has been freed is the next one handed out. -/
theorem allocPage_freed (p : Pmm) (hf : f < 513) :
    (p.init.freePage (f * pageSize)).allocPage = (f * pageSize, (p.init.clearFrame f).setFrame f) := by
  have hused : ∀ g < 513, p.init.testFrame g = true := by
    intro g hg
    rw [testFrame_init, decide_eq_true_eq]
    exact Or.inl hg
  have htotal : f < totalFrames := Nat.lt_trans hf (by decide)
  rw [freePage_of_used htotal (hused f hf)]
  refine allocPage_at (by simp) htotal fun g hg => ?_
  rw [testFrame_clearFrame, hused g (Nat.lt_trans hg hf), decide_eq_false (Nat.ne_of_gt hg)]
  rfl

/-- After `free_page(0)`, `alloc_page` returns 0 and takes frame 0. -/
theorem freePage_zero_taken : ∃ p, blank.init.freePage 0 = p ∧ p.allocPage.1 = 0 ∧ p.allocPage.2 ≠ p := by
  have hzero : (0 : ℕ) < 513 := by decide
  have he := allocPage_freed blank hzero
  have hclear : blank.init.freePage (0 * pageSize) = blank.init.clearFrame 0 := by
    refine freePage_of_used (by decide) ?_
    rw [testFrame_init]
    decide
  rw [Nat.zero_mul] at he hclear
  refine ⟨_,rfl,congrArg Prod.fst he,fun hsame => ?_⟩
  rw [he, hclear] at hsame
  have hset := congrArg (testFrame · 0) hsame
  simp at hset

/-! ## The pool -/

/-- Allocated addresses lie in the pool, and `alloc_page` only fails when the pool is used up. -/
structure PoolOk (p : Pmm) : Prop where
  page : p.allocPage.1 ≠ 0 → pmmPoolStart ≤ p.allocPage.1 ∧ p.allocPage.1 + pageSize ≤ pmmPoolEnd
  pages : ∀ count, (p.allocPages count).1 ≠ 0 →
    pmmPoolStart ≤ (p.allocPages count).1 ∧ (p.allocPages count).1 + count * pageSize ≤ pmmPoolEnd
  full : p.allocPage.1 = 0 → ∀ f, pmmPoolStart ≤ f * pageSize → f * pageSize < pmmPoolEnd → p.testFrame f = true

/-- No reserved frame is passed to `free_page`. -/
def Op.KeepsReserved : Op → Prop
  | .freePage addr => ¬(addr % pageSize = 0 ∧ Reserved (addr / pageSize))
  | _ => True

def PoolStep (p p' : Pmm) : Prop := ∃ op : Op, op.KeepsReserved ∧ p.exec op = p'

def ReservedUsed (p : Pmm) : Prop := ∀ f, Reserved f → p.testFrame f = true

theorem reserved_iff : Reserved f ↔ f < totalFrames ∧ ¬(pmmPoolStart ≤ f * pageSize ∧ f * pageSize < pmmPoolEnd) := by
  unfold Reserved pmmPoolStart pmmPoolEnd pageSize totalFrames
  omega

theorem Took.reservedUsed {start : ℕ} {r : ℕ × Pmm} (h : Took p start count r) (hres : ReservedUsed p) : ReservedUsed r.2 := by
  intro f hf
  rw [h.2.2.2 f, hres f hf, Bool.or_true]

theorem exec_reservedUsed {op : Op} (hop : op.KeepsReserved) (hres : ReservedUsed p) : ReservedUsed (p.exec op) := by
  have hpages : ∀ count, ReservedUsed (p.allocPages count).2 := by
    intro count
    rcases p.allocPages_spec count with ⟨start,_,htook,_⟩ | he
    · exact htook.reservedUsed hres
    · rw [he]
      exact hres
  cases op with
  | allocPage => exact hpages 1
  | allocPages count => exact hpages count
  | freePage addr =>
    intro f hf
    rcases p.freePage_spec addr with ⟨ha,_,_,he⟩ | ⟨_,hmap,_⟩
    · have hne : addr / pageSize ≠ f := by
        rintro rfl
        exact hop ⟨ha,hf⟩
      rw [exec, he, testFrame_clearFrame, hres f hf, decide_eq_false hne]
      rfl
    · rw [exec, testFrame, hmap]
      exact hres f hf

theorem Took.inPool {start : ℕ} {r : ℕ × Pmm} (h : Took p start count r) (hpos : 0 < count) (hres : ReservedUsed p) :
    pmmPoolStart ≤ r.1 ∧ r.1 + count * pageSize ≤ pmmPoolEnd := by
  obtain ⟨hr,hb,hfree,_⟩ := h
  have hpool : ∀ f, start ≤ f → f < start + count → ¬Reserved f := by
    intro f hf hlt hreserved
    have hused := hres f hreserved
    rw [hfree f hf hlt] at hused
    cases hused
  have hfirst := hpool start (Nat.le_refl _) (by omega)
  have hlast := hpool (start + count - 1) (by omega) (by omega)
  rw [hr]
  unfold Reserved totalFrames at hfirst hlast
  unfold pmmPoolStart pmmPoolEnd pageSize
  unfold totalFrames at hb
  omega

theorem ReservedUsed.poolOk (hres : ReservedUsed p) : PoolOk p := by
  have hpages : ∀ count, (p.allocPages count).1 ≠ 0 →
      pmmPoolStart ≤ (p.allocPages count).1 ∧ (p.allocPages count).1 + count * pageSize ≤ pmmPoolEnd := by
    intro count hne
    rcases p.allocPages_spec count with ⟨start,hpos,htook,_⟩ | he
    · exact htook.inPool hpos hres
    · rw [he] at hne
      exact absurd rfl hne
  refine ⟨by simpa [allocPages_one] using hpages 1,hpages,fun hret f hf hlt => ?_⟩
  rcases p.allocPage_spec with ⟨g,hg,hfree,_,he⟩ | ⟨_,hall⟩
  · exfalso
    rw [he] at hret
    have hzero : g = 0 := (Nat.mul_eq_zero.mp hret).resolve_right (by decide)
    have hused := hres 0 (by decide)
    rw [← hzero, hfree] at hused
    cases hused
  · refine hall f ?_
    unfold pmmPoolEnd pageSize at hlt
    unfold totalFrames
    omega

/-- When frame 0 is free, `alloc_page` returns 0 although there is room in the pool. -/
theorem not_poolOk_of_zero (hzero : p.testFrame 0 = false) (hf : f < totalFrames) (hpool : ¬Reserved f)
    (hfree : p.testFrame f = false) : ¬PoolOk p := by
  intro hok
  have hlow : p.allocPages 1 = (0, p.setFrames 0 1) := by
    refine allocPages_low Nat.one_pos (by decide) fun g hg => ?_
    rw [Nat.lt_one_iff.mp hg]
    exact hzero
  rw [reserved_iff, not_and, not_not] at hpool
  obtain ⟨hstart,hend⟩ := hpool hf
  have hused := hok.full (congrArg Prod.fst hlow) f hstart hend
  rw [hfree] at hused
  cases hused

/-- As long as a reserved frame is free, allocations and frees of the pool lead to a state
in which an allocation leaves the pool or fails with room left. -/
theorem reserved_handed_out (h : Tallies L p) (hf : Reserved f) (hfree : p.testFrame f = false) :
    ∃ p', Relation.ReflTransGen PoolStep p p' ∧ ¬PoolOk p' := by
  -- on the number of free frames: each allocation takes one of the pool
  induction hn : totalFrames - Ledger.count (Finset.range totalFrames) L generalizing L p with
  | zero =>
    have hroom := Ledger.count_lt_card (Finset.mem_range.mpr (reserved_iff.mp hf).1) (h.testFrame_eq_false.mp hfree)
    rw [Finset.card_range] at hroom
    omega
  | succ n ih =>
    rcases p.allocPage_spec with ⟨g,hg,hgfree,_,he⟩ | ⟨_,hall⟩
    · by_cases hres : Reserved g
      · by_cases hzero : g = 0
        · subst hzero
          -- the first frame of the pool is free, or it can be freed
          have hpool : ¬Reserved 513 := by decide
          cases hused : p.testFrame 513 with
          | false => exact ⟨p,.refl,not_poolOk_of_zero hgfree (by decide) hpool hused⟩
          | true =>
            have hclear : p.freePage (513 * pageSize) = p.clearFrame 513 := freePage_of_used (by decide) hused
            refine ⟨p.clearFrame 513,.single ⟨.freePage (513 * pageSize),?_,hclear⟩,not_poolOk_of_zero ?_ (by decide) hpool ?_⟩
            · rintro ⟨_,hreserved⟩
              rw [Nat.mul_div_cancel _ (by decide)] at hreserved
              exact hpool hreserved
            · rw [testFrame_clearFrame, hgfree, Bool.and_false]
            · simp
        · refine ⟨p,.refl,fun hok => (reserved_iff.mp hres).2 ?_⟩
          have hpage := hok.page
          rw [he] at hpage
          obtain ⟨hstart,hend⟩ := hpage (Nat.mul_ne_zero hzero (by decide))
          exact ⟨hstart,Nat.lt_of_lt_of_le (Nat.lt_add_of_pos_right (by decide)) hend⟩
      · have hstep : PoolStep p (p.setFrame g) := ⟨.allocPage,trivial,by rw [exec, he]⟩
        have hgL := h.testFrame_eq_false.mp hgfree
        have hstill : (p.setFrame g).testFrame f = false := by
          have hne : g ≠ f := by
            rintro rfl
            exact hres hf
          rw [testFrame_setFrame, hfree, decide_eq_false hne]
          rfl
        have hcount : totalFrames - Ledger.count (Finset.range totalFrames) (Function.update L g (some .kernel)) = n := by
          rw [Ledger.count_take (Finset.mem_range.mpr hg) hgL]
          omega
        obtain ⟨p',hrun,hbad⟩ := ih (h.take hg hgL .kernel) hstill hcount
        exact ⟨p',.head hstep hrun,hbad⟩
    · have hused := hall f (reserved_iff.mp hf).1
      rw [hfree] at hused
      cases hused

theorem poolRun_reservedUsed {p' : Pmm} (h : ReservedUsed p) (hrun : Relation.ReflTransGen PoolStep p p') : ReservedUsed p' := by
  induction hrun with
  | refl => exact h
  | tail _ hstep ih =>
    obtain ⟨op,hop,rfl⟩ := hstep
    exact exec_reservedUsed hop ih

/-- Over every run from the start in which no reserved frame is passed to `free_page`,
addresses come from the pool and `alloc_page` returns 0 only when the pool is used up. After
any run, this stays so exactly when every reserved frame is still in use. -/
theorem run_pool (p₀ : Pmm) :
    (∀ p, Relation.ReflTransGen PoolStep p₀.init p → PoolOk p) ∧
    ∀ p, Relation.ReflTransGen Step p₀.init p →
      ((∀ p', Relation.ReflTransGen PoolStep p p' → PoolOk p') ↔ ReservedUsed p) := by
  have hinit : ReservedUsed p₀.init := by
    intro f hf
    rw [testFrame_init, decide_eq_true_eq]
    exact hf
  refine ⟨fun p hrun => (poolRun_reservedUsed hinit hrun).poolOk,fun p hrun => ⟨fun hall f hf => ?_,fun hres p' hrun' => ?_⟩⟩
  · obtain ⟨L,hL⟩ := run_tallies hrun
    by_contra hfree
    rw [Bool.not_eq_true] at hfree
    obtain ⟨p',hrun',hbad⟩ := reserved_handed_out hL hf hfree
    exact hbad (hall p' hrun')
  · exact (poolRun_reservedUsed hres hrun').poolOk

/-- After `free_page(0x100000)`, `alloc_page` hands out the first page of the kernel heap. -/
theorem freePage_heap_handed_out : ∃ p, blank.init.freePage 0x100000 = p ∧ p.allocPage.1 = 0x100000 ∧ ¬PoolOk p := by
  have hheap : 256 < 513 := by decide
  have he := congrArg Prod.fst (allocPage_freed blank hheap)
  refine ⟨_,rfl,he,fun hok => ?_⟩
  have hpage := hok.page
  rw [show (blank.init.freePage 0x100000).allocPage.1 = 0x100000 from he] at hpage
  exact absurd (hpage (by decide)).1 (by decide)

end ApPa.Memory.Pmm

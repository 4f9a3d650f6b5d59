import ApPa.Heap.Blocks
import Mathlib.Tactic.Linarith

/-! # Heap walks end

Over a tiled heap every loop of the allocator moves from header to header and stops, so
it has a result: the best fit among the blocks, the predecessor of a block, the counters.
-/
namespace ApPa.Heap
open ByteMem Loop Word32

/-- Tiling with proper sizes, all that the walks rely on. -/
structure Walkable (m : Mem) (bs : List Blk) : Prop where
  tiled : Tiled m heapStart bs heapEnd
  ok : ∀ b ∈ bs, b.Ok

/-- The heap invariant: the blocks tile the heap and free neighbours have been merged. -/
structure HeapOk (m : Mem) (bs : List Blk) : Prop extends Walkable m bs where
  coalesced : Coalesced bs

namespace Walkable
variable {m : Mem} {bs : List Blk}

theorem span_eq (h : Walkable m bs) : span bs = 0x100000 := by
  have he := h.tiled.end_eq
  unfold heapStart heapEnd at he
  omega

theorem next_eq {pre post : List Blk} {b : Blk} (h : Walkable m (pre ++ b :: post)) :
    add32 (heapStart + span pre) (blockSize m (heapStart + span pre)) = heapStart + span (pre ++ [b]) := by
  have hle := h.tiled.block_le
  unfold heapEnd at hle
  rw [h.tiled.header.size_eq, add32_of_lt (by omega)]
  simp only [span_append, span_cons, span_nil]
  omega

theorem lt_end {pre post : List Blk} {b : Blk} (h : Walkable m (pre ++ b :: post)) :
    heapStart + span pre + b.size ≤ heapEnd ∧ 12 ≤ b.size := by
  have hle := h.tiled.block_le
  exact ⟨by omega,(h.ok b (by simp)).twelve_le⟩

theorem at_end {pre : List Blk} (h : Walkable m pre) : heapStart + span pre = heapEnd :=
  h.tiled.end_eq.symm

theorem at_end_or {pre post : List Blk} (h : Walkable m (pre ++ post)) :
    (post = [] ∧ heapStart + span pre = heapEnd) ∨
      (∃ b rest, post = b :: rest ∧ heapStart + span pre < heapEnd) := by
  cases post with
  | nil =>
    rw [List.append_nil] at h
    exact Or.inl ⟨rfl,h.at_end⟩
  | cons b rest =>
    have hb := h.lt_end
    exact Or.inr ⟨b,rest,rfl,by omega⟩

end Walkable

/-- Free blocks large enough for `need` bytes, header included. -/
def Suits (need : ℕ) (b : Blk) : Prop := b.free = true ∧ need ≤ b.size

/-- The best fit recorded by a search over `bs`: the lowest block of minimal size. -/
def BestOf (need : ℕ) (bs : List Blk) (s : Search) : Prop :=
  (s.bestFit = none ∧ s.bestFitSize = 0xFFFFFFFF ∧ ∀ b ∈ bs, ¬Suits need b) ∨
  (∃ pre b post, bs = pre ++ b :: post ∧ s.bestFit = some (heapStart + span pre) ∧
    s.bestFitSize = b.size ∧ Suits need b ∧ (∀ c ∈ pre, Suits need c → b.size < c.size) ∧
    ∀ c ∈ post, Suits need c → b.size ≤ c.size)

namespace BestOf
variable {need : ℕ} {bs : List Blk} {s : Search}

theorem skip (h : BestOf need bs s) {b : Blk} (hb : Suits need b → s.bestFitSize ≤ b.size)
    (hsmall : b.size < 0xFFFFFFFF) {s' : Search} (hf : s'.bestFit = s.bestFit)
    (hs : s'.bestFitSize = s.bestFitSize) : BestOf need (bs ++ [b]) s' := by
  rcases h with ⟨h1,h2,h3⟩ | ⟨pre,c,post,rfl,h2,h3,h4,h5,h6⟩
  · refine Or.inl ⟨hf.trans h1,hs.trans h2,?_⟩
    intro c hc
    rcases List.mem_append.mp hc with hc | hc
    · exact h3 c hc
    · rw [List.mem_singleton.mp hc]
      intro hsuit
      have := hb hsuit
      omega
  · refine Or.inr ⟨pre,c,post ++ [b],by simp,hf.trans h2,hs.trans h3,h4,h5,?_⟩
    intro d hd hsuit
    rcases List.mem_append.mp hd with hd | hd
    · exact h6 d hd hsuit
    · rw [List.mem_singleton.mp hd] at hsuit ⊢
      rw [← h3]
      exact hb hsuit

theorem take (h : BestOf need bs s) {b : Blk} (hb : Suits need b) (hlt : b.size < s.bestFitSize)
    {s' : Search} (hf : s'.bestFit = some (heapStart + span bs)) (hs : s'.bestFitSize = b.size) :
    BestOf need (bs ++ [b]) s' := by
  refine Or.inr ⟨bs,b,[],rfl,hf,hs,hb,?_,by simp⟩
  rcases h with ⟨_,_,h3⟩ | ⟨pre,c,post,rfl,_,h3,_,h5,h6⟩
  · exact fun c hc hsuit => absurd hsuit (h3 c hc)
  · intro d hd hsuit
    rw [List.mem_append, List.mem_cons] at hd
    rcases hd with hd | rfl | hd
    · have := h5 d hd hsuit
      omega
    · omega
    · have := h6 d hd hsuit
      omega

/-- Nothing beats a perfect fit, so the search may stop there. -/
theorem perfect {post : List Blk} (h : BestOf need bs s) (hf : s.bestFit ≠ none)
    (hs : s.bestFitSize = need) : BestOf need (bs ++ post) s := by
  rcases h with ⟨h1,_,_⟩ | ⟨pre,b,mid,rfl,h2,h3,h4,h5,h6⟩
  · exact absurd h1 hf
  · refine Or.inr ⟨pre,b,mid ++ post,by simp,h2,h3,h4,h5,?_⟩
    intro c hc hsuit
    rcases List.mem_append.mp hc with hc | hc
    · exact h6 c hc hsuit
    · have := hsuit.2
      omega

end BestOf

/-- The search visits the blocks in order and records the best fit; it stops at the end of
the heap or at a perfect fit. -/
theorem Walkable.search_spec {m : Mem} {bs : List Blk} (h : Walkable m bs) (need : ℕ) {fuel : ℕ}
    (hfuel : 0x100000 < fuel) :
    ∃ s, search fuel m need = some s ∧ BestOf need bs s ∧
      (s.current = heapEnd ∨ s.bestFit = some s.current ∧ s.bestFitSize = need) := by
  refine loop_spec (fun s => ∃ pre post, bs = pre ++ post ∧ s.current = heapStart + span pre ∧ BestOf need pre s)
    _ (fun s => heapEnd - s.current) ?_ ⟨[],bs,rfl,rfl,Or.inl ⟨rfl,rfl,by simp⟩⟩
    (by change heapEnd - heapStart < fuel; unfold heapEnd heapStart; omega)
  rintro s ⟨pre,post,rfl,hcur,hbest⟩
  rcases h.at_end_or with ⟨rfl,hend⟩ | ⟨b,rest,rfl,hlt⟩
  · refine Or.inr ⟨s,?_,by rw [List.append_nil]; exact hbest,Or.inl (hcur.trans hend)⟩
    rw [searchStep, if_neg (by omega)]
  · have hhead := h.tiled.header
    have hb := h.lt_end
    have hend : heapEnd = 0x200000 := rfl
    have hsize : blockSize m s.current = b.size := by rw [hcur, hhead.size_eq]
    have hfree : isFree m s.current ≠ 0 ↔ b.free = true := by rw [hcur]; exact isFree_ne_zero hhead
    have hnext : add32 s.current (blockSize m s.current) = heapStart + span (pre ++ [b]) := by
      rw [hcur]
      exact h.next_eq
    have hdec : heapEnd - (heapStart + span (pre ++ [b])) < heapEnd - s.current := by
      simp only [span_append, span_cons, span_nil]
      omega
    have hassoc : pre ++ b :: rest = (pre ++ [b]) ++ rest := by simp
    rw [searchStep, if_pos (by omega)]
    by_cases hsuit : isFree m s.current ≠ 0 ∧ need ≤ blockSize m s.current
    · have hb' : Suits need b := ⟨hfree.mp hsuit.1,hsize ▸ hsuit.2⟩
      rw [if_pos hsuit]
      by_cases hless : blockSize m s.current < s.bestFitSize
      · rw [if_pos hless]
        have htake : BestOf need (pre ++ [b]) { s with bestFit := some s.current, bestFitSize := blockSize m s.current } :=
          hbest.take hb' (hsize ▸ hless) (congrArg some hcur) hsize
        dsimp only
        by_cases hperf : blockSize m s.current = need
        · rw [if_pos hperf, hassoc]
          exact Or.inr ⟨_,rfl,htake.perfect (by simp) hperf,Or.inr ⟨rfl,hperf⟩⟩
        · rw [if_neg hperf]
          exact Or.inl ⟨_,rfl,⟨pre ++ [b],rest,hassoc,hnext,htake⟩,by dsimp only [Search.next]; rw [hnext]; exact hdec⟩
      · rw [if_neg hless]
        refine Or.inl ⟨_,rfl,⟨pre ++ [b],rest,hassoc,hnext,hbest.skip (fun _ => ?_) (by omega) rfl rfl⟩,
          by dsimp only [Search.next]; rw [hnext]; exact hdec⟩
        omega
    · rw [if_neg hsuit]
      refine Or.inl ⟨_,rfl,⟨pre ++ [b],rest,hassoc,hnext,hbest.skip (fun hs => ?_) (by omega) rfl rfl⟩,
        by dsimp only [Search.next]; rw [hnext]; exact hdec⟩
      exact absurd ⟨hfree.mpr hs.1,hsize.symm ▸ hs.2⟩ hsuit

def lastBlock (pre : List Blk) : Option ℕ :=
  if pre = [] then none else some (heapStart + span pre.dropLast)

theorem Walkable.scan_spec {m : Mem} {pre post : List Blk} {b : Blk} (h : Walkable m (pre ++ b :: post))
    {fuel : ℕ} (hfuel : 0x100000 < fuel) :
    ∃ s, prevScan fuel m (heapStart + span pre) = some s ∧
      s.current = heapStart + span pre ∧ s.prev = lastBlock pre := by
  refine loop_spec (fun s => ∃ p q, pre = p ++ q ∧ s.current = heapStart + span p ∧ s.prev = lastBlock p)
    _ (fun s => heapEnd - s.current) ?_ ⟨[],pre,rfl,rfl,rfl⟩
    (by change heapEnd - heapStart < fuel; unfold heapEnd heapStart; omega)
  rintro s ⟨p,q,rfl,hcur,hprev⟩
  cases q with
  | nil =>
    rw [List.append_nil] at h ⊢
    refine Or.inr ⟨s,?_,hcur,hprev⟩
    rw [scanStep, if_neg (fun hc => hc.2 hcur)]
  | cons c q =>
    rw [List.append_assoc, List.cons_append] at h
    have hc := h.lt_end
    have hne : s.current ≠ heapStart + span (p ++ c :: q) := by
      rw [hcur, span_append, span_cons]
      omega
    refine Or.inl ⟨_,by rw [scanStep, if_pos ⟨by omega,hne⟩],⟨p ++ [c],q,by simp,?_,?_⟩,?_⟩
    · rw [hcur]
      exact h.next_eq
    · simp [lastBlock, hcur]
    · dsimp only
      rw [hcur, h.next_eq]
      simp only [span_append, span_cons, span_nil]
      omega

theorem Walkable.status_spec {m : Mem} {bs : List Blk} (h : Walkable m bs) {fuel : ℕ}
    (hfuel : 0x100000 < fuel) : ∃ s, kmallocStatus fuel m = some s ∧ s.current = heapEnd := by
  refine loop_spec (fun s => ∃ pre post, bs = pre ++ post ∧ s.current = heapStart + span pre)
    _ (fun s => heapEnd - s.current) ?_ ⟨[],bs,rfl,rfl⟩
    (by change heapEnd - heapStart < fuel; unfold heapEnd heapStart; omega)
  rintro s ⟨pre,post,rfl,hcur⟩
  rcases h.at_end_or with ⟨rfl,hend⟩ | ⟨b,rest,rfl,hlt⟩
  · exact Or.inr ⟨s,by rw [statusStep, if_neg (by omega)],hcur.trans hend⟩
  · have hb := h.lt_end
    have hnext : add32 s.current (blockSize m s.current) = heapStart + span (pre ++ [b]) := by
      rw [hcur]
      exact h.next_eq
    have hdec : heapEnd - (heapStart + span (pre ++ [b])) < heapEnd - s.current := by
      simp only [span_append, span_cons, span_nil]
      omega
    rw [statusStep, if_pos (by omega)]
    dsimp only
    split
    · exact Or.inl ⟨_,rfl,⟨pre ++ [b],rest,by simp,hnext⟩,by dsimp only; rw [hnext]; exact hdec⟩
    · exact Or.inl ⟨_,rfl,⟨pre ++ [b],rest,by simp,hnext⟩,by dsimp only; rw [hnext]; exact hdec⟩

end ApPa.Heap

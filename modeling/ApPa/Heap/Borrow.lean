import ApPa.Heap.Layout

/-! # A block that is taken and given back

`elf_exec` takes a buffer from the heap, fills it and gives it back before it returns. Whatever is
written to the buffer in between, the heap is then laid out as before, and no byte outside the heap has changed.
-/
namespace ApPa.Heap
open ByteMem

def InHeap (x : ℕ) : Prop := heapStart ≤ x ∧ x < heapEnd

theorem split_cons {need : ℕ} {b : Blk} (hle : need ≤ b.size) : ∃ n rest, need ≤ n ∧ split need b = ⟨n,false⟩ :: rest := by
  unfold split
  split
  · exact ⟨need,_,le_rfl,rfl⟩
  · exact ⟨b.size,_,hle,rfl⟩

section
variable {m m' : Mem} {bs : List Blk}

theorem HeapOk.congr (h : HeapOk m bs) (hm : ∀ x, InHeap x → m' x = m x) : HeapOk m' bs :=
  ⟨⟨h.tiled.congr h.ok fun x h₁ h₂ => hm x ⟨h₁,h₂⟩,h.ok⟩,h.coalesced⟩

theorem HeapOk.congr_payload {pre post : List Blk} {b : Blk} (h : HeapOk m (pre ++ b :: post))
    (hm : ∀ x, InHeap x → x < heapStart + span pre + 8 ∨ heapStart + span pre + b.size ≤ x → m' x = m x) :
    HeapOk m' (pre ++ b :: post) := by
  obtain ⟨hle,htwelve⟩ := h.lt_end
  obtain ⟨hpre,hheader,hpost⟩ := tiled_append.mp h.tiled
  refine ⟨⟨tiled_append.mpr ⟨?_,?_,?_⟩,h.ok⟩,h.coalesced⟩
  · refine hpre.congr (fun c hc => h.ok c (List.mem_append_left _ hc)) fun x h₁ h₂ => ?_
    exact hm x ⟨h₁,by omega⟩ (.inl (by omega))
  · exact hheader.congr fun x h₁ h₂ => hm x ⟨by omega,by omega⟩ (.inl h₂)
  · refine hpost.congr (fun c hc => h.ok c (by simp [hc])) fun x h₁ h₂ => ?_
    exact hm x ⟨by omega,h₂⟩ (.inr h₁)

theorem HeapOk.kfree_frame {pre post : List Blk} {b : Blk} (h : HeapOk m (pre ++ b :: post)) {fuel : ℕ}
    (hfuel : 0x100000 < fuel) :
    ∃ m', kfree fuel (heapStart + span pre + 8) m = some m' ∧ HeapOk m' (freeBlock pre b.size post) ∧
      ∀ x, ¬InHeap x → m' x = m x := by
  obtain ⟨hle,htwelve⟩ := h.lt_end
  obtain ⟨m',hcall,hheap,hframe⟩ := h.kfree_spec hfuel
  refine ⟨m',hcall,hheap,fun x hx => hframe x ?_ fun pre' d hpre _ => ?_⟩
  · unfold InHeap at hx
    omega
  · have htwelve' := (h.ok d (by simp [hpre])).twelve_le
    have hspan : span pre = span pre' + d.size := by simp [hpre]
    unfold InHeap at hx
    omega

/-- With a free block large enough, `kmalloc` hands out a buffer inside the heap. After any writes to the buffer, and to
memory outside the heap, `kfree` gives it back. -/
theorem HeapOk.borrow (h : HeapOk m bs) {size : ℕ} (hpos : size ≠ 0) (hsize : size ≤ 0xFFFFFFF4) {fuel : ℕ}
    (hfuel : 0x100000 < fuel) (hfits : ∃ b ∈ bs, Suits (need size) b) :
    ∃ p m₁, kmalloc fuel size m = some (p, m₁) ∧ heapStart < p ∧ p + size ≤ heapEnd ∧ (∀ x, ¬InHeap x → m₁ x = m x) ∧
      ∀ m₂, (∀ x, InHeap x → x < p ∨ p + size ≤ x → m₂ x = m₁ x) →
        ∃ m₃, kfree fuel p m₂ = some m₃ ∧ HeapOk m₃ bs ∧ ∀ x, ¬InHeap x → m₃ x = m₂ x := by
  rcases h.toWalkable.kmalloc_spec hpos hsize hfuel with ⟨_,hnone⟩ | ⟨pre,b,post,m₁,rfl,hcall,hsuit,_,_,hwalk,hframe⟩
  · obtain ⟨b,hb,hsuit⟩ := hfits
    exact absurd hsuit (hnone b hb)
  obtain ⟨n,rest,hn,hsplit⟩ := split_cons hsuit.2
  obtain ⟨hle,htwelve⟩ := h.lt_end
  have hheap : HeapOk m₁ (pre ++ ⟨n,false⟩ :: (rest ++ post)) := by
    have hco := h.coalesced.split hsuit.1 (need size)
    rw [hsplit] at hwalk hco
    exact ⟨hwalk,hco⟩
  obtain ⟨hle',_⟩ := hheap.lt_end
  have hneed : size + 8 ≤ need size := by
    unfold need
    omega
  dsimp only at hle'
  refine ⟨_,m₁,hcall,by omega,by omega,fun x hx => hframe x ?_,fun m₂ hm₂ => ?_⟩
  · unfold InHeap at hx
    omega
  · have hheap₂ : HeapOk m₂ (pre ++ ⟨n,false⟩ :: (rest ++ post)) := by
      refine hheap.congr_payload fun x hin hx => hm₂ x hin ?_
      dsimp only at hx
      omega
    obtain ⟨m₃,hfree,hheap₃,hout⟩ := hheap₂.kfree_frame hfuel
    refine ⟨m₃,hfree,?_,hout⟩
    have hallocs : allocs heapStart (freeBlock pre n (rest ++ post)) = allocs heapStart (pre ++ b :: post) := by
      obtain ⟨k,_,hk⟩ := allocs_split (heapStart + span pre) post hsuit.2
      rw [hsplit, List.cons_append, allocs_of_allocated _ rfl, List.cons.injEq] at hk
      rw [allocs_freeBlock, hk.2, allocs_append, allocs_of_free post hsuit.1]
    rw [← hheap₃.blocks_eq h hallocs]
    exact hheap₃

end

end ApPa.Heap

import ApPa.Heap.Walks
import Mathlib.Logic.Relation

/-! # Runs of the heap allocator

What `kmalloc` and `kfree` do to the list of blocks, and the invariant of every run of
a client that frees only what it was given and writes only inside its allocations.
-/
namespace ApPa.Heap
open ByteMem Word32

theorem coalesced_append {xs ys : List Blk} :
    Coalesced (xs ++ ys) ↔ Coalesced xs ∧ Coalesced ys ∧
      ∀ b ∈ xs.getLast?, ∀ c ∈ ys.head?, ¬(b.free = true ∧ c.free = true) := List.isChain_append

/-- What becomes of a free block that `need` bytes are taken from. -/
def split (need : ℕ) (b : Blk) : List Blk :=
  if need + 24 ≤ b.size then [⟨need,false⟩, ⟨b.size - need,true⟩] else [⟨b.size,false⟩]

theorem split_head (need : ℕ) (b : Blk) (post : List Blk) {c : Blk}
    (hc : c ∈ (split need b ++ post).head?) : c.free = false := by
  unfold split at hc
  split at hc
  · cases hc
    rfl
  · cases hc
    rfl

theorem Coalesced.split {pre post : List Blk} {b : Blk} (h : Coalesced (pre ++ b :: post))
    (hb : b.free = true) (need : ℕ) : Coalesced (pre ++ (split need b ++ post)) := by
  obtain ⟨hpre,hrest,_⟩ := coalesced_append.mp h
  have hpost : Coalesced post := List.IsChain.tail hrest
  refine coalesced_append.mpr ⟨hpre,?_,fun c _ d hd hcd => ?_⟩
  · refine coalesced_append.mpr ⟨?_,hpost,fun c hc d hd hcd => ?_⟩
    · unfold Heap.split
      split
      · exact List.isChain_cons_cons.mpr ⟨fun h => absurd h.1 (by simp),List.isChain_singleton _⟩
      · exact List.isChain_singleton _
    · cases post with
      | nil => cases hd
      | cons e post =>
        cases hd
        exact (List.isChain_cons_cons.mp hrest).1 ⟨hb,hcd.2⟩
  · rw [split_head need b post hd] at hcd
    exact absurd hcd.2 (by simp)

theorem split_ok {need : ℕ} {b : Blk} (hb : b.Ok) (hneed : Suits need b) (h4 : 4 ∣ need) (h12 : 12 ≤ need) :
    ∀ c ∈ split need b, c.Ok := by
  intro c hc
  have hd := hb.aligned
  have hle := hneed.2
  unfold split at hc
  split at hc
  · rw [List.mem_cons, List.mem_singleton] at hc
    rcases hc with rfl | rfl
    · exact ⟨h4,h12⟩
    · exact ⟨by dsimp only; omega,by dsimp only; omega⟩
  · rw [List.mem_singleton] at hc
    subst hc
    exact ⟨hd,hb.twelve_le⟩

theorem header_new (m : Mem) (a : ℕ) {n : ℕ} (hn : n < 2 ^ 32) :
    Header (setFree (setSize m a n) a 1) a ⟨n,true⟩ where
  size_eq := by
    unfold blockSize setFree setSize
    rw [read32_write32_of_disjoint _ (Or.inl (Nat.le_refl _)), read32_write32_self, Nat.mod_eq_of_lt hn]
  free_eq := by
    unfold isFree setFree
    rw [read32_write32_self]
    rfl

theorem takeBlock_spec {m : Mem} {a need : ℕ} {b : Blk} (hb : Header m a b) (hfit : need ≤ b.size)
    (h8 : 8 ≤ need) (hroom : a + b.size < 2 ^ 32) (hsize : b.size < 2 ^ 31) :
    Tiled (takeBlock m a need) a (split need b) (a + b.size) ∧
      ∀ x, x < a ∨ a + b.size ≤ x → takeBlock m a need x = m x := by
  unfold takeBlock split
  have hsum : add32 (add32 need headerSize) minAllocSize = need + 24 := by
    unfold headerSize minAllocSize
    rw [add32_of_lt (b := 8) (by omega), add32_of_lt (by omega)]
  rw [hsum, hb.size_eq, add32_of_lt (a := a) (by omega), sub32_of_le hfit (by omega)]
  by_cases hsplit : need + 24 ≤ b.size
  · rw [if_pos hsplit, if_pos hsplit]
    dsimp only
    have hnew := header_new m (a + need) (n := b.size - need) (by omega)
    have hold : Header (setFree (setSize m (a + need) (b.size - need)) (a + need) 1) a b :=
      hb.congr fun x _ hx => by rw [setFree_apply (by omega), setSize_apply (by omega)]
    have hmark := header_setFree (header_setSize hold (n := need) (by omega)) false
    refine ⟨⟨hmark,?_,?_⟩,?_⟩
    · refine hnew.congr fun x hx _ => ?_
      rw [setFree_apply (by omega), setSize_apply (by omega)]
    · change a + need + (b.size - need) = a + b.size
      omega
    · intro x hx
      rw [setFree_apply (by omega), setSize_apply (by omega), setFree_apply (by omega), setSize_apply (by omega)]
  · rw [if_neg hsplit, if_neg hsplit]
    refine ⟨⟨header_setFree hb false,rfl⟩,?_⟩
    intro x hx
    exact setFree_apply (by omega)

def need (size : ℕ) : ℕ := (size + 3) / 4 * 4 + 8

theorem totalSize_eq {size : ℕ} (h : size ≤ 0xFFFFFFF4) : add32 (alignSize size) headerSize = need size := by
  unfold alignSize need headerSize
  split
  · rw [add32_of_lt (a := size) (by omega), add32_of_lt (by omega)]
    omega
  · rw [add32_of_lt (by omega)]
    omega

theorem Walkable.replace {m m' : Mem} {pre post : List Blk} (old new : List Blk) (h : Walkable m (pre ++ (old ++ post)))
    (hnew : Tiled m' (heapStart + span pre) new (heapStart + span pre + span old)) (hok : ∀ b ∈ new, b.Ok)
    (heq : ∀ x, x < heapStart + span pre ∨ heapStart + span pre + span old ≤ x → m' x = m x) :
    Walkable m' (pre ++ (new ++ post)) := by
  have hpre : ∀ c ∈ pre, c.Ok := fun c hc => h.ok c (List.mem_append_left _ hc)
  have hpost : ∀ c ∈ post, c.Ok := fun c hc => h.ok c (List.mem_append_right _ (List.mem_append_right _ hc))
  refine ⟨Tiled.replace old h.tiled hpre hpost hnew heq,fun c hc => ?_⟩
  rcases List.mem_append.mp hc with hc | hc
  · exact hpre c hc
  rcases List.mem_append.mp hc with hc | hc
  · exact hok c hc
  · exact hpost c hc

/-- `kmalloc` of a positive size returns: `NULL` and the memory as it was when no free block
suits, and otherwise the payload of the lowest of the smallest ones that do, which is split
when enough is left over. -/
theorem Walkable.kmalloc_spec {m : Mem} {bs : List Blk} (h : Walkable m bs) {size : ℕ} (hpos : size ≠ 0)
    (hsize : size ≤ 0xFFFFFFF4) {fuel : ℕ} (hfuel : 0x100000 < fuel) :
    (kmalloc fuel size m = some (0, m) ∧ ∀ b ∈ bs, ¬Suits (need size) b) ∨
    ∃ pre b post m', bs = pre ++ b :: post ∧ kmalloc fuel size m = some (heapStart + span pre + 8, m') ∧
      Suits (need size) b ∧ (∀ c ∈ pre, Suits (need size) c → b.size < c.size) ∧
      (∀ c ∈ post, Suits (need size) c → b.size ≤ c.size) ∧ Walkable m' (pre ++ (split (need size) b ++ post)) ∧
      ∀ x, x < heapStart + span pre ∨ heapStart + span pre + b.size ≤ x → m' x = m x := by
  unfold kmalloc
  rw [if_neg hpos]
  dsimp only
  rw [totalSize_eq hsize]
  obtain ⟨s,hs,hbest,_⟩ := h.search_spec (need size) hfuel
  rw [hs]
  dsimp only
  rcases hbest with ⟨hnone,_,hno⟩ | ⟨pre,b,post,rfl,hsome,_,hsuit,hbefore,hafter⟩
  · rw [hnone]
    exact Or.inl ⟨rfl,hno⟩
  rw [hsome]
  have hb := h.lt_end
  have hneed : 12 ≤ need size ∧ 4 ∣ need size := by
    unfold need
    omega
  have hend : heapEnd = 0x200000 := rfl
  have hlow : heapStart = 0x100000 := rfl
  have hfit := hsuit.2
  obtain ⟨htiled,hframe⟩ := takeBlock_spec h.tiled.header hsuit.2 (by omega) (by omega) (by omega)
  have hadd : add32 (heapStart + span pre) headerSize = heapStart + span pre + 8 :=
    add32_of_lt (by unfold headerSize; omega)
  refine Or.inr ⟨pre,b,post,_,rfl,congrArg some (Prod.ext hadd rfl),hsuit,hbefore,hafter,?_,hframe⟩
  refine Walkable.replace [b] (split (need size) b) h ?_ (split_ok (h.ok b (by simp)) hsuit hneed.2 hneed.1) ?_
  · simpa only [span_cons, span_nil, Nat.add_zero] using htiled
  · simpa only [span_cons, span_nil, Nat.add_zero] using hframe

theorem HeapOk.kmalloc_spec {m : Mem} {bs : List Blk} (h : HeapOk m bs) {size : ℕ} (hsize : size ≤ 0xFFFFFFF4)
    {fuel : ℕ} (hfuel : 0x100000 < fuel) :
    ∃ p m', kmalloc fuel size m = some (p, m') ∧
      ((p = 0 ∧ m' = m) ∨
        ∃ pre b post, bs = pre ++ b :: post ∧ Suits (need size) b ∧ p = heapStart + span pre + 8 ∧
          HeapOk m' (pre ++ (split (need size) b ++ post)) ∧
          ∀ x, x < heapStart + span pre ∨ heapStart + span pre + b.size ≤ x → m' x = m x) := by
  by_cases hz : size = 0
  · exact ⟨0,m,by rw [kmalloc, if_pos hz],Or.inl ⟨rfl,rfl⟩⟩
  rcases h.toWalkable.kmalloc_spec hz hsize hfuel with ⟨hcall,_⟩ | ⟨pre,b,post,m',rfl,hcall,hsuit,_,_,hwalk,hframe⟩
  · exact ⟨0,m,hcall,Or.inl ⟨rfl,rfl⟩⟩
  · exact ⟨_,m',hcall,Or.inr ⟨pre,b,post,rfl,hsuit,rfl,⟨hwalk,h.coalesced.split hsuit.1 _⟩,hframe⟩⟩

/-- A freed block of the given size together with a free successor. -/
def absorbNext (size : ℕ) : List Blk → List Blk
  | [] => [⟨size,true⟩]
  | c :: post => if c.free then ⟨size + c.size,true⟩ :: post else ⟨size,true⟩ :: c :: post

theorem Walkable.merge {m : Mem} {pre post : List Blk} {b c : Blk} (h : Walkable m (pre ++ b :: c :: post)) :
    Walkable (setSize m (heapStart + span pre) (b.size + c.size))
      (pre ++ { b with size := b.size + c.size } :: post) := by
  have hb := h.tiled.header
  have hle := h.tiled.block_le
  have hend : heapEnd = 0x200000 := rfl
  have hok := h.ok b (by simp)
  have hok' := h.ok c (by simp)
  have h1 := hok.twelve_le
  have h4 := hok.aligned
  have h4' := hok'.aligned
  rw [span_cons] at hle
  refine Walkable.replace [b, c] [{ b with size := b.size + c.size }] h ⟨?_,?_⟩ ?_ ?_
  · exact header_setSize hb (by omega)
  · change heapStart + span pre + (b.size + c.size) = _
    simp
  · intro d hd
    rw [List.mem_singleton.mp hd]
    exact ⟨Nat.dvd_add h4 h4',by dsimp only; omega⟩
  · intro x hx
    simp only [span_cons, span_nil] at hx
    exact setSize_apply (by omega)

theorem Walkable.setFree {m : Mem} {pre post : List Blk} {b : Blk} (h : Walkable m (pre ++ b :: post)) :
    Walkable (setFree m (heapStart + span pre) 1) (pre ++ ⟨b.size,true⟩ :: post) := by
  have hok := h.ok b (by simp)
  have h12 := hok.twelve_le
  refine Walkable.replace [b] [⟨b.size,true⟩] h
    ⟨header_setFree h.tiled.header true,by simp [Tiled]⟩ ?_ ?_
  · intro d hd
    rw [List.mem_singleton.mp hd]
    exact ⟨hok.aligned,hok.twelve_le⟩
  · intro x hx
    simp only [span_cons, span_nil] at hx
    exact setFree_apply (by omega)

theorem Walkable.mergeNext {m : Mem} {pre post : List Blk} {size : ℕ}
    (h : Walkable m (pre ++ ⟨size,true⟩ :: post)) :
    Walkable (mergeNext m (heapStart + span pre)) (pre ++ absorbNext size post) := by
  have hnext := h.next_eq
  unfold Heap.mergeNext
  dsimp only
  rw [hnext]
  cases post with
  | nil =>
    have hend := h.at_end
    rw [if_neg (fun hc => absurd hc.1 (by omega))]
    exact h
  | cons c post =>
    have h' : Walkable m ((pre ++ [⟨size,true⟩]) ++ c :: post) := by simpa using h
    have hc := h'.tiled.header
    have hlt := h'.lt_end
    have hiff := isFree_ne_zero hc
    rw [absorbNext]
    by_cases hfree : c.free = true
    · rw [if_pos ⟨by omega,hiff.mpr hfree⟩, if_pos hfree, hc.size_eq, h.tiled.header.size_eq]
      exact h.merge
    · rw [if_neg (fun hf => hfree (hiff.mp hf.2)), if_neg hfree]
      exact h

/-- The list of blocks after freeing the block between `pre` and `post`. -/
def freeBlock (pre : List Blk) (size : ℕ) (post : List Blk) : List Blk :=
  match pre.getLast?, absorbNext size post with
  | some d, b :: rest => if d.free then pre.dropLast ++ { d with size := d.size + b.size } :: rest
      else pre ++ b :: rest
  | _, bs => pre ++ bs

theorem absorbNext_eq (size : ℕ) (post : List Blk) :
    ∃ n rest, absorbNext size post = ⟨n,true⟩ :: rest := by
  cases post with
  | nil => exact ⟨size,[],rfl⟩
  | cons c post =>
    by_cases hfree : c.free = true
    · exact ⟨size + c.size,post,if_pos hfree⟩
    · exact ⟨size,c :: post,if_neg hfree⟩

theorem Walkable.mergePrev {m : Mem} {pre rest : List Blk} {n size : ℕ} {post : List Blk}
    (hab : absorbNext size post = ⟨n,true⟩ :: rest) (h : Walkable m (pre ++ ⟨n,true⟩ :: rest)) :
    Walkable (mergePrev m (heapStart + span pre) (lastBlock pre)) (freeBlock pre size post) := by
  unfold freeBlock
  rw [hab]
  rcases List.eq_nil_or_concat pre with rfl | ⟨pre,d,rfl⟩
  · exact h
  · rw [List.concat_eq_append] at *
    have hlast : lastBlock (pre ++ [d]) = some (heapStart + span pre) := by simp [lastBlock]
    have h' : Walkable m (pre ++ d :: ⟨n,true⟩ :: rest) := by simpa using h
    have hd := h'.tiled.header
    have hiff := isFree_ne_zero hd
    have hnext := h'.next_eq
    have hsize : blockSize m (heapStart + span (pre ++ [d])) = n := h.tiled.header.size_eq
    rw [hlast]
    simp only [List.getLast?_concat, List.dropLast_concat, Heap.mergePrev]
    by_cases hfree : d.free = true
    · rw [if_pos ⟨hiff.mpr hfree,hnext⟩, if_pos hfree, hsize, hd.size_eq]
      exact h'.merge
    · rw [if_neg (fun hf => hfree (hiff.mp hf.1)), if_neg hfree]
      exact h

theorem absorbNext_coalesced {b : Blk} {post : List Blk} (h : Coalesced (b :: post)) (size : ℕ) :
    Coalesced (absorbNext size post) := by
  cases post with
  | nil => exact List.isChain_singleton _
  | cons c post =>
    have hc : Coalesced (c :: post) := List.IsChain.tail h
    by_cases hfree : c.free = true
    · rw [absorbNext, if_pos hfree]
      cases post with
      | nil => exact List.isChain_singleton _
      | cons d post =>
        obtain ⟨hcd,hd⟩ := List.isChain_cons_cons.mp hc
        exact List.isChain_cons_cons.mpr ⟨fun hf => hcd ⟨hfree,hf.2⟩,hd⟩
    · rw [absorbNext, if_neg hfree]
      exact List.isChain_cons_cons.mpr ⟨fun hf => hfree hf.2,hc⟩

theorem Coalesced.freeBlock {pre post : List Blk} {b : Blk} (h : Coalesced (pre ++ b :: post)) (size : ℕ) :
    Coalesced (freeBlock pre size post) := by
  obtain ⟨hpre,hrest,_⟩ := coalesced_append.mp h
  have hnext := absorbNext_coalesced hrest size
  obtain ⟨n,rest,hab⟩ := absorbNext_eq size post
  unfold Heap.freeBlock
  rw [hab] at hnext ⊢
  rcases List.eq_nil_or_concat pre with rfl | ⟨pre,d,rfl⟩
  · exact hnext
  · rw [List.concat_eq_append] at *
    simp only [List.getLast?_concat, List.dropLast_concat]
    obtain ⟨hpre',_,hd⟩ := coalesced_append.mp hpre
    by_cases hfree : d.free = true
    · rw [if_pos hfree]
      refine coalesced_append.mpr ⟨hpre',?_,?_⟩
      · cases rest with
        | nil => exact List.isChain_singleton _
        | cons e rest =>
          obtain ⟨hne,he⟩ := List.isChain_cons_cons.mp hnext
          exact List.isChain_cons_cons.mpr ⟨fun hf => hne ⟨rfl,hf.2⟩,he⟩
      · intro x hx y hy hxy
        cases hy
        exact hd x hx d rfl hxy
    · rw [if_neg hfree]
      refine coalesced_append.mpr ⟨hpre,hnext,?_⟩
      intro x hx y _ hxy
      rw [List.getLast?_concat] at hx
      cases hx
      exact hfree hxy.1

theorem mergeNext_apply {m : Mem} {a x : ℕ} (h : x < a ∨ a + 8 ≤ x) : mergeNext m a x = m x := by
  unfold mergeNext
  split
  · exact setSize_apply h
  · rfl

theorem Walkable.mergePrev_apply {m : Mem} {pre post : List Blk} (h : Walkable m (pre ++ post)) (a : ℕ) {x : ℕ}
    (hx : ∀ pre' d, pre = pre' ++ [d] → d.free = true →
      x < heapStart + span pre' ∨ heapStart + span pre' + 8 ≤ x) : Heap.mergePrev m a (lastBlock pre) x = m x := by
  rcases List.eq_nil_or_concat pre with rfl | ⟨pre,d,rfl⟩
  · rfl
  · rw [List.concat_eq_append] at *
    have h' : Walkable m (pre ++ d :: post) := by simpa using h
    have hlast : lastBlock (pre ++ [d]) = some (heapStart + span pre) := by simp [lastBlock]
    rw [hlast, Heap.mergePrev]
    split
    · next hmerge => exact setSize_apply (hx pre d rfl ((isFree_ne_zero h'.tiled.header).mp hmerge.1))
    · rfl

/-- `kfree` of an allocated block returns, with the block freed and merged with its
neighbours; its scan stops at the block. It writes headers only, its own and that of a
free predecessor. -/
theorem HeapOk.kfree_spec {m : Mem} {pre post : List Blk} {b : Blk} (h : HeapOk m (pre ++ b :: post))
    {fuel : ℕ} (hfuel : 0x100000 < fuel) :
    ∃ m', kfree fuel (heapStart + span pre + 8) m = some m' ∧ HeapOk m' (freeBlock pre b.size post) ∧
      ∀ x, (x < heapStart + span pre ∨ heapStart + span pre + 8 ≤ x) →
        (∀ pre' d, pre = pre' ++ [d] → d.free = true →
          x < heapStart + span pre' ∨ heapStart + span pre' + 8 ≤ x) → m' x = m x := by
  have hb := h.lt_end
  have hend : heapEnd = 0x200000 := rfl
  have hfree := h.toWalkable.setFree.mergeNext
  obtain ⟨n,rest,hab⟩ := absorbNext_eq b.size post
  rw [hab] at hfree
  obtain ⟨s,hs,_,hprev⟩ := hfree.scan_spec hfuel
  refine ⟨_,?_,⟨hfree.mergePrev hab,h.coalesced.freeBlock _⟩,fun x hx hx' => ?_⟩
  · unfold kfree
    rw [if_neg (by omega), sub32_of_le (by unfold headerSize; omega) (by omega)]
    dsimp only
    rw [show heapStart + span pre + 8 - headerSize = heapStart + span pre from rfl, hs]
    dsimp only
    rw [hprev]
  · rw [hfree.mergePrev_apply _ hx', mergeNext_apply hx, setFree_apply hx]

/-- Addresses and sizes of the allocated blocks of a list that starts at `a`. -/
def allocs : ℕ → List Blk → List (ℕ × ℕ)
  | _, [] => []
  | a, b :: bs => (if b.free then [] else [(a, b.size)]) ++ allocs (a + b.size) bs

theorem allocs_append (a : ℕ) (xs ys : List Blk) :
    allocs a (xs ++ ys) = allocs a xs ++ allocs (a + span xs) ys := by
  induction xs generalizing a with
  | nil => rfl
  | cons b xs ih => rw [List.cons_append, allocs, allocs, ih, span_cons, List.append_assoc, Nat.add_assoc]

theorem mem_allocs {a : ℕ} {bs : List Blk} {x n : ℕ} (h : (x, n) ∈ allocs a bs) :
    ∃ pre b post, bs = pre ++ b :: post ∧ b.free = false ∧ b.size = n ∧ x = a + span pre := by
  induction bs generalizing a with
  | nil => cases h
  | cons b bs ih =>
    rw [allocs, List.mem_append] at h
    rcases h with h | h
    · by_cases hf : b.free = true
      · rw [if_pos hf] at h
        cases h
      · rw [if_neg hf, List.mem_singleton, Prod.mk.injEq] at h
        exact ⟨[],b,bs,rfl,by simpa using hf,h.2.symm,h.1⟩
    · obtain ⟨pre,c,post,rfl,hc,hn,hx⟩ := ih h
      refine ⟨b :: pre,c,post,rfl,hc,hn,?_⟩
      rw [span_cons]
      omega

theorem allocs_split {need : ℕ} {b : Blk} (a : ℕ) (post : List Blk) (hle : need ≤ b.size) :
    ∃ n, need ≤ n ∧ allocs a (split need b ++ post) = (a, n) :: allocs (a + b.size) post := by
  unfold split
  by_cases hs : need + 24 ≤ b.size
  · rw [if_pos hs]
    refine ⟨need,Nat.le_refl _,?_⟩
    simp [allocs, Nat.add_sub_cancel' hle, Nat.add_assoc]
  · rw [if_neg hs]
    exact ⟨b.size,hle,by simp [allocs]⟩

theorem allocs_absorbNext (a size : ℕ) (post : List Blk) :
    allocs a (absorbNext size post) = allocs (a + size) post := by
  cases post with
  | nil => rfl
  | cons c post =>
    by_cases hfree : c.free = true
    · rw [absorbNext, if_pos hfree]
      simp [allocs, hfree, Nat.add_assoc]
    · rw [absorbNext, if_neg hfree]
      simp [allocs]

theorem allocs_freeBlock (a : ℕ) (pre : List Blk) (size : ℕ) (post : List Blk) :
    allocs a (freeBlock pre size post) = allocs a pre ++ allocs (a + span pre + size) post := by
  have hnext := allocs_absorbNext (a + span pre) size post
  obtain ⟨n,rest,hab⟩ := absorbNext_eq size post
  unfold freeBlock
  rw [hab] at hnext ⊢
  rcases List.eq_nil_or_concat pre with rfl | ⟨pre,d,rfl⟩
  · simpa [allocs] using hnext
  · rw [List.concat_eq_append] at *
    simp only [List.getLast?_concat, List.dropLast_concat]
    by_cases hfree : d.free = true
    · rw [if_pos hfree]
      rw [← hnext]
      simp [allocs, allocs_append, hfree, Nat.add_assoc]
    · rw [if_neg hfree, allocs_append, hnext]

/-- A client's view: memory, and for each live pointer the size it asked for. -/
structure HeapState where
  mem : Mem
  live : ℕ → Option ℕ

/-- One step of a well-behaved client. It may ask for any size up to `0xFFFFFFF4`, free
`NULL` or a live pointer, and write inside its live allocations. -/
inductive Step (fuel : ℕ) : HeapState → HeapState → Prop
  | kmalloc {s : HeapState} {size p : ℕ} {m : Mem} (hsize : size ≤ 0xFFFFFFF4)
      (hcall : kmalloc fuel size s.mem = some (p, m)) :
      Step fuel s ⟨m,if p = 0 then s.live else Function.update s.live p (some size)⟩
  | kfree {s : HeapState} {p : ℕ} {m : Mem} (hlive : p = 0 ∨ s.live p ≠ none)
      (hcall : kfree fuel p s.mem = some m) : Step fuel s ⟨m,Function.update s.live p none⟩
  | store {s : HeapState} {p n x : ℕ} (v : UInt8) (hlive : s.live p = some n) (hp : p ≤ x) (hx : x < p + n) :
      Step fuel s ⟨Function.update s.mem x v,s.live⟩

/-- The run invariant: the blocks are in order and every live pointer is the payload of an
allocated block that is large enough. -/
structure Owned (s : HeapState) (bs : List Blk) : Prop where
  heap : HeapOk s.mem bs
  live : ∀ p n, s.live p = some n → ∃ a k, (a, k) ∈ allocs heapStart bs ∧ p = a + 8 ∧ n + 8 ≤ k

theorem kmallocInit_ok (m : Mem) : HeapOk (kmallocInit m) [⟨heapSize,true⟩] where
  tiled := ⟨header_new m heapStart (by decide),rfl⟩
  ok b hb := by
    rw [List.mem_singleton.mp hb]
    exact ⟨by decide,by decide⟩
  coalesced := List.isChain_singleton _

namespace Owned
variable {s : HeapState} {bs : List Blk} {fuel : ℕ}

theorem kmalloc (h : Owned s bs) (hfuel : 0x100000 < fuel) {size p : ℕ} {m : Mem} (hsize : size ≤ 0xFFFFFFF4)
    (hcall : kmalloc fuel size s.mem = some (p, m)) :
    ∃ bs', Owned ⟨m,if p = 0 then s.live else Function.update s.live p (some size)⟩ bs' := by
  obtain ⟨p',m',hcall',hres⟩ := h.heap.kmalloc_spec hsize hfuel
  rw [hcall', Option.some.injEq, Prod.mk.injEq] at hcall
  obtain ⟨rfl,rfl⟩ := hcall
  rcases hres with ⟨rfl,rfl⟩ | ⟨pre,b,post,rfl,hsuit,rfl,hheap,_⟩
  · exact ⟨bs,by rw [if_pos rfl]; exact h⟩
  · refine ⟨_,hheap,?_⟩
    obtain ⟨n,hn,hallocs⟩ := allocs_split (heapStart + span pre) post hsuit.2
    rw [if_neg (by unfold heapStart; omega)]
    intro q k hq
    rw [allocs_append, hallocs]
    by_cases hqp : q = heapStart + span pre + 8
    · subst hqp
      dsimp only at hq
      rw [Function.update_self, Option.some.injEq] at hq
      subst hq
      refine ⟨heapStart + span pre,n,by simp,rfl,?_⟩
      unfold need at hn
      omega
    · dsimp only at hq
      rw [Function.update_of_ne hqp] at hq
      obtain ⟨a,k',hmem,hqa,hle⟩ := h.live q k hq
      refine ⟨a,k',?_,hqa,hle⟩
      rw [allocs_append, allocs, if_pos hsuit.1, List.nil_append, List.mem_append] at hmem
      rw [List.mem_append, List.mem_cons]
      exact hmem.imp_right Or.inr

theorem block (h : Owned s bs) {p n : ℕ} (hlive : s.live p = some n) :
    ∃ pre b post, bs = pre ++ b :: post ∧ b.free = false ∧ p = heapStart + span pre + 8 ∧ n + 8 ≤ b.size := by
  obtain ⟨a,k,hmem,hp,hle⟩ := h.live p n hlive
  obtain ⟨pre,b,post,hbs,hfree,hsize,rfl⟩ := mem_allocs hmem
  exact ⟨pre,b,post,hbs,hfree,hp,hsize.symm ▸ hle⟩

theorem kfree (h : Owned s bs) (hfuel : 0x100000 < fuel) {p : ℕ} {m : Mem} (hlive : p = 0 ∨ s.live p ≠ none)
    (hcall : kfree fuel p s.mem = some m) : ∃ bs', Owned ⟨m,Function.update s.live p none⟩ bs' := by
  have hother : ∀ q k, Function.update s.live p none q = some k → q ≠ p ∧ s.live q = some k := by
    intro q k hq
    by_cases hqp : q = p
    · subst hqp
      rw [Function.update_self] at hq
      cases hq
    · rw [Function.update_of_ne hqp] at hq
      exact ⟨hqp,hq⟩
  by_cases hz : p = 0
  · subst hz
    obtain rfl : s.mem = m := Option.some.inj hcall
    exact ⟨bs,h.heap,fun q k hq => h.live q k (hother q k hq).2⟩
  · obtain ⟨n,hn⟩ := Option.ne_none_iff_exists'.mp (hlive.resolve_left hz)
    obtain ⟨pre,b,post,rfl,hfree,rfl,_⟩ := h.block hn
    obtain ⟨m',hcall',hheap,_⟩ := h.heap.kfree_spec hfuel
    rw [hcall', Option.some.injEq] at hcall
    subst hcall
    refine ⟨_,hheap,fun q k hq => ?_⟩
    obtain ⟨hqp,hq⟩ := hother q k hq
    obtain ⟨a,k',hmem,hqa,hle⟩ := h.live q k hq
    refine ⟨a,k',?_,hqa,hle⟩
    rw [allocs_append, allocs, if_neg (by simp [hfree]), List.mem_append, List.mem_append,
      List.mem_singleton, Prod.mk.injEq] at hmem
    rw [allocs_freeBlock, List.mem_append]
    rcases hmem with hmem | hmem | hmem
    · exact Or.inl hmem
    · exact absurd (hqa.trans (congrArg (· + 8) hmem.1)) hqp
    · exact Or.inr hmem

theorem store (h : Owned s bs) {p n x : ℕ} (v : UInt8) (hlive : s.live p = some n) (hp : p ≤ x) (hx : x < p + n) :
    Owned ⟨Function.update s.mem x v,s.live⟩ bs := by
  obtain ⟨pre,b,post,rfl,_,rfl,hle⟩ := h.block hlive
  have hother : ∀ y, y < heapStart + span pre + 8 ∨ heapStart + span pre + b.size ≤ y →
      Function.update s.mem x v y = s.mem y := fun y hy => Function.update_of_ne (by omega) _ _
  refine ⟨⟨?_,h.heap.coalesced⟩,h.live⟩
  refine Walkable.replace [b] [b] h.heap.toWalkable
    ⟨h.heap.tiled.header.congr fun y _ hy => hother y (Or.inl hy),by simp [Tiled]⟩ ?_ ?_
  · intro c hc
    exact h.heap.ok c (by rw [List.mem_singleton.mp hc]; simp)
  · intro y hy
    simp only [span_cons, span_nil] at hy
    exact hother y (by omega)

theorem step (h : Owned s bs) (hfuel : 0x100000 < fuel) {t : HeapState} (hstep : Step fuel s t) :
    ∃ bs', Owned t bs' := by
  cases hstep with
  | kmalloc hsize hcall => exact h.kmalloc hfuel hsize hcall
  | kfree hlive hcall => exact h.kfree hfuel hlive hcall
  | store v hlive hp hx => exact ⟨bs,h.store v hlive hp hx⟩

end Owned

/-- The heap after `kmalloc_init`, with nothing handed out. -/
def initial (m : Mem) : HeapState := ⟨kmallocInit m,fun _ => none⟩

theorem run_owned (m : Mem) {fuel : ℕ} (hfuel : 0x100000 < fuel) {s : HeapState}
    (hrun : Relation.ReflTransGen (Step fuel) (initial m) s) : ∃ bs, Owned s bs := by
  induction hrun with
  | refl => exact ⟨_,kmallocInit_ok m,fun p n hp => by cases hp⟩
  | tail _ hstep ih =>
    obtain ⟨bs,h⟩ := ih
    exact h.step hfuel hstep

/-- In every run the blocks found by adding up sizes tile the heap, have sizes that are
multiples of four and at least twelve, and no two neighbours are both free; so every walk
comes to an end: the search at the end of the heap or at a perfect fit, the scan of
`kfree` at the freed block, and the walk of `kmalloc_status` at the end of the heap. -/
theorem run_heap (m : Mem) {fuel : ℕ} (hfuel : 0x100000 < fuel) {s : HeapState}
    (hrun : Relation.ReflTransGen (Step fuel) (initial m) s) :
    (∃ bs, Tiled s.mem heapStart bs heapEnd ∧ (∀ b ∈ bs, 4 ∣ b.size ∧ 12 ≤ b.size) ∧
      bs.IsChain (fun b c => ¬(b.free = true ∧ c.free = true))) ∧
    (∀ size ≤ 0xFFFFFFF4, (∃ t, search fuel s.mem (add32 (alignSize size) headerSize) = some t ∧
        (t.current = heapEnd ∨ t.bestFit = some t.current ∧ t.bestFitSize = add32 (alignSize size) headerSize)) ∧
      ∃ p m', kmalloc fuel size s.mem = some (p, m')) ∧
    (∀ p, s.live p ≠ none → (∃ t, prevScan fuel (mergeNext (setFree s.mem (p - 8) 1) (p - 8)) (p - 8) = some t ∧
        t.current = p - 8) ∧ ∃ m', kfree fuel p s.mem = some m') ∧
    ∃ t, kmallocStatus fuel s.mem = some t ∧ t.current = heapEnd := by
  obtain ⟨bs,h⟩ := run_owned m hfuel hrun
  refine ⟨⟨bs,h.heap.tiled,fun b hb => ⟨(h.heap.ok b hb).aligned,(h.heap.ok b hb).twelve_le⟩,
    h.heap.coalesced⟩,fun size hsize => ⟨?_,?_⟩,fun p hp => ?_,h.heap.status_spec hfuel⟩
  · obtain ⟨t,ht,_,hstop⟩ := h.heap.search_spec (add32 (alignSize size) headerSize) hfuel
    exact ⟨t,ht,hstop⟩
  · obtain ⟨p,m',hcall,_⟩ := h.heap.kmalloc_spec hsize hfuel
    exact ⟨p,m',hcall⟩
  · obtain ⟨n,hn⟩ := Option.ne_none_iff_exists'.mp hp
    obtain ⟨pre,b,post,rfl,_,rfl,_⟩ := h.block hn
    have hfree := h.heap.toWalkable.setFree.mergeNext
    obtain ⟨k,rest,hab⟩ := absorbNext_eq b.size post
    rw [hab] at hfree
    obtain ⟨t,ht,hcur,_⟩ := hfree.scan_spec hfuel
    obtain ⟨m',hcall,_⟩ := h.heap.kfree_spec hfuel
    exact ⟨⟨t,ht,hcur⟩,m',hcall⟩

/-- The heap after a request of 100 bytes, run on memory that was all zero. -/
theorem run_heap_hundred :
    (∃ bs, Tiled (takeBlock (kmallocInit fun _ => 0) heapStart 108) heapStart bs heapEnd ∧
      (∀ b ∈ bs, 4 ∣ b.size ∧ 12 ≤ b.size) ∧ bs.IsChain (fun b c => ¬(b.free = true ∧ c.free = true))) ∧
    ∃ t, kmallocStatus 0x100001 (takeBlock (kmallocInit fun _ => 0) heapStart 108) = some t ∧
      t.current = heapEnd := by
  have hcall : kmalloc 0x100001 100 (initial fun _ => 0).mem =
      some (0x100008, takeBlock (kmallocInit fun _ => 0) heapStart 108) := rfl
  have h := run_heap (fun _ => 0) (by decide) (Relation.ReflTransGen.single (Step.kmalloc (by decide) hcall))
  exact ⟨h.1,h.2.2.2⟩

end ApPa.Heap

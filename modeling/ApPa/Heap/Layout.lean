import ApPa.Heap.Run

/-! # The layout of the heap is canonical

Blocks that tile the heap with free neighbours merged are determined by the allocated ones.
So the layout does not remember in which order blocks were freed, an allocation that is freed
at once leaves no trace, and a heap with nothing allocated is one free block.
-/
namespace ApPa.Heap
open ByteMem Loop Word32

structure Walk where
  current : ℕ
  seen : List (ℕ × ℕ × Bool)

def layoutStep (m : Mem) (w : Walk) : Walk ⊕ List (ℕ × ℕ × Bool) :=
  if w.current < heapEnd then
    .inl ⟨add32 w.current (blockSize m w.current),
      w.seen ++ [(w.current, blockSize m w.current, decide (isFree m w.current ≠ 0))]⟩
  else .inr w.seen

/-- The blocks a walk over the headers finds: address, size, and whether free. -/
def layout (fuel : ℕ) (m : Mem) : Option (List (ℕ × ℕ × Bool)) := loop (layoutStep m) fuel ⟨heapStart,[]⟩

def located : ℕ → List Blk → List (ℕ × ℕ × Bool)
  | _, [] => []
  | a, b :: bs => (a, b.size, b.free) :: located (a + b.size) bs

theorem located_append (a : ℕ) (xs ys : List Blk) :
    located a (xs ++ ys) = located a xs ++ located (a + span xs) ys := by
  induction xs generalizing a with
  | nil => rfl
  | cons b xs ih => rw [List.cons_append, located, located, ih, span_cons, List.cons_append, Nat.add_assoc]

theorem located_injective (a : ℕ) {bs bs' : List Blk} (h : located a bs = located a bs') : bs = bs' := by
  induction bs generalizing a bs' with
  | nil =>
    cases bs' with
    | nil => rfl
    | cons b' bs' => cases h
  | cons b bs ih =>
    cases bs' with
    | nil => cases h
    | cons b' bs' =>
      obtain ⟨hhead,htail⟩ := List.cons.inj h
      have hb : b = b' := by
        cases b
        cases b'
        cases hhead
        rfl
      subst hb
      rw [ih _ htail]

theorem Walkable.layout_eq {m : Mem} {bs : List Blk} (h : Walkable m bs) {fuel : ℕ} (hfuel : 0x100000 < fuel) :
    layout fuel m = some (located heapStart bs) := by
  suffices hspec : ∃ found, layout fuel m = some found ∧ found = located heapStart bs by
    obtain ⟨found,hfound,rfl⟩ := hspec
    exact hfound
  refine loop_spec
    (fun w => ∃ pre post, bs = pre ++ post ∧ w.current = heapStart + span pre ∧ w.seen = located heapStart pre)
    _ (fun w => heapEnd - w.current) ?_ ⟨[],bs,rfl,rfl,rfl⟩
    (by change heapEnd - heapStart < fuel; unfold heapEnd heapStart; omega)
  rintro ⟨current,seen⟩ ⟨pre,post,rfl,rfl,rfl⟩
  rcases h.at_end_or with ⟨rfl,hend⟩ | ⟨b,rest,rfl,hlt⟩
  · exact Or.inr ⟨_,if_neg (by dsimp only; omega),by rw [List.append_nil]⟩
  · have hb := h.lt_end
    have hheader := h.tiled.header
    have hfree : decide (isFree m (heapStart + span pre) ≠ 0) = b.free := by
      rw [Bool.decide_congr (isFree_ne_zero hheader)]
      simp
    refine Or.inl ⟨_,if_pos hlt,⟨pre ++ [b],rest,by simp,h.next_eq,?_⟩,?_⟩
    · dsimp only
      rw [hheader.size_eq, hfree, located_append]
      rfl
    · dsimp only
      rw [h.next_eq]
      simp only [span_append, span_cons, span_nil]
      omega

theorem HeapOk.unique {m : Mem} {bs bs' : List Blk} (h : HeapOk m bs) (h' : HeapOk m bs') : bs = bs' := by
  have hfuel : 0x100000 < 0x100001 := by decide
  exact located_injective heapStart (Option.some.inj ((h.layout_eq hfuel).symm.trans (h'.layout_eq hfuel)))

/-! ## The allocated blocks determine the layout -/

theorem allocs_of_free {a : ℕ} {b : Blk} (bs : List Blk) (hb : b.free = true) :
    allocs a (b :: bs) = allocs (a + b.size) bs := by
  rw [allocs, if_pos hb, List.nil_append]

theorem allocs_of_allocated {a : ℕ} {b : Blk} (bs : List Blk) (hb : b.free = false) :
    allocs a (b :: bs) = (a, b.size) :: allocs (a + b.size) bs := by
  rw [allocs, if_neg (by simp [hb]), List.singleton_append]

theorem le_of_mem_allocs {a : ℕ} {bs : List Blk} {x : ℕ × ℕ} (h : x ∈ allocs a bs) : a ≤ x.1 := by
  obtain ⟨pre,_,_,_,_,_,hx⟩ := mem_allocs (x := x.1) (n := x.2) h
  omega

/-- Behind a free block the list ends or an allocated block follows. -/
theorem allocs_behind_free {a : ℕ} {b : Blk} {bs : List Blk} (hb : b.free = true) (h : Coalesced (b :: bs)) :
    (bs = [] ∧ allocs (a + b.size) bs = []) ∨
      ∃ n rest, allocs (a + b.size) bs = (a + b.size, n) :: rest := by
  cases bs with
  | nil => exact Or.inl ⟨rfl,rfl⟩
  | cons c bs =>
    have hc : c.free = false := by
      have hbc := (List.isChain_cons_cons.mp h).1
      simpa [hb] using hbc
    exact Or.inr ⟨c.size,_,allocs_of_allocated bs hc⟩

theorem head_unique {a : ℕ} {b b' : Blk} {bs bs' : List Blk} (hb : 0 < b.size) (hb' : 0 < b'.size)
    (hc : Coalesced (b :: bs)) (hc' : Coalesced (b' :: bs')) (hspan : span (b :: bs) = span (b' :: bs'))
    (h : allocs a (b :: bs) = allocs a (b' :: bs')) :
    b = b' ∧ allocs (a + b.size) bs = allocs (a + b.size) bs' := by
  rcases b with ⟨size,free⟩
  rcases b' with ⟨size',free'⟩
  have hfirst : ∀ {n m : ℕ} {xs ys : List Blk}, 0 < m →
      (a, n) :: allocs (a + n) xs ≠ allocs (a + m) ys := by
    intro n m xs ys hm heq
    have hle := le_of_mem_allocs (heq ▸ List.mem_cons_self : (a, n) ∈ allocs (a + m) ys)
    dsimp only at hle
    omega
  cases free with
  | false =>
    rw [allocs_of_allocated bs rfl] at h
    cases free' with
    | false =>
      rw [allocs_of_allocated bs' rfl] at h
      obtain ⟨hhead,htail⟩ := List.cons.inj h
      cases hhead
      exact ⟨rfl,htail⟩
    | true =>
      rw [allocs_of_free bs' rfl] at h
      exact absurd h (hfirst hb')
  | true =>
    rw [allocs_of_free bs rfl] at h
    cases free' with
    | false =>
      rw [allocs_of_allocated bs' rfl] at h
      exact absurd h.symm (hfirst hb)
    | true =>
      rw [allocs_of_free bs' rfl] at h
      have hsize : size = size' := by
        rcases allocs_behind_free (a := a) rfl hc with ⟨rfl,hnil⟩ | ⟨n,rest,hcons⟩
        · rcases allocs_behind_free (a := a) rfl hc' with ⟨rfl,_⟩ | ⟨n',rest',hcons'⟩
          · simpa using hspan
          · rw [hnil, hcons'] at h
            cases h
        · rcases allocs_behind_free (a := a) rfl hc' with ⟨rfl,hnil'⟩ | ⟨n',rest',hcons'⟩
          · rw [hcons, hnil'] at h
            cases h
          · rw [hcons, hcons'] at h
            have heq := congrArg Prod.fst (List.cons.inj h).1
            dsimp only at heq
            omega
      subst hsize
      exact ⟨rfl,h⟩

theorem blocks_unique {a : ℕ} {bs bs' : List Blk} (hpos : ∀ b ∈ bs, 0 < b.size) (hpos' : ∀ b ∈ bs', 0 < b.size)
    (hc : Coalesced bs) (hc' : Coalesced bs') (hspan : span bs = span bs') (h : allocs a bs = allocs a bs') :
    bs = bs' := by
  induction bs generalizing a bs' with
  | nil =>
    cases bs' with
    | nil => rfl
    | cons b' bs' =>
      have hb' := hpos' b' List.mem_cons_self
      rw [span_nil, span_cons] at hspan
      omega
  | cons b bs ih =>
    have hb := hpos b List.mem_cons_self
    cases bs' with
    | nil =>
      rw [span_nil, span_cons] at hspan
      omega
    | cons b' bs' =>
      obtain ⟨rfl,htail⟩ := head_unique hb (hpos' b' List.mem_cons_self) hc hc' hspan h
      rw [span_cons, span_cons, Nat.add_left_cancel_iff] at hspan
      rw [ih (fun c hm => hpos c (List.mem_cons_of_mem _ hm)) (fun c hm => hpos' c (List.mem_cons_of_mem _ hm))
        hc.tail hc'.tail hspan htail]

/-- A heap is determined by its allocated blocks. -/
theorem HeapOk.blocks_eq {m m' : Mem} {bs bs' : List Blk} (h : HeapOk m bs) (h' : HeapOk m' bs')
    (heq : allocs heapStart bs = allocs heapStart bs') : bs = bs' := by
  have hpos : ∀ {m : Mem} {bs : List Blk}, HeapOk m bs → ∀ b ∈ bs, 0 < b.size :=
    fun h b hb => Nat.lt_of_lt_of_le (by decide) (h.ok b hb).twelve_le
  exact blocks_unique (hpos h) (hpos h') h.coalesced h'.coalesced (h.span_eq.trans h'.span_eq.symm) heq

theorem HeapOk.layout_unique {m m' : Mem} {bs bs' : List Blk} (h : HeapOk m bs) (h' : HeapOk m' bs')
    (heq : allocs heapStart bs = allocs heapStart bs') {fuel : ℕ} (hfuel : 0x100000 < fuel) :
    layout fuel m = layout fuel m' := by
  rw [h.layout_eq hfuel, h'.layout_eq hfuel, h.blocks_eq h' heq]

/-! ## Freeing -/

theorem allocs_without {a n k : ℕ} {pre post : List Blk} (hpre : ∀ c ∈ pre, 0 < c.size) (hk : 0 < k) :
    ((allocs a pre ++ (a + span pre, n) :: allocs (a + span pre + k) post).filter fun x => x.1 ≠ a + span pre) =
      allocs a pre ++ allocs (a + span pre + k) post := by
  have hbefore : ∀ x ∈ allocs a pre, x.1 ≠ a + span pre := by
    intro x hx
    obtain ⟨p,c,q,rfl,_,_,hxa⟩ := mem_allocs (x := x.1) (n := x.2) hx
    have hc := hpre c (by simp)
    rw [span_append, span_cons]
    omega
  have hbehind : ∀ x ∈ allocs (a + span pre + k) post, x.1 ≠ a + span pre := by
    intro x hx
    have hle := le_of_mem_allocs hx
    omega
  rw [List.filter_append, List.filter_cons, if_neg (by simp),
    List.filter_eq_self.mpr fun x hx => decide_eq_true (hbefore x hx),
    List.filter_eq_self.mpr fun x hx => decide_eq_true (hbehind x hx)]

theorem HeapOk.kfree_allocs {m : Mem} {bs : List Blk} (h : HeapOk m bs) {a n : ℕ} (hmem : (a, n) ∈ allocs heapStart bs)
    {fuel : ℕ} (hfuel : 0x100000 < fuel) :
    ∃ m' bs', kfree fuel (a + 8) m = some m' ∧ HeapOk m' bs' ∧
      allocs heapStart bs' = (allocs heapStart bs).filter fun x => x.1 ≠ a := by
  obtain ⟨pre,b,post,rfl,hfree,_,rfl⟩ := mem_allocs hmem
  have hb := h.lt_end
  obtain ⟨m',hcall,hheap,_⟩ := h.kfree_spec hfuel
  refine ⟨m',_,hcall,hheap,?_⟩
  have hpre : ∀ c ∈ pre, 0 < c.size := fun c hc => Nat.lt_of_lt_of_le (by decide) (h.ok c (by simp [hc])).twelve_le
  rw [allocs_freeBlock, allocs_append, allocs_of_allocated post hfree, allocs_without hpre (by omega)]

def freeAll (fuel : ℕ) (ps : List ℕ) (m : Mem) : Option Mem := ps.foldlM (fun m p => kfree fuel p m) m

theorem HeapOk.freeAll_spec {m : Mem} {bs : List Blk} (h : HeapOk m bs) {fuel : ℕ} (hfuel : 0x100000 < fuel) {ps : List ℕ}
    (hnodup : ps.Nodup) (hps : ∀ p ∈ ps, ∃ a n, p = a + 8 ∧ (a, n) ∈ allocs heapStart bs) :
    ∃ m' bs', freeAll fuel ps m = some m' ∧ HeapOk m' bs' ∧
      allocs heapStart bs' = (allocs heapStart bs).filter fun x => x.1 + 8 ∉ ps := by
  induction ps generalizing m bs with
  | nil => exact ⟨m,bs,rfl,h,by simp⟩
  | cons p ps ih =>
    obtain ⟨a,n,rfl,hmem⟩ := hps p List.mem_cons_self
    obtain ⟨hp,hnodup⟩ := List.nodup_cons.mp hnodup
    obtain ⟨m1,bs1,hcall,h1,hallocs⟩ := h.kfree_allocs hmem hfuel
    have hrest : ∀ q ∈ ps, ∃ a n, q = a + 8 ∧ (a, n) ∈ allocs heapStart bs1 := by
      intro q hq
      obtain ⟨c,k,rfl,hmem'⟩ := hps q (List.mem_cons_of_mem _ hq)
      refine ⟨c,k,rfl,?_⟩
      rw [hallocs, List.mem_filter]
      refine ⟨hmem',decide_eq_true fun hca => hp ?_⟩
      dsimp only at hca
      exact hca ▸ hq
    obtain ⟨m2,bs2,hcalls,h2,hallocs2⟩ := ih h1 hnodup hrest
    refine ⟨m2,bs2,?_,h2,?_⟩
    · simp only [freeAll, List.foldlM_cons, hcall]
      exact hcalls
    · rw [hallocs2, hallocs, List.filter_filter]
      refine List.filter_congr fun x _ => ?_
      rw [← Bool.decide_and]
      refine Bool.decide_congr ?_
      rw [List.mem_cons, not_or, and_comm, Nat.add_right_cancel_iff]

/-- Every allocated block belongs to a live pointer. -/
def Exact (s : HeapState) (bs : List Blk) : Prop := ∀ x ∈ allocs heapStart bs, s.live (x.1 + 8) ≠ none

theorem Exact.step {fuel : ℕ} (hfuel : 0x100000 < fuel) {s t : HeapState} {bs bs' : List Blk} (h : Owned s bs)
    (hexact : Exact s bs) (hstep : Step fuel s t) (h' : Owned t bs') : Exact t bs' := by
  cases hstep with
  | @kmalloc size p m hsize hcall =>
    obtain ⟨p',m',hcall',hres⟩ := h.heap.kmalloc_spec hsize hfuel
    rw [hcall', Option.some.injEq, Prod.mk.injEq] at hcall
    obtain ⟨rfl,rfl⟩ := hcall
    rcases hres with ⟨rfl,rfl⟩ | ⟨pre,b,post,rfl,hsuit,rfl,hheap,_⟩
    · rw [h'.heap.unique h.heap]
      exact hexact
    · obtain ⟨n,_,hallocs⟩ := allocs_split (heapStart + span pre) post hsuit.2
      intro x hx
      rw [h'.heap.unique hheap, allocs_append, hallocs, List.mem_append, List.mem_cons] at hx
      dsimp only
      rw [if_neg (by unfold heapStart; omega)]
      by_cases hxp : x.1 + 8 = heapStart + span pre + 8
      · rw [hxp, Function.update_self]
        exact Option.some_ne_none _
      · rw [Function.update_of_ne hxp]
        refine hexact x ?_
        rw [allocs_append, allocs_of_free post hsuit.1, List.mem_append]
        exact hx.imp_right fun hx => hx.resolve_left fun hxn => hxp (by rw [hxn])
  | @kfree p m hlive hcall =>
    by_cases hz : p = 0
    · subst hz
      obtain rfl : s.mem = m := Option.some.inj hcall
      intro x hx
      rw [h'.heap.unique h.heap] at hx
      dsimp only
      rw [Function.update_of_ne (by omega)]
      exact hexact x hx
    · obtain ⟨n,hn⟩ := Option.ne_none_iff_exists'.mp (hlive.resolve_left hz)
      obtain ⟨a,k,hmem,rfl,_⟩ := h.live p n hn
      obtain ⟨m',bs1,hcall',hheap,hallocs⟩ := h.heap.kfree_allocs hmem hfuel
      rw [hcall', Option.some.injEq] at hcall
      subst hcall
      intro x hx
      rw [h'.heap.unique hheap, hallocs, List.mem_filter] at hx
      have hxa := of_decide_eq_true hx.2
      dsimp only
      rw [Function.update_of_ne (by omega)]
      exact hexact x hx.1
  | store v hlive hp hx =>
    rw [h'.heap.unique (h.store v hlive hp hx).heap]
    exact hexact

theorem run_exact (m : Mem) {fuel : ℕ} (hfuel : 0x100000 < fuel) {s : HeapState}
    (hrun : Relation.ReflTransGen (Step fuel) (initial m) s) : ∃ bs, Owned s bs ∧ Exact s bs := by
  induction hrun with
  | refl => exact ⟨_,⟨kmallocInit_ok m,fun p n hp => by cases hp⟩,fun x hx => by cases hx⟩
  | tail _ hstep ih =>
    obtain ⟨bs,h,hexact⟩ := ih
    obtain ⟨bs',h'⟩ := h.step hfuel hstep
    exact ⟨bs',h',hexact.step hfuel h hstep h'⟩

theorem Owned.allocated {s : HeapState} {bs : List Blk} (h : Owned s bs) {p : ℕ} (hp : s.live p ≠ none) :
    ∃ a n, p = a + 8 ∧ (a, n) ∈ allocs heapStart bs := by
  obtain ⟨n,hn⟩ := Option.ne_none_iff_exists'.mp hp
  obtain ⟨a,k,hmem,hpa,_⟩ := h.live p n hn
  exact ⟨a,k,hpa,hmem⟩

theorem HeapOk.kfree_kmalloc {m : Mem} {bs : List Blk} (h : HeapOk m bs) {fuel : ℕ} (hfuel : 0x100000 < fuel)
    {size p : ℕ} {m' : Mem} (hsize : size ≤ 0xFFFFFFF4) (hcall : kmalloc fuel size m = some (p, m')) (hp : p ≠ 0) :
    ∃ m'' bs'', kfree fuel p m' = some m'' ∧ HeapOk m'' bs'' ∧ allocs heapStart bs'' = allocs heapStart bs := by
  obtain ⟨p',m1,hcall',hres⟩ := h.kmalloc_spec hsize hfuel
  rw [hcall', Option.some.injEq, Prod.mk.injEq] at hcall
  obtain ⟨rfl,rfl⟩ := hcall
  rcases hres with ⟨hz,_⟩ | ⟨pre,b,post,rfl,hsuit,rfl,hheap,_⟩
  · exact absurd hz hp
  obtain ⟨n,_,hallocs⟩ := allocs_split (heapStart + span pre) post hsuit.2
  obtain ⟨m'',bs'',hfree,hheap'',hallocs''⟩ := hheap.kfree_allocs (a := heapStart + span pre) (n := n)
    (by rw [allocs_append, hallocs]; simp) hfuel
  refine ⟨m'',bs'',hfree,hheap'',?_⟩
  have hpre : ∀ c ∈ pre, 0 < c.size := fun c hc => Nat.lt_of_lt_of_le (by decide) (h.ok c (by simp [hc])).twelve_le
  have hb := h.lt_end
  rw [hallocs'', allocs_append, hallocs, allocs_without hpre (by omega), allocs_append, allocs_of_free post hsuit.1]

/-- In every run: the order in which live pointers are freed does not show in the layout, an
allocation freed at once leaves the layout as it was, and when everything has been freed the
heap is one free block. -/
theorem run_canonical (m : Mem) {fuel : ℕ} (hfuel : 0x100000 < fuel) {s : HeapState}
    (hrun : Relation.ReflTransGen (Step fuel) (initial m) s) :
    (∀ ps qs : List ℕ, ps.Nodup → (∀ p ∈ ps, s.live p ≠ none) → ps.Perm qs →
      ∃ m₁ m₂ blocks, freeAll fuel ps s.mem = some m₁ ∧ freeAll fuel qs s.mem = some m₂ ∧
        layout fuel m₁ = some blocks ∧ layout fuel m₂ = some blocks) ∧
    (∀ size p m', size ≤ 0xFFFFFFF4 → kmalloc fuel size s.mem = some (p, m') → p ≠ 0 →
      ∃ m'' blocks, kfree fuel p m' = some m'' ∧ layout fuel s.mem = some blocks ∧ layout fuel m'' = some blocks) ∧
    ∀ ps : List ℕ, ps.Nodup → (∀ p, p ∈ ps ↔ s.live p ≠ none) →
      ∃ m', freeAll fuel ps s.mem = some m' ∧ layout fuel m' = some [(heapStart, heapSize, true)] := by
  obtain ⟨bs,h,hexact⟩ := run_exact m hfuel hrun
  refine ⟨fun ps qs hnodup hlive hperm => ?_,fun size p m' hsize hcall hp => ?_,fun ps hnodup hlive => ?_⟩
  · obtain ⟨m₁,bs₁,hfree₁,h₁,hallocs₁⟩ := h.heap.freeAll_spec hfuel hnodup fun p hp => h.allocated (hlive p hp)
    obtain ⟨m₂,bs₂,hfree₂,h₂,hallocs₂⟩ := h.heap.freeAll_spec hfuel (hperm.nodup hnodup)
      fun p hp => h.allocated (hlive p (hperm.mem_iff.mpr hp))
    have hsame : allocs heapStart bs₁ = allocs heapStart bs₂ := by
      rw [hallocs₁, hallocs₂]
      exact List.filter_congr fun x _ => Bool.decide_congr (not_congr hperm.mem_iff)
    exact ⟨m₁,m₂,_,hfree₁,hfree₂,h₁.layout_eq hfuel,(h₂.layout_unique h₁ hsame.symm hfuel).trans (h₁.layout_eq hfuel)⟩
  · obtain ⟨m'',bs'',hfree,h'',hallocs⟩ := h.heap.kfree_kmalloc hfuel hsize hcall hp
    exact ⟨m'',_,hfree,h.heap.layout_eq hfuel,
      (h''.layout_unique h.heap hallocs hfuel).trans (h.heap.layout_eq hfuel)⟩
  · obtain ⟨m',bs',hfree,h',hallocs⟩ := h.heap.freeAll_spec hfuel hnodup fun p hp => h.allocated ((hlive p).mp hp)
    have hempty : allocs heapStart bs' = [] := by
      rw [hallocs, List.filter_eq_nil_iff]
      intro x hx
      simpa using (hlive _).mpr (hexact x hx)
    refine ⟨m',hfree,?_⟩
    rw [h'.layout_unique (kmallocInit_ok m) hempty hfuel, (kmallocInit_ok m).layout_eq hfuel]
    rfl

/-- A request of 100 bytes on the fresh heap, freed at once. -/
theorem run_canonical_hundred :
    ∃ m'' blocks, kfree 0x100001 0x100008 (takeBlock (kmallocInit fun _ => 0) heapStart 108) = some m'' ∧
      layout 0x100001 (kmallocInit fun _ => 0) = some blocks ∧ layout 0x100001 m'' = some blocks :=
  (run_canonical (fun _ => 0) (by decide) Relation.ReflTransGen.refl).2.1 100 0x100008 _ (by decide) rfl (by decide)

theorem layout_head {m : Mem} {fuel : ℕ} {x : ℕ × ℕ × Bool} {blocks : List (ℕ × ℕ × Bool)}
    (h : layout fuel m = some (x :: blocks)) : x.2.1 = blockSize m heapStart := by
  have hkeep : ∀ (fuel current : ℕ) (y : ℕ × ℕ × Bool) (seen : List (ℕ × ℕ × Bool)),
      loop (layoutStep m) fuel ⟨current,y :: seen⟩ = some (x :: blocks) → x = y := by
    intro fuel
    induction fuel with
    | zero => exact fun _ _ _ h => nomatch h
    | succ fuel ih =>
      intro current y seen h
      rw [loop, layoutStep] at h
      split at h
      · next hstep =>
        split at hstep
        · cases hstep
          exact ih _ _ _ h
        · cases hstep
      · next hstep =>
        split at hstep
        · cases hstep
        · cases hstep
          exact (List.cons.inj (Option.some.inj h)).1.symm
  cases fuel with
  | zero => cases h
  | succ fuel => rw [hkeep fuel _ _ [] h]

/-- The memory after a request whose total size wraps around to zero, and after its pointer has
been freed. -/
def wrapped : Mem := takeBlock (kmallocInit fun _ => 0) heapStart 0

def wrappedFreed : Mem := mergeNext (setFree wrapped heapStart 1) heapStart

/-- On the fresh heap a request of 0xFFFFFFF5 bytes is granted, and freeing it does not bring
the layout back. -/
theorem kfree_wrapped : kmalloc 0x100001 0xFFFFFFF5 (kmallocInit fun _ => 0) = some (0x100008, wrapped) ∧
    kfree 0x100001 0x100008 wrapped = some wrappedFreed ∧
    layout 0x100001 wrappedFreed ≠ layout 0x100001 (kmallocInit fun _ => 0) := by
  refine ⟨rfl,rfl,fun h => ?_⟩
  rw [(kmallocInit_ok _).layout_eq (by decide)] at h
  have hsize := layout_head h
  revert hsize
  decide +kernel

end ApPa.Heap

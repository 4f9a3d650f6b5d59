import ApPa.Heap.Client

/-! # Which block a request gets

The search keeps a running minimum and leaves at a perfect fit; the block it ends with is
the lowest of the smallest that suit, and only that block changes. The size it looks for is
rounded up and extended by a header in 32 bits, so the largest requests ask for almost
nothing and are granted.
-/
namespace ApPa.Heap
open ByteMem Loop Word32

/-- Best fit: a request fails exactly when no free block is large enough, and otherwise gets
the lowest block of minimal size. The rest of that block stays free if it has 24 bytes. -/
theorem kmalloc_bestFit {m : Mem} {bs : List Blk} (h : Walkable m bs) {size : ℕ} (hpos : 1 ≤ size)
    (hsize : size ≤ 0xFFFFFFF4) {fuel : ℕ} (hfuel : 0x100000 < fuel) :
    ∃ p m', kmalloc fuel size m = some (p, m') ∧
      (p = 0 ↔ ∀ b ∈ bs, b.free = true → b.size < need size) ∧ (p = 0 → m' = m) ∧
      (p ≠ 0 → ∃ pre b post, bs = pre ++ b :: post ∧ p = heapStart + span pre + headerSize ∧
        b.free = true ∧ need size ≤ b.size ∧
        (∀ c ∈ pre, c.free = true → need size ≤ c.size → b.size < c.size) ∧
        (∀ c ∈ post, c.free = true → need size ≤ c.size → b.size ≤ c.size) ∧
        Walkable m' (pre ++ (if need size + 24 ≤ b.size then [⟨need size,false⟩, ⟨b.size - need size,true⟩]
          else [⟨b.size,false⟩]) ++ post)) := by
  rcases h.kmalloc_spec (Nat.ne_of_gt hpos) hsize hfuel with
    ⟨hcall,hno⟩ | ⟨pre,b,post,m',rfl,hcall,hsuit,hbefore,hafter,hwalk,_⟩
  · have hsmall : ∀ b ∈ bs, b.free = true → b.size < need size :=
      fun b hb hfree => Nat.lt_of_not_le fun hle => hno b hb ⟨hfree,hle⟩
    exact ⟨0,m,hcall,⟨fun _ => hsmall,fun _ => rfl⟩,fun _ => rfl,fun hne => absurd rfl hne⟩
  · have hne : heapStart + span pre + 8 ≠ 0 := Nat.succ_ne_zero _
    refine ⟨_,m',hcall,⟨fun hzero => absurd hzero hne,fun hall => ?_⟩,fun hzero => absurd hzero hne,fun _ => ?_⟩
    · exact absurd (hall b (by simp) hsuit.1) (Nat.not_lt.mpr hsuit.2)
    · refine ⟨pre,b,post,rfl,rfl,hsuit.1,hsuit.2,fun c hc hfree hle => hbefore c hc ⟨hfree,hle⟩,
        fun c hc hfree hle => hafter c hc ⟨hfree,hle⟩,?_⟩
      rw [List.append_assoc]
      exact hwalk

def putHeader (m : Mem) (a : ℕ) (b : Blk) : Mem := setFree (setSize m a b.size) a (if b.free then 1 else 0)

/-- Two holes of 64 and 40 bytes between allocated blocks, and the rest of the heap. -/
def holes : List Blk := [⟨64,true⟩, ⟨32,false⟩, ⟨40,true⟩, ⟨32,false⟩, ⟨heapSize - 168,true⟩]

def holesMem : Mem :=
  (located heapStart holes).foldl (fun m x => putHeader m x.1 ⟨x.2.1,x.2.2⟩) fun _ => 0

theorem holes_walkable : Walkable holesMem holes where
  tiled := ⟨⟨rfl,rfl⟩,⟨rfl,rfl⟩,⟨rfl,rfl⟩,⟨rfl,rfl⟩,⟨rfl,rfl⟩,rfl⟩
  ok b hb := by
    simp only [holes, List.mem_cons, List.not_mem_nil, or_false] at hb
    rcases hb with rfl | rfl | rfl | rfl | rfl <;> exact ⟨by decide,by decide⟩

/-- A request that the first and the second hole suit gets the second, which is the smaller. -/
theorem kmalloc_bestFit_hole : ∃ m', kmalloc 0x100001 20 holesMem = some (0x100068, m') ∧
    Walkable m' [⟨64,true⟩, ⟨32,false⟩, ⟨40,false⟩, ⟨32,false⟩, ⟨heapSize - 168,true⟩] := by
  obtain ⟨p,m',hcall,hiff,-,hgot⟩ := kmalloc_bestFit holes_walkable (show 1 ≤ 20 by decide) (by decide)
    (show 0x100000 < 0x100001 by decide)
  have hp : p ≠ 0 := fun hzero => absurd (hiff.mp hzero ⟨64,true⟩ (by decide) rfl) (by decide)
  obtain ⟨pre,b,post,hbs,rfl,hfree,hfit,hbefore,hafter,hwalk⟩ := hgot hp
  rcases pre with _ | ⟨c₀,_ | ⟨c₁,_ | ⟨c₂,_ | ⟨c₃,_ | ⟨c₄,pre⟩⟩⟩⟩⟩ <;>
    simp only [holes, List.nil_append, List.cons_append, List.cons.injEq] at hbs
  · obtain ⟨rfl,rfl⟩ := hbs
    exact absurd (hafter ⟨40,true⟩ (by decide) rfl (by decide)) (by decide)
  · obtain ⟨-,rfl,-⟩ := hbs
    exact absurd hfree (by decide)
  · obtain ⟨rfl,rfl,rfl,rfl⟩ := hbs
    exact ⟨m',hcall,hwalk⟩
  · obtain ⟨-,-,-,rfl,-⟩ := hbs
    exact absurd hfree (by decide)
  · obtain ⟨rfl,rfl,rfl,rfl,rfl,-⟩ := hbs
    exact absurd (hbefore ⟨40,true⟩ (by decide) rfl (by decide)) (by decide)
  · obtain ⟨-,-,-,-,-,hnil⟩ := hbs
    simp at hnil

/-! ## Sizes at the top of the range -/

theorem totalSize_wrapped {size : ℕ} (h : 0xFFFFFFF4 < size) (h32 : size < 2 ^ 32) :
    add32 (alignSize size) headerSize ≤ 8 := by
  unfold alignSize add32 headerSize
  split
  · omega
  · omega

theorem blockSize_takeBlock (m : Mem) (a : ℕ) {total : ℕ} (h : total < 2 ^ 32) :
    blockSize (takeBlock m a total) a = total ∨ blockSize (takeBlock m a total) a = blockSize m a := by
  have hmark : ∀ m : Mem, blockSize (setFree m a 0) a = blockSize m a := fun m =>
    read32_write32_of_disjoint _ (Or.inl (Nat.le_refl _))
  unfold takeBlock
  dsimp only
  rw [hmark]
  split
  · left
    unfold blockSize setSize
    rw [read32_write32_self, Nat.mod_eq_of_lt h]
  · exact Or.inr rfl

/-- What a caller expects of a request: it returns `NULL` or enough bytes, and leaves blocks
that are no smaller than a header, so that the next walk comes to its end. -/
def Honours (fuel : ℕ) (m : Mem) (size : ℕ) : Prop :=
  ∃ p m', kmalloc fuel size m = some (p, m') ∧ (p = 0 ∨ size ≤ payload m' p) ∧
    (∃ bs, Tiled m' heapStart bs heapEnd ∧ ∀ b ∈ bs, headerSize ≤ b.size) ∧
    ∃ t, kmallocStatus fuel m' = some t ∧ t.current = heapEnd

theorem HeapOk.blocks_headed {m : Mem} {bs : List Blk} (h : HeapOk m bs) {fuel : ℕ} (hfuel : 0x100000 < fuel) :
    (∃ bs, Tiled m heapStart bs heapEnd ∧ ∀ b ∈ bs, headerSize ≤ b.size) ∧
      ∃ t, kmallocStatus fuel m = some t ∧ t.current = heapEnd :=
  ⟨⟨bs,h.tiled,fun b hb => Nat.le_trans (by decide) (h.ok b hb).twelve_le⟩,h.status_spec hfuel⟩

/-- Requests whose total size does not wrap around are honoured. -/
theorem HeapOk.honours {m : Mem} {bs : List Blk} (h : HeapOk m bs) {fuel : ℕ} (hfuel : 0x100000 < fuel) {size : ℕ}
    (hsize : size ≤ 0xFFFFFFF4) : Honours fuel m size := by
  obtain ⟨p,m',hcall,hres⟩ := h.kmalloc_spec hsize hfuel
  rcases hres with ⟨rfl,rfl⟩ | ⟨pre,b,post,rfl,hsuit,rfl,hheap,_⟩
  · exact ⟨0,m',hcall,Or.inl rfl,h.blocks_headed hfuel⟩
  · refine ⟨_,m',hcall,Or.inr ?_,hheap.blocks_headed hfuel⟩
    have hfit := hsuit.2
    unfold split at hheap
    split at hheap
    · have hpay : payload m' (heapStart + span pre + 8) = need size - 8 := hheap.toWalkable.payload_eq
      rw [hpay, need]
      omega
    · have hpay : payload m' (heapStart + span pre + 8) = b.size - 8 := hheap.toWalkable.payload_eq
      rw [need] at hfit
      rw [hpay]
      omega

/-- Larger requests are honoured only when they fail, and any free block is taken for them. -/
theorem HeapOk.honours_wrapped_iff {m : Mem} {bs : List Blk} (h : HeapOk m bs) {fuel : ℕ} (hfuel : 0x100000 < fuel)
    {size : ℕ} (hbig : 0xFFFFFFF4 < size) (h32 : size < 2 ^ 32) :
    Honours fuel m size ↔ ∀ b ∈ bs, b.free = false := by
  have htotal := totalSize_wrapped hbig h32
  obtain ⟨s,hs,hbest,_⟩ := h.search_spec (add32 (alignSize size) headerSize) hfuel
  have hcall : kmalloc fuel size m = s.bestFit.elim (some (0, m)) fun bestFit =>
      some (add32 bestFit headerSize, takeBlock m bestFit (add32 (alignSize size) headerSize)) := by
    rw [kmalloc, if_neg (by omega)]
    dsimp only
    rw [hs]
    dsimp only
    cases s.bestFit <;> rfl
  rcases hbest with ⟨hnone,_,hno⟩ | ⟨pre,b,post,rfl,hsome,_,hsuit,_,_⟩
  · rw [hnone] at hcall
    refine ⟨fun _ b hb => ?_,fun _ => ⟨0,m,hcall,Or.inl rfl,h.blocks_headed hfuel⟩⟩
    have htwelve := (h.ok b hb).twelve_le
    exact Bool.eq_false_iff.mpr fun hfree => hno b hb ⟨hfree,by omega⟩
  · rw [hsome, Option.elim_some] at hcall
    constructor
    · rintro ⟨p,m',hcall',hres,_⟩
      rw [hcall, Option.some.injEq, Prod.mk.injEq] at hcall'
      obtain ⟨rfl,rfl⟩ := hcall'
      have hroom := h.lt_end
      have hlow : heapStart = 0x100000 := rfl
      have hend : heapEnd = 0x200000 := rfl
      have hp : add32 (heapStart + span pre) headerSize = heapStart + span pre + 8 :=
        add32_of_lt (by unfold headerSize; omega)
      have hsize := h.tiled.header.size_eq
      rw [hp, payload, show heapStart + span pre + 8 - headerSize = heapStart + span pre from rfl] at hres
      -- the block handed out is no larger than the heap
      rcases blockSize_takeBlock m (heapStart + span pre)
        (show add32 (alignSize size) headerSize < 2 ^ 32 from Nat.lt_of_le_of_lt htotal (by decide)) with he | he
      · rw [he] at hres
        omega
      · rw [he, hsize] at hres
        omega
    · intro hall
      exact absurd (hsuit.1.symm.trans (hall b (by simp))) (by decide)

/-- In every run a request of any 32-bit size is honoured exactly when it is at most
`0xFFFFFFF4`, or when there is no free block for a larger one to be taken from. -/
theorem run_honours_iff (m : Mem) {fuel : ℕ} (hfuel : 0x100000 < fuel) {s : HeapState}
    (hrun : Relation.ReflTransGen (Step fuel) (initial m) s) {size : ℕ} (h32 : size < 2 ^ 32) :
    ∃ bs, HeapOk s.mem bs ∧ (Honours fuel s.mem size ↔ size ≤ 0xFFFFFFF4 ∨ ∀ b ∈ bs, b.free = false) := by
  obtain ⟨bs,h⟩ := run_owned m hfuel hrun
  refine ⟨bs,h.heap,?_⟩
  by_cases hsize : size ≤ 0xFFFFFFF4
  · exact ⟨fun _ => Or.inl hsize,fun _ => h.heap.honours hfuel hsize⟩
  · rw [h.heap.honours_wrapped_iff hfuel (Nat.lt_of_not_le hsize) h32]
    exact ⟨Or.inr,fun hor => hor.resolve_left hsize⟩

theorem run_honours_hundred : Honours 0x100001 (kmallocInit fun _ => 0) 100 := by
  obtain ⟨bs,_,hiff⟩ := run_honours_iff (fun _ => 0) (show 0x100000 < 0x100001 by decide) Relation.ReflTransGen.refl
    (show 100 < 2 ^ 32 by decide)
  exact hiff.mpr (Or.inl (by decide))

/-- A block of size zero keeps every walk where it stands. -/
theorem kmallocStatus_stuck {m : Mem} (h : blockSize m heapStart = 0) (fuel : ℕ) : kmallocStatus fuel m = none := by
  have hstay : ∀ (fuel : ℕ) (s : Status), s.current = heapStart → loop (statusStep m) fuel s = none := by
    intro fuel
    induction fuel with
    | zero => exact fun _ _ => rfl
    | succ fuel ih =>
      intro s hs
      have hnext : add32 s.current (blockSize m s.current) = heapStart := by
        rw [hs, h]
        rfl
      rw [loop, statusStep, if_pos (by rw [hs]; decide)]
      dsimp only
      by_cases hfree : isFree m s.current ≠ 0
      · rw [if_pos hfree]
        exact ih _ hnext
      · rw [if_neg hfree]
        exact ih _ hnext
  exact hstay fuel _ rfl

/-- A request of `0xFFFFFFF5` bytes on the fresh heap gets a block of size zero, and the next
walk over the heap does not end. -/
theorem kmalloc_not_honoured : kmalloc 0x100001 0xFFFFFFF5 (kmallocInit fun _ => 0) = some (0x100008, wrapped) ∧
    payload wrapped 0x100008 = 0 ∧ blockSize wrapped heapStart = 0 ∧ (∀ fuel, kmallocStatus fuel wrapped = none) ∧
    ¬Honours 0x100001 (kmallocInit fun _ => 0) 0xFFFFFFF5 := by
  have hzero : blockSize wrapped heapStart = 0 := by decide +kernel
  refine ⟨rfl,?_,hzero,kmallocStatus_stuck hzero,fun hhon => ?_⟩
  · change blockSize wrapped heapStart - headerSize = 0
    rw [hzero, Nat.zero_sub]
  · have hall := ((kmallocInit_ok fun _ => 0).honours_wrapped_iff (by decide) (by decide) (by decide)).mp hhon
    exact absurd (hall ⟨heapSize,true⟩ (by simp)) (by decide)

end ApPa.Heap

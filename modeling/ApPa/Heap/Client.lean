import ApPa.Heap.Layout

/-! # What a client of the heap may rely on

Headers live in the same memory as the payloads. In every run the payloads of live pointers
are aligned, large enough, inside the heap, apart from each other and from all headers, and
no call changes a byte of a payload that is not the one being freed.
-/
namespace ApPa.Heap
open ByteMem Word32

/-- Bytes behind the header of the block that `p` points into. -/
def payload (m : Mem) (p : ℕ) : ℕ := blockSize m (p - headerSize) - headerSize

theorem blocks_apart {pre post pre' post' : List Blk} {b b' : Blk} (h : pre ++ b :: post = pre' ++ b' :: post') :
    (pre = pre' ∧ b = b') ∨ span pre + b.size ≤ span pre' ∨ span pre' + b'.size ≤ span pre := by
  induction pre generalizing pre' with
  | nil =>
    cases pre' with
    | nil => exact Or.inl ⟨rfl,(List.cons.inj h).1⟩
    | cons c pre' =>
      cases h
      exact Or.inr (Or.inl (by rw [span_nil, span_cons]; omega))
  | cons c pre ih =>
    cases pre' with
    | nil =>
      cases h
      exact Or.inr (Or.inr (by rw [span_nil, span_cons]; omega))
    | cons c' pre' =>
      obtain ⟨rfl,htail⟩ := List.cons.inj h
      rw [span_cons, span_cons]
      rcases ih htail with ⟨rfl,rfl⟩ | hle | hle
      · exact Or.inl ⟨rfl,rfl⟩
      · exact Or.inr (Or.inl (by omega))
      · exact Or.inr (Or.inr (by omega))

/-- The contract of a heap and its live pointers. -/
structure Contract (fuel : ℕ) (s : HeapState) : Prop where
  aligned : ∀ p, s.live p ≠ none → 4 ∣ p
  owns : ∀ p n, s.live p = some n → n ≤ payload s.mem p
  inside : ∀ p, s.live p ≠ none → heapStart ≤ p ∧ p + payload s.mem p ≤ heapEnd
  apart : ∀ p q, s.live p ≠ none → s.live q ≠ none → p ≠ q →
    p + payload s.mem p ≤ q ∨ q + payload s.mem q ≤ p
  headers : ∃ blocks, layout fuel s.mem = some blocks ∧ ∀ b ∈ blocks, ∀ p, s.live p ≠ none →
    b.1 + headerSize ≤ p ∨ p + payload s.mem p ≤ b.1
  kmalloc : ∀ size ≤ 0xFFFFFFF4, ∃ p m', kmalloc fuel size s.mem = some (p, m') ∧
    ∀ q, s.live q ≠ none → q ≠ p ∧ ∀ x, q ≤ x → x < q + payload s.mem q → m' x = s.mem x
  kfree : ∀ p, p = 0 ∨ s.live p ≠ none → ∃ m', kfree fuel p s.mem = some m' ∧
    ∀ q, s.live q ≠ none → q ≠ p → ∀ x, q ≤ x → x < q + payload s.mem q → m' x = s.mem x

theorem Walkable.payload_eq {m : Mem} {pre post : List Blk} {b : Blk} (h : Walkable m (pre ++ b :: post)) :
    payload m (heapStart + span pre + 8) = b.size - 8 := by
  rw [payload, show heapStart + span pre + 8 - headerSize = heapStart + span pre from rfl, h.tiled.header.size_eq]
  rfl

theorem mem_located {a : ℕ} {bs : List Blk} {x : ℕ × ℕ × Bool} (h : x ∈ located a bs) :
    ∃ pre b post, bs = pre ++ b :: post ∧ x.1 = a + span pre := by
  induction bs generalizing a with
  | nil => cases h
  | cons b bs ih =>
    rcases List.mem_cons.mp h with rfl | h
    · exact ⟨[],b,bs,rfl,rfl⟩
    · obtain ⟨pre,c,post,rfl,hx⟩ := ih h
      refine ⟨b :: pre,c,post,rfl,?_⟩
      rw [span_cons]
      omega

theorem span_aligned {pre : List Blk} (hok : ∀ b ∈ pre, b.Ok) : 4 ∣ span pre := by
  induction pre with
  | nil => exact Nat.dvd_zero 4
  | cons b pre ih =>
    rw [span_cons]
    exact Nat.dvd_add (hok b List.mem_cons_self).aligned (ih fun c hc => hok c (List.mem_cons_of_mem _ hc))

namespace Owned
variable {s : HeapState} {bs : List Blk} {p q n : ℕ}

theorem at_block (h : Owned s bs) (hp : s.live p ≠ none) :
    ∃ pre b post, bs = pre ++ b :: post ∧ b.free = false ∧ p = heapStart + span pre + 8 ∧ 12 ≤ b.size ∧
      payload s.mem p = b.size - 8 := by
  obtain ⟨n,hn⟩ := Option.ne_none_iff_exists'.mp hp
  obtain ⟨pre,b,post,rfl,hfree,rfl,_⟩ := h.block hn
  exact ⟨pre,b,post,rfl,hfree,rfl,h.heap.lt_end.2,h.heap.payload_eq⟩

theorem kmalloc_keeps (h : Owned s bs) {fuel : ℕ} (hfuel : 0x100000 < fuel) {size : ℕ} (hsize : size ≤ 0xFFFFFFF4) :
    ∃ p m', Heap.kmalloc fuel size s.mem = some (p, m') ∧
      ∀ q, s.live q ≠ none → q ≠ p ∧ ∀ x, q ≤ x → x < q + payload s.mem q → m' x = s.mem x := by
  obtain ⟨p,m',hcall,hres⟩ := h.heap.kmalloc_spec hsize hfuel
  refine ⟨p,m',hcall,fun q hq => ?_⟩
  obtain ⟨pre',b',post',hbs,hfree',rfl,h12,hpay⟩ := h.at_block hq
  rcases hres with ⟨rfl,rfl⟩ | ⟨pre,b,post,rfl,hsuit,rfl,_,hframe⟩
  · exact ⟨by omega,fun _ _ _ => rfl⟩
  have hb := h.heap.lt_end
  rcases blocks_apart hbs with ⟨_,rfl⟩ | hle | hle
  · rw [hsuit.1] at hfree'
    cases hfree'
  · exact ⟨by omega,fun x hx hlt => hframe x (Or.inr (by omega))⟩
  · exact ⟨by omega,fun x hx hlt => hframe x (Or.inl (by omega))⟩

theorem kfree_keeps (h : Owned s bs) {fuel : ℕ} (hfuel : 0x100000 < fuel) (hp : p = 0 ∨ s.live p ≠ none) :
    ∃ m', Heap.kfree fuel p s.mem = some m' ∧
      ∀ q, s.live q ≠ none → q ≠ p → ∀ x, q ≤ x → x < q + payload s.mem q → m' x = s.mem x := by
  by_cases hz : p = 0
  · subst hz
    exact ⟨s.mem,rfl,fun _ _ _ _ _ _ => rfl⟩
  obtain ⟨pre,b,post,rfl,hfree,rfl,h12,_⟩ := h.at_block (hp.resolve_left hz)
  obtain ⟨m',hcall,_,hframe⟩ := h.heap.kfree_spec hfuel
  refine ⟨m',hcall,fun q hq hne x hx hlt => hframe x ?_ ?_⟩
  · obtain ⟨pre',b',post',hbs,_,rfl,_,hpay⟩ := h.at_block hq
    rcases blocks_apart hbs with ⟨rfl,_⟩ | hle | hle
    · exact absurd rfl hne
    · exact Or.inr (by omega)
    · exact Or.inl (by omega)
  · -- a predecessor that is merged is free, so it is not the block of `q`
    rintro pre'' d rfl hd
    obtain ⟨pre',b',post',hbs,hfree',rfl,_,hpay⟩ := h.at_block hq
    rw [List.append_assoc, List.singleton_append] at hbs
    have hd12 := (h.heap.ok d (by simp)).twelve_le
    rcases blocks_apart hbs with ⟨_,rfl⟩ | hle | hle
    · rw [hd] at hfree'
      cases hfree'
    · exact Or.inr (by omega)
    · exact Or.inl (by omega)

end Owned

/-- The contract holds in every run. -/
theorem run_contract (m : Mem) {fuel : ℕ} (hfuel : 0x100000 < fuel) {s : HeapState}
    (hrun : Relation.ReflTransGen (Step fuel) (initial m) s) : Contract fuel s := by
  obtain ⟨bs,h⟩ := run_owned m hfuel hrun
  refine ⟨fun p hp => ?_,fun p n hn => ?_,fun p hp => ?_,fun p q hp hq hne => ?_,⟨_,h.heap.layout_eq hfuel,?_⟩,
    fun size hsize => h.kmalloc_keeps hfuel hsize,fun p hp => h.kfree_keeps hfuel hp⟩
  · obtain ⟨pre,b,post,rfl,_,rfl,_⟩ := h.at_block hp
    have hspan := span_aligned fun c hc => h.heap.ok c (List.mem_append_left _ hc)
    exact Nat.dvd_add (Nat.dvd_add (by decide) hspan) (by decide)
  · obtain ⟨pre,b,post,rfl,_,rfl,hle⟩ := h.block hn
    rw [h.heap.payload_eq]
    omega
  · obtain ⟨pre,b,post,rfl,_,rfl,_,hpay⟩ := h.at_block hp
    have hb := h.heap.lt_end
    omega
  · obtain ⟨pre,b,post,rfl,_,rfl,_,hpay⟩ := h.at_block hp
    obtain ⟨pre',b',post',hbs,_,rfl,_,hpay'⟩ := h.at_block hq
    rcases blocks_apart hbs with ⟨rfl,_⟩ | hle | hle
    · exact absurd rfl hne
    · exact Or.inl (by omega)
    · exact Or.inr (by omega)
  · intro x hx p hp
    obtain ⟨pre,b,post,rfl,_,rfl,_,hpay⟩ := h.at_block hp
    obtain ⟨pre',b',post',hbs,hx'⟩ := mem_located hx
    have hb' := (h.heap.ok b' (by rw [hbs]; simp)).twelve_le
    rw [hx', headerSize]
    rcases blocks_apart hbs with ⟨rfl,_⟩ | hle | hle
    · exact Or.inl (Nat.le_refl _)
    · exact Or.inr (by omega)
    · exact Or.inl (by omega)

theorem kmalloc_of_search {fuel size a total p : ℕ} {m : Mem} (hpos : size ≠ 0)
    (htotal : add32 (alignSize size) headerSize = total) (hfound : (search fuel m total).map Search.bestFit = some (some a))
    (hp : add32 a headerSize = p) : kmalloc fuel size m = some (p, takeBlock m a total) := by
  subst htotal hp
  obtain ⟨s,hs,hbest⟩ := Option.map_eq_some_iff.mp hfound
  rw [kmalloc, if_neg hpos]
  dsimp only
  rw [hs]
  dsimp only
  rw [hbest]

def hundredMem : Mem := takeBlock (kmallocInit fun _ => 0) 0x100000 108

def fiftyMem : Mem := takeBlock hundredMem 0x10006C 60

def freedMem : Mem := setFree fiftyMem 0x100000 1

/-- Two requests, then the first is freed and a smaller one is put in its place. -/
theorem run_contract_reused : ∃ s, Relation.ReflTransGen (Step 0x100001) (initial fun _ => 0) s ∧
    s.live 0x100008 = some 20 ∧ s.live 0x100074 = some 50 ∧ Contract 0x100001 s := by
  have hfirst : kmalloc 0x100001 100 (initial fun _ => 0).mem = some (0x100008, hundredMem) := rfl
  have hsecond : kmalloc 0x100001 50 hundredMem = some (0x100074, fiftyMem) :=
    kmalloc_of_search (by decide) (by decide) (by rfl) (by decide)
  have hfreed : kfree 0x100001 0x100008 fiftyMem = some freedMem := by rfl
  have hthird : kmalloc 0x100001 20 freedMem = some (0x100008, takeBlock freedMem 0x100000 28) :=
    kmalloc_of_search (by decide) (by decide) (by rfl) (by decide)
  have hrun := (((Relation.ReflTransGen.refl.tail (Step.kmalloc (by decide) hfirst)).tail
    (Step.kmalloc (by decide) hsecond)).tail (Step.kfree (by decide) hfreed)).tail (Step.kmalloc (by decide) hthird)
  exact ⟨_,hrun,rfl,rfl,run_contract (fun _ => 0) (by decide) hrun⟩

end ApPa.Heap

import ApPa.Exec.Arguments

/-! # The frame a process finds on its stack

The kernel fills the stack page from its top downwards, at physical addresses; `crt0` reads
it at virtual ones. Between 1 and 64 arguments that fit arrive unchanged. Without arguments,
or when they do not fit, nothing is written and the stack pointer is the end of the page.
-/
namespace ApPa.Exec
open ByteMem Memory Tasks Word32

/-- Where a virtual address of the stack page lies in the page at `base`. -/
def stackPhys (base va : ℕ) : ℕ := base + (va - userStackVirt)

section
variable {argv : ℕ → Arg}

theorem argBytes_mono (argv : ℕ → Arg) {i n : ℕ} (h : i ≤ n) : argBytes argv i ≤ argBytes argv n := by
  induction n, h using Nat.le_induction with
  | base => exact Nat.le_refl _
  | succ n _ ih =>
    rw [argBytes]
    omega

/-- Where the strings go: argument `i` behind the arguments before it. -/
theorem copyStrings_total (argv : ℕ → Arg) (n : ℕ) (m : Mem) (cursor : ℕ) (h : argBytes argv n ≤ cursor) :
    ∃ m', copyStrings argv m cursor n =
        some (m', cursor - argBytes argv n,
          (List.range n).map fun i => cursor - argBytes argv n + argBytes argv i) ∧
      ∀ i < n, load m' (cursor - argBytes argv n + argBytes argv i) ((argv i).1.length + 1) = (argv i).1 ++ [0] := by
  induction n generalizing m cursor with
  | zero => exact ⟨m,rfl,fun i hi => absurd hi (Nat.not_lt_zero i)⟩
  | succ n ih =>
    rw [argBytes] at h ⊢
    obtain ⟨m',he,hload⟩ := ih (store m (cursor - ((argv n).1.length + 1)) ((argv n).1 ++ [0]))
      (cursor - ((argv n).1.length + 1)) (by omega)
    obtain ⟨_,_,hframe⟩ := copyStrings_spec he
    have hbase : cursor - ((argv n).1.length + 1) - argBytes argv n =
        cursor - (argBytes argv n + ((argv n).1.length + 1)) := by omega
    have hlast : cursor - (argBytes argv n + ((argv n).1.length + 1)) + argBytes argv n =
        cursor - ((argv n).1.length + 1) := by omega
    rw [hbase] at he hload
    refine ⟨m',?_,fun i hi => ?_⟩
    · rw [copyStrings, if_neg (by omega), he, List.range_succ, List.map_append, List.map_singleton, hlast]
    · rcases Nat.lt_succ_iff_lt_or_eq.mp hi with hi | rfl
      · exact hload i hi
      · -- the strings copied later lie below
        have hself := load_store_self m (cursor - ((argv i).1.length + 1)) ((argv i).1 ++ [0])
        rw [List.length_append, List.length_singleton] at hself
        rw [hlast, ← hself]
        exact load_congr fun x hx _ => hframe x (Or.inr hx)

theorem stackVirt_add (base : ℕ) {k : ℕ} (hk : k ≤ pageSize) :
    stackVirt (base + pageSize) (base + k) = userStackVirt + k := by
  simp only [pageSize] at *
  unfold stackVirt userStackVirt userStackTop
  rw [sub32_of_le (by omega) (by omega)]
  omega

@[simp] theorem stackPhys_add (base k : ℕ) : stackPhys base (userStackVirt + k) = base + k := by
  rw [stackPhys, Nat.add_sub_cancel_left]

end

/-- What `crt0` finds at `esp`: the number of arguments, a pointer to their addresses with a
NULL behind them, and at each address a copy of the argument with its NUL. In the page,
from low to high: the two words, the addresses, the strings in order. -/
structure ArgFrame (m : Mem) (base esp n : ℕ) (argv : ℕ → Arg) (array : ℕ) (strs : ℕ → ℕ) : Prop where
  aligned : 4 ∣ esp
  esp_ge : userStackVirt ≤ esp
  count : read32 m (stackPhys base esp) = n
  table : read32 m (stackPhys base (esp + 4)) = array
  pointer : ∀ i < n, read32 m (stackPhys base (array + 4 * i)) = strs i
  sentinel : read32 m (stackPhys base (array + 4 * n)) = 0
  string : ∀ i < n, load m (stackPhys base (strs i)) ((argv i).1.length + 1) = (argv i).1 ++ [0]
  header_lt : esp + 8 ≤ array
  array_lt : ∀ i < n, array + 4 * (n + 1) ≤ strs i
  ordered : ∀ i j, i < j → j < n → strs i + ((argv i).1.length + 1) ≤ strs j
  string_le : ∀ i < n, strs i + ((argv i).1.length + 1) ≤ userStackTop

theorem read32_push_two (m : Mem) (sp : ℕ) {k x y : ℕ} {ws : List ℕ} (hlen : ws.length = k) (hx : x < 2 ^ 32) (hy : y < 2 ^ 32)
    {m' : Mem} (hm' : m' = (push (push m (sp + 8 + 4 * k) ws).1 (sp + 8) [x, y]).1) :
    read32 m' sp = y ∧ read32 m' (sp + 4) = x ∧
      (∀ j, ∀ hj : j < ws.length, read32 m' (sp + 8 + 4 * (k - (j + 1))) = ws[j] % 2 ^ 32) ∧
      ∀ z, sp + 8 + 4 * k ≤ z → m' z = m z := by
  subst hm' hlen
  have htwo : 4 * [x, y].length ≤ sp + 8 := Nat.le_add_left 8 sp
  refine ⟨?_,?_,fun j hj => ?_,fun z hz => ?_⟩
  · exact (read32_push htwo Nat.one_lt_two).trans (Nat.mod_eq_of_lt hy)
  · exact (read32_push htwo Nat.two_pos).trans (Nat.mod_eq_of_lt hx)
  · rw [← read32_push (m := m) (show 4 * ws.length ≤ sp + 8 + 4 * ws.length by omega) hj,
      show sp + 8 + 4 * ws.length - 4 * (j + 1) = sp + 8 + 4 * (ws.length - (j + 1)) by omega]
    exact read32_congr fun z hz _ => push_apply htwo (Or.inr (by omega))
  · rw [push_apply htwo (Or.inr (by omega)), push_apply (by omega) (Or.inr hz)]

section
variable {n : ℕ} {argv : ℕ → Arg}

theorem getElem_pointers (g : ℕ → ℕ) {i : ℕ} (hi : i ≤ n) (h : n - i < (0 :: ((List.range n).map g).reverse).length) :
    (0 :: ((List.range n).map g).reverse)[n - i] = if i = n then 0 else g i := by
  rw [List.getElem_cons]
  by_cases hin : i = n
  · rw [dif_pos (by omega), if_pos hin]
  · have hback : n - 1 - (n - i - 1) = i := by omega
    rw [dif_neg (by omega), if_neg hin]
    simp only [List.getElem_reverse, List.getElem_map, List.getElem_range, List.length_map, List.length_range, hback]

theorem setupUserStackArgs_ne_none (m : Mem) (base : ℕ) (h64 : n ≤ 64) (hfit : frameBytes argv n ≤ argvMaxTotal) :
    setupUserStackArgs m base (some argv) n ≠ none := by
  have hpass : ¬argvMaxTotal < add32 (totalStr argv n) ((n + 1 + 1 + 1) * 4 % 2 ^ 32) :=
    Nat.not_lt.mpr (Passes.of_fits hfit)
  have hmax : argvMaxTotal = 3840 := rfl
  have hps : pageSize = 4096 := rfl
  unfold frameBytes at hfit
  obtain ⟨m₁,hcopy,_⟩ := copyStrings_total argv n m (base + pageSize) (by omega)
  have hslot : ¬(base + pageSize - argBytes argv n) / 4 * 4 < (n + 3) * 4 := by omega
  have h64' : ¬64 < n := by omega
  unfold setupUserStackArgs
  dsimp only
  split
  · exact Option.some_ne_none _
  · rw [Int.toNat_natCast, if_neg hpass, if_neg h64', hcopy]
    dsimp only
    rw [if_neg hslot]
    exact Option.some_ne_none _

/-- The frame in the page: `e` bytes are left below it, `r` are lost to alignment. -/
theorem setupUserStackArgs_eq (m : Mem) (base : ℕ) (hn : 1 ≤ n) (h64 : n ≤ 64)
    (hfit : frameBytes argv n ≤ argvMaxTotal) {e r : ℕ} (h4 : 4 ∣ base + e) (hr : r < 4)
    (hsum : e + 8 + 4 * (n + 1) + r + argBytes argv n = pageSize) {strs : ℕ → ℕ}
    (hstrs : ∀ i, strs i = e + 8 + 4 * (n + 1) + r + argBytes argv i) :
    ∃ m', setupUserStackArgs m base (some argv) n = some (userStackVirt + e, m') ∧
      read32 m' (base + e) = n ∧ read32 m' (base + (e + 4)) = userStackVirt + (e + 8) ∧
      (∀ i ≤ n, read32 m' (base + (e + 8 + 4 * i)) = if i = n then 0 else userStackVirt + strs i) ∧
      ∀ i < n, load m' (base + strs i) ((argv i).1.length + 1) = (argv i).1 ++ [0] := by
  have hpass : Passes argv n := Passes.of_fits hfit
  have hvirt : userStackVirt = 0xBFFFF000 := rfl
  have hps : pageSize = 4096 := rfl
  have hle : ∀ i ≤ n, strs i ≤ pageSize := fun i hi => by
    rw [hstrs, ← hsum]
    exact Nat.add_le_add_left (argBytes_mono argv hi) _
  obtain ⟨m₁,hcopy,hload⟩ := copyStrings_total argv n m (base + pageSize) (by omega)
  have hc : ∀ i, base + pageSize - argBytes argv n + argBytes argv i = base + strs i := by
    intro i
    rw [hstrs, ← hsum]
    omega
  have hzero : base + pageSize - argBytes argv n = base + strs 0 := hc 0
  simp only [hc] at hcopy hload
  rw [hzero] at hcopy
  have hslot : (base + strs 0) / 4 * 4 = base + e + 8 + 4 * (n + 1) := by
    rw [hstrs, argBytes]
    omega
  have hws : ((List.range n).map fun i => base + strs i).map (stackVirt (base + pageSize)) =
      (List.range n).map fun i => userStackVirt + strs i := by
    rw [List.map_map]
    exact List.map_congr_left fun i hi => stackVirt_add base (hle i (List.mem_range.mp hi).le)
  have hlen : (0 :: ((List.range n).map fun i => userStackVirt + strs i).reverse).length = n + 1 := by simp
  have hroom : ¬base + e + 8 + 4 * (n + 1) < (n + 3) * 4 := by omega
  have hend : base + e + 8 + 4 * (n + 1) - 4 * (n + 1) = base + (e + 8) := by omega
  have hesp : base + (e + 8) - 4 * [userStackVirt + (e + 8), n].length = base + e := by
    rw [← Nat.add_assoc]
    exact Nat.add_sub_cancel ..
  obtain ⟨hcount,htable,hptr,hframe⟩ := read32_push_two m₁ (base + e) (x := userStackVirt + (e + 8)) (y := n) hlen
    (by omega) (by omega) rfl
  refine ⟨_,?_,hcount,htable,fun i hi => ?_,fun i hi => ?_⟩
  · rw [setupUserStackArgs, if_neg (by omega), Int.toNat_natCast]
    simp only [if_neg (Nat.not_lt.mpr hpass), if_neg (Nat.not_lt.mpr h64), hcopy, hslot, hws, if_neg hroom, push_snd, hlen, hend, hesp,
      stackVirt_add base (show e + 8 ≤ pageSize by omega), stackVirt_add base (show e ≤ pageSize by omega)]
    rfl
  · have hi' : n - i < (0 :: ((List.range n).map fun i => userStackVirt + strs i).reverse).length := by omega
    have hword := hptr (n - i) hi'
    have hlt : (if i = n then 0 else userStackVirt + strs i) < 2 ^ 32 := by
      have := hle i hi
      split <;> omega
    rw [getElem_pointers _ hi, Nat.mod_eq_of_lt hlt, show n + 1 - (n - i + 1) = i by omega] at hword
    rw [← hword]
    simp only [Nat.add_assoc]
  · rw [← hload i hi]
    refine load_congr fun x hx _ => hframe x (Nat.le_trans ?_ hx)
    rw [hstrs]
    omega

/-- From 1 to 64 arguments that fit arrive as they are. -/
theorem setupUserStackArgs_frame (m : Mem) (a : ℕ) (hn : 1 ≤ n) (h64 : n ≤ 64)
    (hfit : frameBytes argv n ≤ argvMaxTotal) :
    ∃ esp m' array strs, setupUserStackArgs m (a * pageSize) (some argv) n = some (esp, m') ∧
      ArgFrame m' (a * pageSize) esp n argv array strs := by
  have hps : pageSize = 4096 := rfl
  have htop : userStackTop = userStackVirt + pageSize := rfl
  have hmax : argvMaxTotal = 3840 := rfl
  have hfit' := hfit
  unfold frameBytes at hfit'
  obtain ⟨e,r,hr,h4,hsum⟩ : ∃ e r, r < 4 ∧ 4 ∣ e ∧ e + 8 + 4 * (n + 1) + r + argBytes argv n = pageSize := by
    refine ⟨(pageSize - argBytes argv n) / 4 * 4 - 8 - 4 * (n + 1),(pageSize - argBytes argv n) % 4,?_,?_,?_⟩ <;> omega
  obtain ⟨m',hrun,hcount,htable,hptr,hstr⟩ := setupUserStackArgs_eq m (a * pageSize) hn h64 hfit
    (Nat.dvd_add (Dvd.dvd.mul_left (by decide) a) h4) hr hsum fun _ => rfl
  have hmono : ∀ i j, i < j → argBytes argv i + ((argv i).1.length + 1) ≤ argBytes argv j :=
    fun i j h => argBytes_mono argv (Nat.succ_le_of_lt h)
  refine ⟨userStackVirt + e,m',userStackVirt + (e + 8),
    fun i => userStackVirt + (e + 8 + 4 * (n + 1) + r + argBytes argv i),hrun,?_⟩
  constructor
  case aligned => exact Nat.dvd_add (by decide) h4
  case esp_ge => exact Nat.le_add_right ..
  case count => rwa [stackPhys_add]
  case table => rwa [Nat.add_assoc, stackPhys_add]
  case pointer =>
    intro i hi
    rw [Nat.add_assoc, stackPhys_add, hptr i hi.le, if_neg hi.ne]
  case sentinel => rw [Nat.add_assoc, stackPhys_add, hptr n le_rfl, if_pos rfl]
  case string =>
    intro i hi
    rw [stackPhys_add]
    exact hstr i hi
  case header_lt => exact Nat.le_of_eq (Nat.add_assoc ..)
  case array_lt => intro i _; omega
  case ordered =>
    intro i j hij _
    have := hmono i j hij
    omega
  case string_le =>
    intro i hi
    have := hmono i n hi
    omega

/-- Arguments that fit arrive as they are, and nothing is written outside the stack page. -/
theorem argv_round_trip (m : Mem) {a : ℕ} (ha : a < totalFrames) (hn : 1 ≤ n) (h64 : n ≤ 64)
    (hfit : frameBytes argv n ≤ argvMaxTotal) :
    ∃ esp m' array strs, setupUserStackArgs m (a * pageSize) (some argv) n = some (esp, m') ∧
      (∀ x, x / pageSize ≠ a → m' x = m x) ∧ esp < userStackTop ∧
      ArgFrame m' (a * pageSize) esp n argv array strs := by
  obtain ⟨esp,m',array,strs,hrun,hframe⟩ := setupUserStackArgs_frame m a hn h64 hfit
  refine ⟨esp,m',array,strs,hrun,fun x hx => setupUserStackArgs_apply hrun ha hx,?_,hframe⟩
  have h1 := hframe.header_lt
  have h2 := hframe.array_lt 0 hn
  have h3 := hframe.string_le 0 hn
  omega

theorem argv_round_trip_two :
    ∃ esp m' array strs,
      setupUserStackArgs (fun _ => 0) (0x500 * pageSize) (some fun _ => ⟨[0x6C, 0x73],by decide⟩) 2 = some (esp, m') ∧
      (∀ x, x / pageSize ≠ 0x500 → m' x = 0) ∧ esp < userStackTop ∧
      ArgFrame m' (0x500 * pageSize) esp 2 (fun _ => ⟨[0x6C, 0x73],by decide⟩) array strs :=
  argv_round_trip (fun _ => 0) (by decide) (by decide) (by decide) (by decide)

end

section
variable (argv : Option (ℕ → Arg)) (argc : ℤ)

/-- How many arguments the process is given: none without an `argv`, none if they do not fit. -/
def delivered : ℕ :=
  match argv with
  | none => 0
  | some args =>
    if argc ≤ 0 ∨ argvMaxTotal < add32 (totalStr args argc.toNat) ((argc.toNat + 1 + 1 + 1) * 4 % 2 ^ 32) then 0
    else argc.toNat

/-- What `_start` relies on: two words in the page, the count and a pointer to that many
addresses and a NULL, in the page as well. -/
structure EntryFrame (m : Mem) (base esp count : ℕ) : Prop where
  esp_ge : userStackVirt ≤ esp
  esp_le : esp + 8 ≤ userStackTop
  argc_eq : read32 m (stackPhys base esp) = count
  argv_eq : ∃ array, read32 m (stackPhys base (esp + 4)) = array ∧
    userStackVirt ≤ array ∧ array + 4 * (count + 1) ≤ userStackTop ∧
    (∀ i < count, read32 m (stackPhys base (array + 4 * i)) ≠ 0) ∧
    read32 m (stackPhys base (array + 4 * count)) = 0

variable {argv argc}

theorem ArgFrame.entryFrame {m : Mem} {base esp n array : ℕ} {args : ℕ → Arg} {strs : ℕ → ℕ} (hn : 1 ≤ n)
    (h : ArgFrame m base esp n args array strs) : EntryFrame m base esp n := by
  have h1 := h.header_lt
  have h2 := h.array_lt 0 hn
  have h3 := h.string_le 0 hn
  have h4 := h.esp_ge
  refine ⟨h4,by omega,h.count,array,h.table,by omega,by omega,fun i hi => ?_,h.sentinel⟩
  have h5 := h.array_lt i hi
  rw [h.pointer i hi]
  omega

theorem setupUserStackArgs_cases {m m' : Mem} {a esp : ℕ} (ha : a < totalFrames)
    (h : setupUserStackArgs m (a * pageSize) argv argc = some (esp, m')) :
    esp = userStackTop ∨
      ∃ args, argv = some args ∧ 1 ≤ argc ∧ argc ≤ 64 ∧ frameBytes args argc.toNat ≤ argvMaxTotal := by
  unfold setupUserStackArgs at h
  cases argv with
  | none =>
    simp only [Option.some.injEq, Prod.mk.injEq] at h
    exact Or.inl h.1.symm
  | some args =>
    dsimp only at h
    split at h
    · simp only [Option.some.injEq, Prod.mk.injEq] at h
      exact Or.inl h.1.symm
    split at h
    · simp only [Option.some.injEq, Prod.mk.injEq] at h
      exact Or.inl h.1.symm
    rename_i hpos hcheck
    split at h
    · cases h
    split at h
    · cases h
    rename_i h64 _ _ _ _ hcopy
    exact Or.inr ⟨args,rfl,by omega,by omega,Passes.fits (Nat.not_lt.mp hcheck) ha hcopy⟩

/-- A process can read its entry frame exactly if it was given arguments that fit. -/
theorem entryFrame_iff (m : Mem) {a : ℕ} (ha : a < totalFrames) (argv : Option (ℕ → Arg)) (argc : ℤ) :
    (∃ esp m', setupUserStackArgs m (a * pageSize) argv argc = some (esp, m') ∧
        EntryFrame m' (a * pageSize) esp (delivered argv argc)) ↔
      ∃ args, argv = some args ∧ 1 ≤ argc ∧ argc ≤ 64 ∧ frameBytes args argc.toNat ≤ argvMaxTotal := by
  constructor
  · rintro ⟨esp,m',hrun,hentry⟩
    rcases setupUserStackArgs_cases ha hrun with rfl | h
    · exact absurd hentry.esp_le (Nat.not_le.mpr (Nat.lt_add_of_pos_right (by decide)))
    · exact h
  · rintro ⟨args,rfl,hpos,h64,hfit⟩
    obtain ⟨n,rfl⟩ := Int.eq_ofNat_of_zero_le (Int.le_trans Int.one_nonneg hpos)
    have hn : 1 ≤ n := Int.ofNat_le.mp hpos
    obtain ⟨esp,m',array,strs,hrun,hframe⟩ := setupUserStackArgs_frame m a hn (Int.ofNat_le.mp h64) hfit
    have hcount : delivered (some args) n = n := if_neg (not_or.mpr ⟨by omega,Nat.not_lt.mpr (Passes.of_fits hfit)⟩)
    refine ⟨esp,m',hrun,?_⟩
    rw [hcount]
    exact hframe.entryFrame hn

theorem entryFrame_iff_one :
    ∃ esp m', setupUserStackArgs (fun _ => 0) (0x500 * pageSize) (some fun _ => ⟨[0x6C, 0x73],by decide⟩) 1 = some (esp, m') ∧
      EntryFrame m' (0x500 * pageSize) esp 1 :=
  (entryFrame_iff (fun _ => 0) (by decide) (some fun _ => ⟨[0x6C, 0x73],by decide⟩) 1).mpr
    ⟨_,rfl,by decide,by decide,by decide⟩

/-- Started without arguments, a process reads its count above its stack. -/
theorem entryFrame_missing :
    setupUserStackArgs (fun _ => 0) (0x500 * pageSize) none 0 = some (userStackTop, fun _ => 0) ∧
      ¬EntryFrame (fun _ => 0) (0x500 * pageSize) userStackTop (delivered none 0) :=
  ⟨rfl,fun h => absurd h.esp_le (by decide)⟩

/-- The values of `i` in the two loops that index `virt_addrs`. -/
def addrIndices : ℕ → List ℕ
  | 0 => []
  | n + 1 => n :: addrIndices n

theorem mem_addrIndices {n i : ℕ} : i ∈ addrIndices n ↔ i < n := by
  induction n with
  | zero => simp [addrIndices]
  | succ n ih =>
    rw [addrIndices, List.mem_cons, ih]
    omega

/-- The body of the first of these loops, with the addresses found so far. -/
def copyString (argv : ℕ → Arg) (s : Mem × ℕ × List ℕ) (i : ℕ) : Option (Mem × ℕ × List ℕ) :=
  let len := (argv i).1.length + 1
  if s.2.1 < len then none
  else some (store s.1 (s.2.1 - len) ((argv i).1 ++ [0]), s.2.1 - len, (s.2.1 - len) :: s.2.2)

theorem foldlM_copyString (argv : ℕ → Arg) (n : ℕ) (m : Mem) (cursor : ℕ) (addrs : List ℕ) :
    (addrIndices n).foldlM (copyString argv) (m, cursor, addrs) =
      (copyStrings argv m cursor n).map fun r => (r.1, r.2.1, r.2.2 ++ addrs) := by
  induction n generalizing m cursor addrs with
  | zero => rfl
  | succ n ih =>
    rw [addrIndices, List.foldlM_cons, copyString, copyStrings]
    dsimp only
    split
    · rfl
    · rw [Option.bind_eq_bind, Option.bind_some, ih]
      cases copyStrings argv (store m (cursor - ((argv n).1.length + 1)) ((argv n).1 ++ [0]))
        (cursor - ((argv n).1.length + 1)) n with
      | none => rfl
      | some r => simp

/-- `copyStrings` is the loop over these indices: it fills one entry of the array for each. -/
theorem copyStrings_eq_foldlM (argv : ℕ → Arg) (m : Mem) (cursor n : ℕ) :
    copyStrings argv m cursor n = (addrIndices n).foldlM (copyString argv) (m, cursor, []) := by
  rw [foldlM_copyString]
  cases copyStrings argv m cursor n with
  | none => rfl
  | some r => simp

/-- The size check does not bound the count: the array has an entry for each argument exactly
up to 64. -/
theorem addrIndices_lt_iff {args : ℕ → Arg} {argc : ℤ} (hpos : 1 ≤ argc) (hpass : Passes args argc.toNat) :
    ((∀ i ∈ addrIndices argc.toNat, i < 64) ↔ argc ≤ 64) ∧
      (64 < argc → ∀ m base, setupUserStackArgs m base (some args) argc = none) := by
  refine ⟨⟨fun h => ?_,fun h i hi => ?_⟩,fun h m base => ?_⟩
  · have hlast := h (argc.toNat - 1) (mem_addrIndices.mpr (by omega))
    omega
  · have hlt := mem_addrIndices.mp hi
    omega
  · rw [setupUserStackArgs, if_neg (by omega)]
    simp only [if_neg (Nat.not_lt.mpr hpass), if_pos (show 64 < argc.toNat by omega)]

theorem addrIndices_lt_three :
    Passes (fun _ => ⟨[0x61],by decide⟩) 3 ∧ ∀ i ∈ addrIndices 3, i < 64 := by
  have hpass : Passes (fun _ => ⟨[0x61],by decide⟩) 3 := by decide
  have h := addrIndices_lt_iff (show (1 : ℤ) ≤ 3 by decide) hpass
  exact ⟨hpass,h.1.mpr (by decide)⟩

/-- 65 empty arguments pass the check. -/
theorem addrIndices_out_of_bounds :
    Passes (fun _ => ⟨[],by decide⟩) 65 ∧ 64 ∈ addrIndices 65 :=
  ⟨by decide +kernel,mem_addrIndices.mpr (by decide)⟩

end

end ApPa.Exec

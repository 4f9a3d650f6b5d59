import ApPa.Fs.SimpleFs
import ApPa.Sys.LogRing

/-! # Saving the log to a file

`klog_flush_to_file` writes the entries as lines into a buffer of 4096 bytes and hands them to the filesystem.
Every piece of an entry is cut at byte 4094, so that there is room for a newline and a NUL behind it. The
buffer is the list of the bytes written to it, and `pos` its length.
-/
namespace ApPa.Sys
open Fs Klibc RingLog Varargs

def flushBufSize : ℕ := 4096

/-- `for (j = 0; s[j] && pos < FLUSH_BUF_SIZE - 2; j++) flush_buf[pos++] = s[j];` -/
def flushString (buf s : List UInt8) : List UInt8 := buf ++ (cstr s).take (flushBufSize - 2 - buf.length)

/-- `if (pos < FLUSH_BUF_SIZE - 2) flush_buf[pos++] = c;` -/
def flushChar (buf : List UInt8) (c : UInt8) : List UInt8 := if buf.length < flushBufSize - 2 then buf ++ [c] else buf

def flushEntry (buf : List UInt8) (e : KlogEntry) : List UInt8 :=
  let buf := flushString buf (levelNames e.level)
  let buf := flushChar buf ' '.toUInt8
  let buf := flushString buf (utoa e.timestamp 10)
  let buf := flushChar buf ' '.toUInt8
  let buf := flushString buf e.message
  -- the newline has a limit of its own
  if buf.length < flushBufSize - 1 then buf ++ ['\n'.toUInt8] else buf

/-- The loop with `n` entries to go from number `i` on: the buffer, and the entries visited. -/
def flushLoop (k : Klog) : ℕ → ℕ → List UInt8 → List UInt8 × List KlogEntry
  | 0, _, buf => (buf, [])
  | n + 1, i, buf =>
    if buf.length < flushBufSize - 2 then
      let e := entryAt k i
      let (buf, visited) := flushLoop k n (i + 1) (flushEntry buf e)
      (buf, e :: visited)
    else (buf, [])

def klogFlush (k : Klog) : List UInt8 × List KlogEntry := flushLoop k (klogGetStats k).2.toNat 0 []

section
variable {σ : Type} (dev : BlockDevice σ)

/-- The part of `klog_flush_to_file` behind the loop: the file is created if need be and written. -/
def saveText (filename text : List UInt8) (s : FsState σ) : ℤ × FsState σ :=
  let write (s : FsState σ) : ℤ × FsState σ :=
    let (r, s) := fsWriteFile dev filename text (UInt32.ofNat text.length) s
    if r ≠ 0 then (-1, s) else (0, s)
  match fsStat dev filename s with
  | (some _, s) => write s
  | (none, s) =>
    let (r, s) := fsCreate dev filename fsTypeFile s
    if r ≠ 0 then (-1, s) else write s

def klogFlushToFile (k : Klog) (filename : Option (List UInt8)) (s : FsState σ) : ℤ × FsState σ :=
  match filename with
  | none => (-1, s)
  | some filename =>
    let (_, size) := klogGetStats k
    if size = 0 then (0, s) else saveText dev filename (klogFlush k).1 s

end

/-! ## The text -/

/-- An entry without its newline, and with it. -/
def entryText (e : KlogEntry) : List UInt8 :=
  levelNames e.level ++ [' '.toUInt8] ++ utoa e.timestamp 10 ++ [' '.toUInt8] ++ cstr e.message

def entryLine (e : KlogEntry) : List UInt8 := entryText e ++ ['\n'.toUInt8]

def logText (es : List KlogEntry) : List UInt8 := es.flatMap entryLine

theorem flushString_take {s : List UInt8} (h0 : 0 ∉ s) (t : List UInt8) :
    flushString (t.take (flushBufSize - 2)) s = (t ++ s).take (flushBufSize - 2) := by
  rw [flushString, cstr_of_notMem h0, List.take_append, List.length_take]
  congr 2
  omega

theorem flushChar_take (t : List UInt8) (c : UInt8) :
    flushChar (t.take (flushBufSize - 2)) c = (t ++ [c]).take (flushBufSize - 2) := by
  rw [flushChar, List.take_append, List.length_take]
  split
  · rename_i h
    rw [List.take_of_length_le (l := [c]) (by rw [List.length_singleton]; omega)]
  · rename_i h
    rw [show flushBufSize - 2 - t.length = 0 by omega, List.take_zero, List.append_nil]

/-- An entry is cut at the limit and ended by a newline. -/
theorem flushEntry_eq {buf : List UInt8} (h : buf.length ≤ flushBufSize - 2) (e : KlogEntry) :
    flushEntry buf e = (buf ++ entryText e).take (flushBufSize - 2) ++ ['\n'.toUInt8] := by
  have hlevel : 0 ∉ levelNames e.level := by
    cases e.level <;> decide
  have hnumber : 0 ∉ utoa e.timestamp 10 := (utoa_text (by decide) (by decide) e.timestamp).1
  have hmessage : ∀ t, flushString t e.message = flushString t (cstr e.message) := fun t => by
    rw [flushString, flushString, cstr_of_notMem (zero_notMem_cstr e.message)]
  have htext : buf ++ levelNames e.level ++ [' '.toUInt8] ++ utoa e.timestamp 10 ++ [' '.toUInt8] ++ cstr e.message =
      buf ++ entryText e := by
    simp only [entryText, List.append_assoc]
  have hlen := List.length_take_le (flushBufSize - 2) (buf ++ entryText e)
  unfold flushEntry
  dsimp only
  rw [← List.take_of_length_le h, flushString_take hlevel, flushChar_take, flushString_take hnumber, flushChar_take, hmessage,
    flushString_take (zero_notMem_cstr e.message), htext, List.take_of_length_le h, if_pos]
  exact Nat.lt_of_le_of_lt hlen (by decide)

def flushAll : List KlogEntry → List UInt8 → List UInt8 × List KlogEntry
  | [], buf => (buf, [])
  | e :: es, buf =>
    if buf.length < flushBufSize - 2 then
      let (buf, visited) := flushAll es (flushEntry buf e)
      (buf, e :: visited)
    else (buf, [])

theorem flushLoop_eq (k : Klog) (n i : ℕ) (buf : List UInt8) :
    flushLoop k n i buf = flushAll ((List.range' i n).map (entryAt k)) buf := by
  induction n generalizing i buf with
  | zero => rfl
  | succ n ih =>
    rw [flushLoop, List.range'_succ, List.map_cons, flushAll]
    dsimp only
    rw [ih]

theorem klogFlush_eq (k : Klog) : klogFlush k = flushAll (held k) [] := by
  rw [klogFlush, flushLoop_eq, held_eq, toNat_size, List.range_eq_range']

theorem flushAll_full {buf : List UInt8} (h : flushBufSize - 2 ≤ buf.length) (es : List KlogEntry) :
    flushAll es buf = (buf, []) := by
  cases es with
  | nil => rfl
  | cons e es => rw [flushAll, if_neg (Nat.not_lt.mpr h)]

theorem flushEntry_cases {buf : List UInt8} (h : buf.length < flushBufSize - 2) (e : KlogEntry) :
    (buf.length + (entryLine e).length ≤ flushBufSize - 2 ∧ flushEntry buf e = buf ++ entryLine e) ∨
    (flushBufSize - 2 < buf.length + (entryLine e).length ∧ (flushEntry buf e).length = flushBufSize - 1 ∧
      ∀ rest, flushEntry buf e = (buf ++ (entryLine e ++ rest)).take (flushBufSize - 2) ++ ['\n'.toUInt8]) := by
  have hlen : (entryLine e).length = (entryText e).length + 1 := List.length_append
  have hsize : flushBufSize = 4096 := rfl
  rw [flushEntry_eq h.le]
  rcases Nat.lt_or_ge (flushBufSize - 2) (buf.length + (entryLine e).length) with hlong | hfits
  · refine .inr ⟨hlong,?_,fun rest => ?_⟩
    · rw [List.length_append, List.length_take, List.length_append, List.length_singleton]
      omega
    · have hcut : flushBufSize - 2 ≤ (buf ++ entryText e).length := by
        rw [List.length_append]
        omega
      rw [entryLine, List.append_assoc, ← List.append_assoc buf (entryText e), List.take_append_of_le_length hcut]
  · refine .inl ⟨hfits,?_⟩
    rw [List.take_of_length_le (by rw [List.length_append]; omega), entryLine, List.append_assoc]

theorem flushAll_cons {buf : List UInt8} (h : buf.length < flushBufSize - 2) (e : KlogEntry) (es : List KlogEntry) :
    flushAll (e :: es) buf = ((flushAll es (flushEntry buf e)).1, e :: (flushAll es (flushEntry buf e)).2) := if_pos h

theorem logText_cons (e : KlogEntry) (es : List KlogEntry) : logText (e :: es) = entryLine e ++ logText es := List.flatMap_cons

/-- The text behind `buf` reaches the limit with the end of an entry. -/
def EndsAtLimit (buf : List UInt8) (es : List KlogEntry) : Prop :=
  ∃ i ≤ es.length, (buf ++ logText (es.take i)).length = flushBufSize - 2

instance (buf : List UInt8) (es : List KlogEntry) : Decidable (EndsAtLimit buf es) :=
  inferInstanceAs (Decidable (∃ i ≤ es.length, _))

theorem endsAtLimit_cons {buf : List UInt8} (h : buf.length < flushBufSize - 2) (e : KlogEntry) (es : List KlogEntry) :
    EndsAtLimit buf (e :: es) ↔ EndsAtLimit (buf ++ entryLine e) es := by
  constructor
  · rintro ⟨i,hi,hlen⟩
    cases i with
    | zero =>
      rw [List.take_zero, show logText [] = [] from rfl, List.append_nil] at hlen
      omega
    | succ i =>
      rw [List.take_succ_cons, logText_cons, ← List.append_assoc] at hlen
      exact ⟨i,Nat.le_of_succ_le_succ hi,hlen⟩
  · rintro ⟨i,hi,hlen⟩
    refine ⟨i + 1,Nat.succ_le_succ hi,?_⟩
    rw [List.take_succ_cons, logText_cons, ← List.append_assoc]
    exact hlen

theorem not_endsAtLimit {buf : List UInt8} (h : flushBufSize - 2 < buf.length) (es : List KlogEntry) :
    ¬EndsAtLimit buf es := by
  rintro ⟨i,-,hlen⟩
  rw [List.length_append] at hlen
  omega

/-- The bytes of the text that fit, and a newline unless the last of them ends an entry. -/
theorem flushAll_text (es : List KlogEntry) {buf : List UInt8} (h : buf.length ≤ flushBufSize - 2) :
    (flushAll es buf).1 =
      if (buf ++ logText es).length ≤ flushBufSize - 2 then buf ++ logText es
      else (buf ++ logText es).take (flushBufSize - 2) ++ if EndsAtLimit buf es then [] else ['\n'.toUInt8] := by
  induction es generalizing buf with
  | nil =>
    rw [show logText [] = [] from rfl, List.append_nil, if_pos h]
    rfl
  | cons e es ih =>
    rcases Nat.lt_or_ge buf.length (flushBufSize - 2) with hlt | hge
    · simp only [flushAll_cons hlt, endsAtLimit_cons hlt, logText_cons]
      rcases flushEntry_cases hlt e with ⟨hfits,he⟩ | ⟨hlong,hlen,he⟩
      · rw [he, ih (by rw [List.length_append]; exact hfits), List.append_assoc]
      · have hover : ¬(buf ++ (entryLine e ++ logText es)).length ≤ flushBufSize - 2 := by
          rw [List.length_append, List.length_append]
          omega
        rw [flushAll_full (by omega), if_neg hover, if_neg (not_endsAtLimit (by rw [List.length_append]; exact hlong) es)]
        exact he (logText es)
    · have hbuf : buf.length = flushBufSize - 2 := Nat.le_antisymm h hge
      have hends : EndsAtLimit buf (e :: es) := ⟨0,Nat.zero_le _,(congrArg List.length (List.append_nil buf)).trans hbuf⟩
      have hover : ¬(buf ++ logText (e :: es)).length ≤ flushBufSize - 2 := by
        rw [logText_cons, entryLine, List.length_append, List.length_append, List.length_append, List.length_singleton]
        omega
      rw [flushAll_full hge, if_neg hover, if_pos hends, List.append_nil, ← hbuf, List.take_left]

theorem flushAll_visited (es : List KlogEntry) (buf : List UInt8) :
    (flushAll es buf).2 <+: es ∧ ∀ i < es.length,
      (i < (flushAll es buf).2.length ↔ (buf ++ logText (es.take i)).length < flushBufSize - 2) := by
  induction es generalizing buf with
  | nil => exact ⟨List.prefix_rfl,fun i hi => absurd hi (Nat.not_lt_zero i)⟩
  | cons e es ih =>
    rcases Nat.lt_or_ge buf.length (flushBufSize - 2) with hlt | hge
    · rw [flushAll_cons hlt]
      obtain ⟨hpre,hiff⟩ := ih (flushEntry buf e)
      refine ⟨(List.prefix_cons_inj e).mpr hpre,fun i hi => ?_⟩
      cases i with
      | zero =>
        rw [List.take_zero, show logText [] = [] from rfl, List.append_nil]
        exact iff_of_true (Nat.succ_pos _) hlt
      | succ i =>
        dsimp only
        rw [List.length_cons, Nat.succ_lt_succ_iff, List.take_succ_cons, logText_cons, ← List.append_assoc]
        rcases flushEntry_cases hlt e with ⟨-,he⟩ | ⟨hlong,hlen,-⟩
        · rw [he] at hiff ⊢
          exact hiff i (Nat.lt_of_succ_lt_succ hi)
        · rw [flushAll_full (by omega)]
          refine iff_of_false (Nat.not_lt_zero i) ?_
          rw [List.length_append, List.length_append]
          omega
    · rw [flushAll_full hge]
      refine ⟨List.nil_prefix,fun i hi => iff_of_false (Nat.not_lt_zero i) ?_⟩
      rw [List.length_append]
      omega

/-- The text stays in the buffer and ends with a newline. -/
structure Closed (buf : List UInt8) : Prop where
  length_le : buf.length ≤ flushBufSize - 1
  last : buf.getLast? = some '\n'.toUInt8

theorem closed_flushEntry {buf : List UInt8} (h : buf.length < flushBufSize - 2) (e : KlogEntry) :
    Closed (flushEntry buf e) := by
  have hlen := List.length_take_le (flushBufSize - 2) (buf ++ entryText e)
  have hsize : flushBufSize = 4096 := rfl
  rw [flushEntry_eq h.le]
  constructor
  · rw [List.length_append, List.length_singleton]
    omega
  · rw [List.getLast?_append]
    rfl

theorem Closed.flushAll {buf : List UInt8} (h : Closed buf) (es : List KlogEntry) : Closed (flushAll es buf).1 := by
  induction es generalizing buf with
  | nil => exact h
  | cons e es ih =>
    rcases Nat.lt_or_ge buf.length (flushBufSize - 2) with hlt | hge
    · rw [flushAll_cons hlt]
      exact ih (closed_flushEntry hlt e)
    · rw [flushAll_full hge]
      exact h

theorem closed_klogFlush {k : Klog} (h : held k ≠ []) : Closed (klogFlush k).1 := by
  rw [klogFlush_eq]
  cases hk : held k with
  | nil => exact absurd hk h
  | cons e es =>
    have hroom : ([] : List UInt8).length < flushBufSize - 2 := by decide
    rw [flushAll_cons hroom]
    exact (closed_flushEntry hroom e).flushAll es

/-- The indices of `flush_buf` that are written, the one of the NUL last. -/
def flushWrites (text : List UInt8) : List ℕ := List.range (text.length + 1)

theorem held_eq_nil (k : Klog) : held k = [] ↔ (klogGetStats k).2 = 0 := by
  rw [held_eq, List.map_eq_nil_iff, List.range_eq_nil, ← toNat_size, ← UInt32.toNat_inj]
  rfl

/-! ## The log after a run -/

def messageLine (msgs : List Message) (j : ℕ) : List UInt8 :=
  match msgs[j]? with
  | none => []
  | some msg => levelNames msg.level ++ [' '.toUInt8] ++ utoa (UInt32.ofNat j) 10 ++ [' '.toUInt8] ++ msg.text ++ ['\n'.toUInt8]

section
variable {k : Klog} {es : List KlogEntry} {msgs : List Message}

theorem Records.held_length (h : Records k es msgs) (hlen : msgs.length < 2 ^ 32) :
    (held k).length = min msgs.length klogBufferSize := by
  rw [held_eq, List.length_map, List.length_range, h.toNat_logCount hlen]

theorem Records.logText_take (h : Records k es msgs) (hlen : msgs.length < 2 ^ 32) {n : ℕ}
    (hn : n ≤ min msgs.length klogBufferSize) :
    logText ((held k).take n) =
      (List.range n).flatMap fun i => messageLine msgs (msgs.length - min msgs.length klogBufferSize + i) := by
  have hline : ∀ i ∈ List.range n, entryLine (Sys.entryAt k i) =
      messageLine msgs (msgs.length - min msgs.length klogBufferSize + i) := fun i hi => by
    obtain ⟨msg,hmsg,htells⟩ := h.entryAt hlen ((List.mem_range.mp hi).trans_le hn)
    rw [messageLine, hmsg, entryLine, entryText, htells.level, htells.timestamp, htells.text]
  rw [logText, held_eq, h.toNat_logCount hlen, ← List.map_take, List.take_range, Nat.min_eq_left hn, List.flatMap_map]
  exact List.flatMap_congr hline

end

/-- The call finds its arguments. -/
def LogOp.Suited : LogOp → Prop
  | .log _ format args => ∃ temp, klogLoop (format.length + 1) format args [] = .ok temp
  | .clear => True

theorem exists_run {ops : List LogOp} (h : ∀ op ∈ ops, op.Suited) (k : Klog) : ∃ k', ops.foldlM LogOp.exec k = .ok k' := by
  induction ops generalizing k with
  | nil => exact ⟨k,rfl⟩
  | cons op ops ih =>
    obtain ⟨k₁,hk₁⟩ : ∃ k₁, op.exec k = .ok k₁ := by
      cases op with
      | log level format args =>
        obtain ⟨temp,htemp⟩ := h _ List.mem_cons_self
        obtain ⟨screen,hklog⟩ := klog_eq k level htemp
        rw [LogOp.exec, hklog]
        exact ⟨_,rfl⟩
      | clear =>
        obtain ⟨screen,hclear⟩ := klogClear_eq k
        rw [LogOp.exec, hclear]
        exact ⟨_,rfl⟩
    obtain ⟨k',hk'⟩ := ih (fun op hop => h op (List.mem_cons_of_mem _ hop)) k₁
    exact ⟨k',by rw [List.foldlM_cons, hk₁]; exact hk'⟩

/-- A message of 127 bytes with a newline in it. -/
def wideMessage : List UInt8 := List.replicate 61 'a'.toUInt8 ++ '\n'.toUInt8 :: List.replicate 65 'a'.toUInt8
def wideOp : LogOp := .log .debug (wideMessage ++ [0]) []

theorem klogLoop_wide : klogLoop ((wideMessage ++ [0]).length + 1) (wideMessage ++ [0]) [] [] = .ok wideMessage := by
  decide +kernel

theorem messages_wide (n : ℕ) : messages (List.replicate n wideOp) = List.replicate n ⟨.debug,wideMessage⟩ := by
  have htext : messageText (wideMessage ++ [0]) [] = wideMessage := by
    rw [messageText, klogLoop_wide]
    decide +kernel
  induction n with
  | zero => rfl
  | succ n ih =>
    rw [List.replicate_succ', messages, List.foldl_append, ← messages, ih, List.replicate_succ', ← htext]
    rfl

theorem wide_suited (n : ℕ) : ∀ op ∈ List.replicate n wideOp, op.Suited := fun op hop => by
  rw [List.eq_of_mem_replicate hop]
  exact ⟨wideMessage,klogLoop_wide⟩

theorem exists_wide (n : ℕ) (hn : n < 256) : ∃ k, (List.replicate n wideOp).foldlM LogOp.exec klogInit = .ok k ∧
    (held k).length = n ∧ ∀ i ≤ n, logText ((held k).take i) =
      (List.range i).flatMap (messageLine (List.replicate n ⟨.debug,wideMessage⟩)) := by
  obtain ⟨k,hk⟩ := exists_run (wide_suited n) klogInit
  obtain ⟨es,h⟩ : ∃ es, Records k es (messages (List.replicate n wideOp)) := records_nil.run hk
  rw [messages_wide] at h
  have hlen : (List.replicate n (⟨.debug,wideMessage⟩ : Message)).length = n := List.length_replicate
  have hmin : min n klogBufferSize = n := Nat.min_eq_left hn.le
  refine ⟨k,hk,?_,fun i hi => ?_⟩
  · rw [h.held_length (by rw [hlen]; omega), hlen, hmin]
  · rw [h.logText_take (by rw [hlen]; omega) (by rw [hlen, hmin]; exact hi), hlen, hmin, Nat.sub_self]
    simp only [Nat.zero_add]

/-- What is handed to `fs_write_file` for any contents of the log: the text `T` of the entries if it has at most 4094
bytes, and otherwise its first 4094 bytes, followed by a newline unless the last of them is the one that ends an
entry. An empty log is not written. -/
theorem klogFlushToFile_text (k : Klog) :
    (klogFlush k).1 = (if (logText (held k)).length ≤ 4094 then logText (held k)
      else (logText (held k)).take 4094 ++ if EndsAtLimit [] (held k) then [] else ['\n'.toUInt8]) ∧
    (held k = [] ∨ (klogFlush k).1.getLast? = some '\n'.toUInt8) ∧
    (∀ i ∈ flushWrites (klogFlush k).1, i < flushBufSize) ∧
    ∀ (σ : Type) (dev : BlockDevice σ) (filename : List UInt8) (s : FsState σ),
      klogFlushToFile dev k (some filename) s = if held k = [] then (0, s) else saveText dev filename (klogFlush k).1 s := by
  have htext := flushAll_text (held k) (show ([] : List UInt8).length ≤ flushBufSize - 2 from Nat.zero_le _)
  simp only [List.nil_append, ← klogFlush_eq] at htext
  refine ⟨htext,?_,fun i hi => ?_,fun σ dev filename s => ?_⟩
  · rcases eq_or_ne (held k) [] with h | h
    · exact .inl h
    · exact .inr (closed_klogFlush h).last
  · have hi' := List.mem_range.mp hi
    rcases eq_or_ne (held k) [] with h | h
    · rw [klogFlush_eq, h] at hi'
      exact Nat.lt_of_lt_of_le hi' (by decide)
    · have hlen := (closed_klogFlush h).length_le
      have hsize : flushBufSize = 4096 := rfl
      omega
  · simp only [held_eq_nil]
    rfl

/-- The 4094th byte of this text is a newline inside a message, and another one is put behind it. -/
theorem klogFlush_doubles_newline : ∃ k, (List.replicate 30 wideOp).foldlM LogOp.exec klogInit = .ok k ∧
    4094 < (logText (held k)).length ∧ ((logText (held k)).take 4094).getLast? = some '\n'.toUInt8 ∧
    (klogFlush k).1 = (logText (held k)).take 4094 ++ ['\n'.toUInt8] := by
  obtain ⟨k,hk,hheld,htext⟩ := exists_wide 30 (by decide)
  have hall : logText (held k) = (List.range 30).flatMap (messageLine (List.replicate 30 ⟨.debug,wideMessage⟩)) := by
    rw [← htext 30 le_rfl, List.take_of_length_le hheld.le]
  have hlong : 4094 < (logText (held k)).length := by
    rw [hall]
    decide +kernel
  have hends : ¬EndsAtLimit [] (held k) := by
    rintro ⟨i,hi,hlen⟩
    rw [hheld] at hi
    rw [List.nil_append, htext i hi] at hlen
    -- The entries before the last one end at byte 4021, the last one at byte 4160.
    rcases Nat.lt_or_ge i 30 with hlt | hge
    · have hbefore := ((List.range_sublist.mpr (Nat.le_of_lt_succ hlt)).flatMap
        (messageLine (List.replicate 30 ⟨.debug,wideMessage⟩))).length_le
      rw [hlen] at hbefore
      exact absurd hbefore (by decide +kernel)
    · rw [le_antisymm hi hge, ← hall] at hlen
      exact hlong.ne' hlen
  have hfull := flushAll_text (held k) (show ([] : List UInt8).length ≤ flushBufSize - 2 from Nat.zero_le _)
  rw [List.nil_append, show flushBufSize - 2 = 4094 from rfl, if_neg hlong.not_ge, if_neg hends, ← klogFlush_eq] at hfull
  refine ⟨k,hk,hlong,?_,hfull⟩
  rw [hall]
  decide +kernel

/-- The ring keeps the newest messages in order, with their levels, texts and numbers. `klog_dump` prints all that it
holds, and `klog_flush_to_file` goes through them in the same order as long as its buffer has room. -/
theorem ring_keeps_newest {ops : List LogOp} {k : Klog} (hrun : ops.foldlM LogOp.exec klogInit = .ok k)
    (hlen : (messages ops).length < 2 ^ 32) :
    (∀ i : UInt32, (klogGetEntry k i).isSome ↔ i.toNat < min (messages ops).length 256) ∧
    (∀ i e, klogGetEntry k i = some e → ∃ msg,
      (messages ops)[(messages ops).length - min (messages ops).length 256 + i.toNat]? = some msg ∧
        e.level = msg.level ∧ cstr e.message = msg.text ∧
        e.timestamp.toNat = (messages ops).length - min (messages ops).length 256 + i.toNat) ∧
    klogDump k = .ok (dumpHeader (klogGetStats k).1 (klogGetStats k).2 ++ (held k).flatMap dumpLine ++
      ascii "\n=== End of Log ===\n") ∧
    (klogFlush k).2 <+: held k ∧
    ∀ i < (held k).length, (i < (klogFlush k).2.length ↔ (logText ((held k).take i)).length < 4094) := by
  obtain ⟨es,h⟩ : ∃ es, Records k es (messages ops) := records_nil.run hrun
  have hsize : klogBufferSize = 256 := rfl
  obtain ⟨hpre,hvisited⟩ := flushAll_visited (held k) []
  rw [← klogFlush_eq] at hpre hvisited
  refine ⟨fun i => ?_,fun i e he => ?_,klogDump_eq k,hpre,hvisited⟩
  · rw [klogGetEntry_eq, h.toNat_logCount hlen]
    split
    · rename_i hi
      exact iff_of_true rfl hi
    · rename_i hi
      exact iff_of_false Bool.false_ne_true hi
  · rw [klogGetEntry_eq, h.toNat_logCount hlen] at he
    split at he
    · rename_i hi
      cases he
      obtain ⟨msg,hmsg,htells⟩ := h.entryAt hlen hi
      refine ⟨msg,hmsg,htells.level,htells.text,?_⟩
      rw [htells.timestamp, hsize]
      exact UInt32.toNat_ofNat_of_lt' (by rw [hsize] at hi; show _ < 2 ^ 32; omega)
    · cases he

/-- Of 300 messages the ring holds the last 256; the oldest of them has number 44. -/
theorem ring_keeps_newest_full : ∃ k e, (List.replicate 300 wideOp).foldlM LogOp.exec klogInit = .ok k ∧
    klogGetEntry k 0 = some e ∧ cstr e.message = wideMessage ∧ e.timestamp.toNat = 44 ∧
    (klogGetEntry k 255).isSome ∧ ¬(klogGetEntry k 256).isSome := by
  have hlen : (messages (List.replicate 300 wideOp)).length = 300 := by rw [messages_wide, List.length_replicate]
  obtain ⟨k,hk⟩ := exists_run (wide_suited 300) klogInit
  obtain ⟨hheld,hentry,-⟩ := ring_keeps_newest hk (by rw [hlen]; decide)
  rw [hlen] at hheld hentry
  obtain ⟨e,he⟩ := Option.isSome_iff_exists.mp ((hheld 0).mpr (by decide))
  obtain ⟨msg,hmsg,-,htext,hstamp⟩ := hentry 0 e he
  rw [messages_wide] at hmsg
  have hwide : msg.text = wideMessage := by rw [List.eq_of_mem_replicate (List.mem_of_getElem? hmsg)]
  exact ⟨k,e,hk,he,htext.trans hwide,hstamp,(hheld 255).mpr (by decide),(hheld 256).not.mpr (by decide)⟩

/-- Of 31 entries only 30 are visited by the flush. -/
theorem klogFlush_stops_early : ∃ k, (List.replicate 31 wideOp).foldlM LogOp.exec klogInit = .ok k ∧
    (held k).length = 31 ∧ (klogFlush k).2.length < 31 := by
  obtain ⟨k,hk,hheld,htext⟩ := exists_wide 31 (by decide)
  obtain ⟨-,hvisited⟩ := flushAll_visited (held k) []
  refine ⟨k,hk,hheld,?_⟩
  have hthirty := (hvisited 30 (by rw [hheld]; decide)).not.mpr
  rw [← klogFlush_eq, List.nil_append, htext 30 (by decide)] at hthirty
  have hlong : ¬((List.range 30).flatMap (messageLine (List.replicate 31 ⟨.debug,wideMessage⟩))).length < flushBufSize - 2 := by
    decide +kernel
  have := hthirty hlong
  omega

end ApPa.Sys

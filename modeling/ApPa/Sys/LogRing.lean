import ApPa.Lib.RingLog
import ApPa.Sys.Formatters

/-! # The ring of log entries

The position of the next entry, the number of entries written and the place of the oldest one are kept
or computed apart from each other. After any calls of `klog` and `klog_clear` the readers find the
newest entries in the order in which they were written.
-/
namespace ApPa.Sys
open Klibc RingLog Varargs

/-- The total, and the number of entries in the buffer. -/
def klogGetStats (k : Klog) : UInt32 × UInt32 :=
  (k.logCount,if k.logCount < UInt32.ofNat klogBufferSize then k.logCount else UInt32.ofNat klogBufferSize)

/-- `start_pos`, which each reader computes. -/
def startPos (k : Klog) : ℕ := if k.logCount ≤ UInt32.ofNat klogBufferSize then 0 else k.logHead

/-- `log_buffer[(start_pos + i) % KLOG_BUFFER_SIZE]`. -/
def entryAt (k : Klog) (i : ℕ) : KlogEntry := k.logBuffer ((startPos k + i) % klogBufferSize)

def klogGetEntry (k : Klog) (index : UInt32) : Option KlogEntry :=
  let size := if k.logCount < UInt32.ofNat klogBufferSize then k.logCount else UInt32.ofNat klogBufferSize
  if size ≤ index then none else some (entryAt k index.toNat)

def klogClear (_ : Klog) : Except Fault (Klog × List UInt8) := do
  let screen ← kprintf (ascii "[INFO]  Log buffer cleared\n" ++ [0]) []
  return (⟨fun _ => blankEntry,0,0,0⟩,screen)

def levelString (level : KlogLevel) : Str := ⟨levelNames level ++ [0],by cases level <;> decide⟩
def messageString (e : KlogEntry) : Str := ⟨e.message,by rw [e.message_length]; decide⟩

def dumpEntry (e : KlogEntry) : Except Fault (List UInt8) :=
  kprintf (ascii "[%u] %s %s\n" ++ [0])
    [.word e.timestamp, .str (some (levelString e.level)), .str (some (messageString e))]

def klogDump (k : Klog) : Except Fault (List UInt8) := do
  let title ← kprintf (ascii "\n=== Kernel Log Dump ===\n" ++ [0]) []
  let (total, size) := klogGetStats k
  let totalLine ← kprintf (ascii "Total messages logged: %u\n" ++ [0]) [.word total]
  let sizeLine ← kprintf (ascii "Messages in buffer: %u\n" ++ [0]) [.word size]
  let blank ← kprintf (ascii "\n" ++ [0]) []
  let entries ← (List.range size.toNat).foldlM (fun screen i => do
    let line ← dumpEntry (entryAt k i)
    return screen ++ line) []
  let footer ← kprintf (ascii "\n=== End of Log ===\n" ++ [0]) []
  return title ++ totalLine ++ sizeLine ++ blank ++ entries ++ footer

/-! ## Runs -/

inductive LogOp where
  | log (level : KlogLevel) (format : List UInt8) (args : List VaArg)
  | clear

def LogOp.exec (k : Klog) : LogOp → Except Fault Klog
  | .log level format args => (klog k level format args).map Prod.fst
  | .clear => (klogClear k).map Prod.fst

structure Message where
  level : KlogLevel
  text : List UInt8

/-- What a call of `klog` has to say: its text up to a NUL, as far as it fits. -/
def messageText (format : List UInt8) (args : List VaArg) : List UInt8 :=
  match klogLoop (format.length + 1) format args [] with
  | .ok temp => (cstr temp).take (klogMsgMaxLen - 1)
  | .error _ => []

def LogOp.record (msgs : List Message) : LogOp → List Message
  | .log level format args => msgs ++ [⟨level,messageText format args⟩]
  | .clear => []

def messages (ops : List LogOp) : List Message := ops.foldl LogOp.record []

/-- Entry number `j` of a log is that of its message. -/
structure KlogEntry.Tells (e : KlogEntry) (j : ℕ) (msg : Message) : Prop where
  level : e.level = msg.level
  text : cstr e.message = msg.text
  timestamp : e.timestamp = UInt32.ofNat j

/-- The ring after the entries of `log` have been written to it for the messages `msgs`. -/
structure Records (k : Klog) (log : List KlogEntry) (msgs : List Message) : Prop where
  length : log.length = msgs.length
  logHead : k.logHead = log.length % klogBufferSize
  logCount : k.logCount = UInt32.ofNat log.length
  currentTimestamp : k.currentTimestamp = UInt32.ofNat log.length
  keeps : Keeps klogBufferSize k.logBuffer log
  tells : ∀ (j : ℕ) (e : KlogEntry) (msg : Message), log[j]? = some e → msgs[j]? = some msg → e.Tells j msg

theorem records_nil : Records ⟨fun _ => blankEntry,0,0,0⟩ [] [] where
  length := rfl
  logHead := rfl
  logCount := rfl
  currentTimestamp := rfl
  keeps := keeps_nil _ _
  tells _ _ _ h := nomatch h

theorem klog_eq (k : Klog) (level : KlogLevel) {format temp : List UInt8} {args : List VaArg}
    (h : klogLoop (format.length + 1) format args [] = .ok temp) : ∃ screen, klog k level format args =
      .ok (⟨Function.update k.logBuffer k.logHead ⟨level,storeMessage (k.logBuffer k.logHead).message temp,
        k.currentTimestamp,storeMessage_length (k.logBuffer k.logHead).message_length temp⟩,
        (k.logHead + 1) % klogBufferSize,k.logCount + 1,k.currentTimestamp + 1⟩,screen) := by
  rw [klog, h]
  exact ⟨_,rfl⟩

section
variable {k k' : Klog} {es : List KlogEntry} {msgs : List Message}

/-- One entry more, in the cell of the oldest one once the ring is full. -/
theorem Records.exec_log (h : Records k es msgs) {level : KlogLevel} {format : List UInt8} {args : List VaArg}
    (hexec : LogOp.exec k (.log level format args) = .ok k') :
    ∃ e, Records k' (es ++ [e]) (msgs ++ [⟨level,messageText format args⟩]) := by
  cases htemp : klogLoop (format.length + 1) format args [] with
  | error e =>
    rw [LogOp.exec, klog, htemp] at hexec
    cases hexec
  | ok temp =>
    obtain ⟨screen,hklog⟩ := klog_eq k level htemp
    rw [LogOp.exec, hklog] at hexec
    cases hexec
    let e : KlogEntry := ⟨level,storeMessage (k.logBuffer k.logHead).message temp,k.currentTimestamp,
      storeMessage_length (k.logBuffer k.logHead).message_length temp⟩
    have hnew : e.Tells es.length ⟨level,messageText format args⟩ := by
      refine ⟨rfl,?_,h.currentTimestamp⟩
      rw [messageText, htemp]
      exact cstr_storeMessage (k.logBuffer k.logHead).message_length temp
    have hsucc : ∀ c : UInt32, c = UInt32.ofNat es.length → c + 1 = UInt32.ofNat (es ++ [e]).length := fun c hc => by
      rw [hc, List.length_append, UInt32.ofNat_add]
      rfl
    have hpush := h.keeps.push e
    rw [← h.logHead] at hpush
    refine ⟨e,?_,?_,hsucc _ h.logCount,hsucc _ h.currentTimestamp,hpush,fun j e' msg he hmsg => ?_⟩
    · rw [List.length_append, List.length_append, h.length]
      rfl
    · rw [List.length_append, h.logHead, Nat.mod_add_mod]
      rfl
    · rcases Nat.lt_trichotomy j es.length with hlt | rfl | hgt
      · rw [List.getElem?_append_left hlt] at he
        rw [List.getElem?_append_left (h.length ▸ hlt)] at hmsg
        exact h.tells j e' msg he hmsg
      · rw [List.getElem?_concat_length] at he
        rw [h.length, List.getElem?_concat_length] at hmsg
        cases he
        cases hmsg
        exact hnew
      · rw [List.getElem?_eq_none (by rw [List.length_append]; exact hgt)] at he
        cases he

theorem klogClear_eq (k : Klog) : ∃ screen, klogClear k = .ok (⟨fun _ => blankEntry,0,0,0⟩,screen) := by
  rw [klogClear, kprintf_lits (by decide +kernel)]
  exact ⟨_,rfl⟩

theorem Records.exec (h : Records k es msgs) {op : LogOp} (hexec : op.exec k = .ok k') :
    ∃ es', Records k' es' (op.record msgs) := by
  cases op with
  | log level format args =>
    obtain ⟨e,he⟩ := h.exec_log hexec
    exact ⟨_,he⟩
  | clear =>
    obtain ⟨screen,hclear⟩ := klogClear_eq k
    rw [LogOp.exec, hclear] at hexec
    cases hexec
    exact ⟨[],records_nil⟩

/-- After any run the ring holds the newest entries of the log since it was last cleared. -/
theorem Records.run (h : Records k es msgs) {ops : List LogOp} (hrun : ops.foldlM LogOp.exec k = .ok k') :
    ∃ es', Records k' es' (ops.foldl LogOp.record msgs) := by
  induction ops generalizing k es msgs with
  | nil =>
    cases hrun
    exact ⟨es,h⟩
  | cons op ops ih =>
    rw [List.foldlM_cons] at hrun
    cases hop : op.exec k with
    | error e =>
      rw [hop] at hrun
      cases hrun
    | ok k₁ =>
      rw [hop] at hrun
      obtain ⟨es₁,h₁⟩ := h.exec hop
      exact ih h₁ hrun

end

/-! ## The readers -/

/-- The entries that `klog_get_entry` returns, from index 0 on. -/
def held (k : Klog) : List KlogEntry :=
  (List.range klogBufferSize).filterMap fun i => klogGetEntry k (UInt32.ofNat i)

theorem toNat_size (k : Klog) : (klogGetStats k).2.toNat = min k.logCount.toNat klogBufferSize := by
  have hsize : (UInt32.ofNat klogBufferSize).toNat = klogBufferSize := rfl
  unfold klogGetStats
  dsimp only
  split
  · rename_i h
    rw [UInt32.lt_iff_toNat_lt, hsize] at h
    omega
  · rename_i h
    rw [UInt32.lt_iff_toNat_lt, hsize] at h
    omega

theorem klogGetEntry_eq (k : Klog) (i : UInt32) :
    klogGetEntry k i = if i.toNat < min k.logCount.toNat klogBufferSize then some (entryAt k i.toNat) else none := by
  have hget : klogGetEntry k i = if (klogGetStats k).2 ≤ i then none else some (entryAt k i.toNat) := rfl
  rw [hget, ← toNat_size]
  by_cases h : (klogGetStats k).2 ≤ i
  · rw [if_pos h, if_neg (Nat.not_lt.mpr (UInt32.le_iff_toNat_le.mp h))]
  · rw [if_neg h, if_pos (Nat.lt_of_not_le fun hle => h (UInt32.le_iff_toNat_le.mpr hle))]

theorem held_eq (k : Klog) : held k = (List.range (min k.logCount.toNat klogBufferSize)).map (entryAt k) := by
  have hmin : min k.logCount.toNat klogBufferSize ≤ klogBufferSize := Nat.min_le_right ..
  generalize hn : min k.logCount.toNat klogBufferSize = n at hmin
  have hget : ∀ i < klogBufferSize, klogGetEntry k (UInt32.ofNat i) = if i < n then some (entryAt k i) else none := by
    intro i hi
    have hi' : (UInt32.ofNat i).toNat = i := UInt32.toNat_ofNat_of_lt' (hi.trans (by decide))
    rw [klogGetEntry_eq, hn, hi']
  obtain ⟨r,hr⟩ := Nat.exists_eq_add_of_le hmin
  have hfront : (List.range n).filterMap (fun i => klogGetEntry k (UInt32.ofNat i)) = (List.range n).map (entryAt k) := by
    rw [← List.filterMap_eq_map]
    refine List.filterMap_congr fun i hi => ?_
    rw [hget i ((List.mem_range.mp hi).trans_le hmin), if_pos (List.mem_range.mp hi)]
    rfl
  have hback : ((List.range r).map (n + ·)).filterMap (fun i => klogGetEntry k (UInt32.ofNat i)) = [] := by
    refine List.filterMap_eq_nil_iff.mpr fun i hi => ?_
    obtain ⟨j,hj,rfl⟩ := List.mem_map.mp hi
    have := List.mem_range.mp hj
    rw [hget _ (by omega), if_neg (by omega)]
  rw [held, hr, List.range_add, List.filterMap_append, hfront, hback, List.append_nil]

def dumpLine (e : KlogEntry) : List UInt8 :=
  ascii "[" ++ utoa e.timestamp 10 ++ ascii "] " ++ levelNames e.level ++ ascii " " ++ cstr e.message ++ ascii "\n"

theorem dumpEntry_eq (e : KlogEntry) : dumpEntry e = .ok (dumpLine e) := by
  have hnumber : cstr (utoa e.timestamp 10) = utoa e.timestamp 10 :=
    cstr_of_notMem (utoa_text (by decide) (by decide) e.timestamp).1
  have hlevel : cstr (levelNames e.level ++ [0]) = levelNames e.level := by
    cases e.level <;> rfl
  have hrun : dumpEntry e = .ok ([] ++ ascii "[" ++ cstr (utoa e.timestamp 10) ++ ascii "]" ++ ascii " " ++
      cstr (levelNames e.level ++ [0]) ++ ascii " " ++ cstr e.message ++ ascii "\n") := rfl
  rw [hrun, hnumber, hlevel]
  simp only [dumpLine, List.append_assoc, List.nil_append]
  rfl

def dumpHeader (total size : UInt32) : List UInt8 :=
  ascii "\n=== Kernel Log Dump ===\n" ++ (ascii "Total messages logged: " ++ (utoa total 10 ++ ascii "\n")) ++
    (ascii "Messages in buffer: " ++ (utoa size 10 ++ ascii "\n")) ++ ascii "\n"

theorem foldlM_dump (k : Klog) (l : List ℕ) (screen : List UInt8) :
    l.foldlM (fun screen i => do
      let line ← dumpEntry (entryAt k i)
      return screen ++ line) screen = .ok (screen ++ (l.map (entryAt k)).flatMap dumpLine) := by
  induction l generalizing screen with
  | nil => exact congrArg Except.ok (List.append_nil screen).symm
  | cons i l ih =>
    rw [List.foldlM_cons, dumpEntry_eq]
    refine (ih (screen ++ dumpLine (entryAt k i))).trans ?_
    rw [List.map_cons, List.flatMap_cons, List.append_assoc]

theorem kprintf_count {format s t : List UInt8} (hformat : format ++ [0] = s ++ '%'.toUInt8 :: 'u'.toUInt8 :: (t ++ [0]))
    (hs : ∀ c ∈ s, c ≠ 0 ∧ c ≠ '%'.toUInt8) (ht : ∀ c ∈ t, c ≠ 0 ∧ c ≠ '%'.toUInt8) (v : UInt32) :
    kprintf (format ++ [0]) [.word v] = .ok (s ++ (utoa v 10 ++ t)) :=
  hformat ▸ kprintf_unsigned hs ht v

/-- `klog_dump` prints the entries that `klog_get_entry` returns, in that order. -/
theorem klogDump_eq (k : Klog) : klogDump k = .ok (dumpHeader (klogGetStats k).1 (klogGetStats k).2 ++
    (held k).flatMap dumpLine ++ ascii "\n=== End of Log ===\n") := by
  have htotal := kprintf_count (show ascii "Total messages logged: %u\n" ++ [0] =
    ascii "Total messages logged: " ++ '%'.toUInt8 :: 'u'.toUInt8 :: (ascii "\n" ++ [0]) by decide +kernel)
    (by decide +kernel) (by decide +kernel)
  have hsize := kprintf_count (show ascii "Messages in buffer: %u\n" ++ [0] =
    ascii "Messages in buffer: " ++ '%'.toUInt8 :: 'u'.toUInt8 :: (ascii "\n" ++ [0]) by decide +kernel)
    (by decide +kernel) (by decide +kernel)
  have hentries := foldlM_dump k (List.range (klogGetStats k).2.toNat) []
  rw [List.nil_append, toNat_size, ← held_eq] at hentries
  rw [klogDump, kprintf_lits (s := ascii "\n=== Kernel Log Dump ===\n") (by decide +kernel)]
  simp only [bind, Except.bind, htotal, hsize, kprintf_lits (s := ascii "\n") (by decide +kernel),
    kprintf_lits (s := ascii "\n=== End of Log ===\n") (by decide +kernel), toNat_size]
  simp only [bind, Except.bind] at hentries
  rw [hentries]
  rfl

section
variable {k : Klog} {es : List KlogEntry} {msgs : List Message}

theorem Records.toNat_logCount (h : Records k es msgs) (hlen : msgs.length < 2 ^ 32) :
    k.logCount.toNat = msgs.length := by
  rw [h.logCount, h.length, UInt32.toNat_ofNat_of_lt' hlen]

theorem Records.startPos_eq (h : Records k es msgs) (hlen : msgs.length < 2 ^ 32) :
    startPos k = oldest klogBufferSize es.length := by
  have hiff : k.logCount ≤ UInt32.ofNat klogBufferSize ↔ es.length ≤ klogBufferSize := by
    rw [UInt32.le_iff_toNat_le, h.toNat_logCount hlen, h.length]
    rfl
  rw [startPos, oldest, h.logHead]
  simp only [hiff]

theorem Records.entryAt (h : Records k es msgs) (hlen : msgs.length < 2 ^ 32) {i : ℕ}
    (hi : i < min msgs.length klogBufferSize) :
    ∃ msg, msgs[msgs.length - min msgs.length klogBufferSize + i]? = some msg ∧
      (entryAt k i).Tells (msgs.length - min msgs.length klogBufferSize + i) msg := by
  have hread := h.keeps.read (h.length.symm ▸ hi)
  rw [← h.startPos_eq hlen] at hread
  have hj : es.length - min es.length klogBufferSize + i < es.length := by
    rw [h.length]
    omega
  rw [← h.length]
  refine ⟨_,List.getElem?_eq_getElem (h.length ▸ hj),h.tells _ _ _ ?_ (List.getElem?_eq_getElem (h.length ▸ hj))⟩
  rw [Sys.entryAt, hread]
  exact List.getElem?_eq_getElem hj

end

end ApPa.Sys

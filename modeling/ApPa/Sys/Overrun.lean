import ApPa.Sys.LogText

/-! # The message buffer of the log

The loop of `klog` tests its position once for each character of the format. Every directive it knows
stops at the end of the buffer by itself; one it does not know puts out two characters. At position 126
the second of these is the last byte of the buffer, and the final NUL falls behind it.
-/
namespace ApPa.Sys
open Klibc Varargs

/-- An unknown directive stands where `n` characters in front of the format and the text of the format up to
it make 126. -/
def Overshoots (n : ℕ) (ps : List LogPiece) (args : List VaArg) : Prop :=
  ∃ front c back, ps = front ++ .dir c :: back ∧ ¬Known c ∧ ∃ r, expand front args = .ok r ∧ n + r.1.length = 126

/-! ## The position in the buffer -/

section
variable {n : ℕ} {ps : List LogPiece} {args args' : List VaArg} {c : UInt8} {text temp out : List UInt8}

theorem not_overshoots_nil : ¬Overshoots n [] args := by
  rintro ⟨front,c,back,h,-⟩
  cases front <;> cases h

theorem not_overshoots_of_lt (hn : 126 < n) : ¬Overshoots n ps args := by
  rintro ⟨-,-,-,-,-,r,-,hlen⟩
  omega

theorem overshoots_lit : Overshoots n (.lit c :: ps) args ↔ Overshoots (n + 1) ps args := by
  constructor
  · rintro ⟨front,d,back,h,hd,r,hr,hlen⟩
    cases front with
    | nil => cases h
    | cons p front =>
      obtain ⟨rfl,rfl⟩ := List.cons.inj h
      obtain ⟨q,hq,rfl⟩ := expand_lit.mp hr
      exact ⟨front,d,back,rfl,hd,q,hq,by rw [List.length_cons] at hlen; omega⟩
  · rintro ⟨front,d,back,rfl,hd,r,hr,hlen⟩
    exact ⟨.lit c :: front,d,back,rfl,hd,(c :: r.1,r.2),expand_lit.mpr ⟨r,hr,rfl⟩,by rw [List.length_cons]; omega⟩

theorem overshoots_dir (ht : meaning c args = .ok (text,args')) :
    Overshoots n (.dir c :: ps) args ↔ (¬Known c ∧ n = 126) ∨ Overshoots (n + text.length) ps args' := by
  constructor
  · rintro ⟨front,d,back,h,hd,r,hr,hlen⟩
    cases front with
    | nil =>
      cases h
      cases hr
      exact .inl ⟨hd,hlen⟩
    | cons p front =>
      obtain ⟨rfl,rfl⟩ := List.cons.inj h
      obtain ⟨t,q,ht',hq,rfl⟩ := expand_dir.mp hr
      obtain rfl := Except.ok.inj (ht.symm.trans ht')
      refine .inr ⟨front,d,back,rfl,hd,q,hq,?_⟩
      rwa [List.length_append, ← Nat.add_assoc] at hlen
  · rintro (⟨hc,hn⟩ | ⟨front,d,back,rfl,hd,r,hr,hlen⟩)
    · exact ⟨[],c,ps,rfl,hc,([],args),rfl,hn⟩
    · exact ⟨.dir c :: front,d,back,rfl,hd,(text ++ r.1,r.2),expand_dir.mpr ⟨_,r,ht,hr,rfl⟩,
        by rw [List.length_append]; omega⟩

/-- A run from a position in the buffer ends in the buffer unless an unknown directive overshoots. -/
theorem runPieces_iff (hroom : temp.length ≤ klogMsgMaxLen - 1) (h : runPieces ps args temp = .ok out) :
    out.length ≤ klogMsgMaxLen - 1 ↔ ¬Overshoots temp.length ps args := by
  have hmax : klogMsgMaxLen - 1 = 127 := rfl
  induction ps generalizing args temp with
  | nil =>
    cases h
    exact iff_of_true hroom not_overshoots_nil
  | cons p ps ih =>
    by_cases hfull : klogMsgMaxLen - 1 ≤ temp.length
    · rw [runPieces_full hfull] at h
      cases h
      exact iff_of_true hroom (not_overshoots_of_lt (by omega))
    cases p with
    | lit c =>
      rw [runPieces, if_neg hfull] at h
      have hlen : (temp ++ [c]).length = temp.length + 1 := by rw [List.length_append, List.length_singleton]
      rw [overshoots_lit, ← hlen]
      exact ih (by omega) h
    | dir c =>
      rw [runPieces, if_neg hfull] at h
      by_cases hc : Known c
      · simp only [klogConv_known (Nat.lt_of_not_le hfull) hc args, bind, Except.bind] at h
        cases ht : meaning c args with
        | error e =>
          rw [ht] at h
          cases h
        | ok t =>
          rw [ht] at h
          simp only [Except.map] at h
          have hlen : (temp ++ t.1.take (klogMsgMaxLen - 1 - temp.length)).length =
              min 127 (temp.length + t.1.length) := by
            rw [List.length_append, List.length_take]
            omega
          refine (ih (by omega) h).trans ?_
          rw [overshoots_dir ht, hlen]
          by_cases hcut : temp.length + t.1.length ≤ 127
          · rw [Nat.min_eq_right hcut]
            exact not_congr (or_iff_right fun hn => hn.1 hc).symm
          · exact iff_of_true (not_overshoots_of_lt (by omega))
              (not_or.mpr ⟨fun hn => hn.1 hc,not_overshoots_of_lt (by omega)⟩)
      · obtain ⟨ht,hconv⟩ := klogConv_unknown hc args temp
        simp only [hconv, bind, Except.bind] at h
        have hlen : (temp ++ ['%'.toUInt8, c]).length = temp.length + 2 := List.length_append
        rw [overshoots_dir ht]
        by_cases hat : temp.length = 126
        · rw [runPieces_full (by omega)] at h
          cases h
          exact iff_of_false (by omega) (not_not.mpr (.inl ⟨hc,hat⟩))
        · refine (ih (by omega) h).trans ?_
          rw [hlen]
          exact not_congr (or_iff_right fun hn => hat hn.2).symm

theorem runPieces_ok {r : List UInt8 × List VaArg} (h : expand ps args = .ok r) (temp : List UInt8) :
    ∃ out, runPieces ps args temp = .ok out := by
  induction ps generalizing args temp r with
  | nil => exact ⟨temp,rfl⟩
  | cons p ps ih =>
    by_cases hfull : klogMsgMaxLen - 1 ≤ temp.length
    · exact ⟨temp,runPieces_full hfull _ _⟩
    cases p with
    | lit c =>
      rw [runPieces, if_neg hfull]
      obtain ⟨q,hq,-⟩ := expand_lit.mp h
      exact ih hq _
    | dir c =>
      rw [runPieces, if_neg hfull]
      obtain ⟨t,q,ht,hq,-⟩ := expand_dir.mp h
      by_cases hc : Known c
      · rw [klogConv_known (Nat.lt_of_not_le hfull) hc, ht]
        exact ih hq _
      · obtain ⟨ht',hconv⟩ := klogConv_unknown hc args temp
        obtain rfl := Except.ok.inj (ht.symm.trans ht')
        rw [hconv]
        exact ih hq _

end

/-- The indices of `temp_buffer` that are written: one for each character, and one for the NUL. -/
def tempWrites (temp : List UInt8) : List ℕ := List.range (temp.length + 1)

theorem tempWrites_lt_iff (temp : List UInt8) :
    (∀ i ∈ tempWrites temp, i < klogMsgMaxLen) ↔ temp.length ≤ klogMsgMaxLen - 1 := by
  have hmax : klogMsgMaxLen = 128 := rfl
  constructor
  · intro h
    have := h temp.length (List.mem_range.mpr (Nat.lt_succ_self _))
    omega
  · intro h i hi
    have := List.mem_range.mp hi
    omega

theorem storeMessage_last {message : List UInt8} (h : message.length = klogMsgMaxLen) (temp : List UInt8) :
    (storeMessage message temp)[klogMsgMaxLen - 1]? = some 0 := by
  have hlen := storeMessage_length h temp
  rw [storeMessage, List.length_set] at hlen
  exact List.getElem?_set_self (by rw [hlen]; decide)

/-- For every format: with arguments that suit it the loop ends. Whenever it does, its writes lie in the buffer
exactly when no unknown directive meets position 126, and the message is stored with a NUL in its last byte. -/
theorem klog_overruns_iff {s : List UInt8} (h0 : 0 ∉ s) (rest : List UInt8) (args : List VaArg) (k : Klog)
    (level : KlogLevel) :
    (∀ r, expand (logPieces s) args = .ok r →
      ∃ temp, klogLoop ((s ++ 0 :: rest).length + 1) (s ++ 0 :: rest) args [] = .ok temp) ∧
    ∀ temp, klogLoop ((s ++ 0 :: rest).length + 1) (s ++ 0 :: rest) args [] = .ok temp →
      ((∀ i ∈ tempWrites temp, i < klogMsgMaxLen) ↔ ¬Overshoots 0 (logPieces s) args) ∧
      ∃ k' screen, klog k level (s ++ 0 :: rest) args = .ok (k',screen) ∧
        (k'.logBuffer k.logHead).message[klogMsgMaxLen - 1]? = some 0 := by
  have hfuel : s.length < (s ++ 0 :: rest).length + 1 := by
    rw [List.length_append]
    omega
  have hloop := klogLoop_eq h0 rest args [] hfuel
  constructor
  · intro r hr
    rw [hloop]
    exact runPieces_ok hr []
  · intro temp htemp
    refine ⟨?_,_,_,by rw [klog, htemp]; rfl,?_⟩
    · rw [tempWrites_lt_iff]
      rw [hloop] at htemp
      exact runPieces_iff (Nat.zero_le _) htemp
    · dsimp only
      rw [Function.update_self]
      exact storeMessage_last (k.logBuffer k.logHead).message_length temp

/-- A short message with a directive that is known and one that is not. -/
theorem klog_overruns_iff_pid : klogLoop 12 (ascii "pid %d: %q" ++ [0]) [.word 7] [] = .ok (ascii "pid 7: %q") ∧
    ¬Overshoots 0 (logPieces (ascii "pid %d: %q")) [.word 7] := by
  have htemp : klogLoop 12 (ascii "pid %d: %q" ++ [0]) [.word 7] [] = .ok (ascii "pid 7: %q") := by rfl
  obtain ⟨-,hwrites⟩ := klog_overruns_iff (s := ascii "pid %d: %q") (by decide +kernel) [] [.word 7] klogInit .info
  exact ⟨htemp,(hwrites (ascii "pid 7: %q") htemp).1.mp (by decide +kernel)⟩

/-- 126 characters and `%q`. -/
def longFormat : List UInt8 := List.replicate 126 'a'.toUInt8 ++ ['%'.toUInt8, 'q'.toUInt8]

/-- The NUL is written to byte 128 of a buffer of 128. -/
theorem klog_overruns : ∃ temp, klogLoop ((longFormat ++ [0]).length + 1) (longFormat ++ [0]) [] [] = .ok temp ∧
    128 ∈ tempWrites temp ∧ klogMsgMaxLen = 128 := by
  refine ⟨longFormat,by decide +kernel,?_,rfl⟩
  rw [tempWrites, longFormat, List.length_append, List.length_replicate]
  decide +kernel

end ApPa.Sys

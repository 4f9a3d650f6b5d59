import ApPa.Klibc.Stdio

/-! # The kernel log

`klog` formats a message into a buffer of `KLOG_MSG_MAX_LEN` bytes on its stack and stores it
in the next entry of a ring. The buffer is the list of the characters written to it, so that
`pos` is its length: a list of more than `KLOG_MSG_MAX_LEN - 1` characters has overrun it.
-/
namespace ApPa.Sys
open Klibc Varargs

def klogBufferSize : ℕ := 256
def klogMsgMaxLen : ℕ := 128

inductive KlogLevel
  | debug
  | info
  | warn
  | error
  deriving DecidableEq

def levelNames : KlogLevel → List UInt8
  | .debug => ascii "[DEBUG]"
  | .info => ascii "[INFO] "
  | .warn => ascii "[WARN] "
  | .error => ascii "[ERROR]"

structure KlogEntry where
  level : KlogLevel
  message : List UInt8
  timestamp : UInt32
  message_length : message.length = klogMsgMaxLen

/-- `log_buffer`, `log_head`, `log_count` and `current_timestamp`. -/
structure Klog where
  logBuffer : ℕ → KlogEntry
  logHead : ℕ
  logCount : UInt32
  currentTimestamp : UInt32

def blankEntry : KlogEntry := ⟨.debug,List.replicate klogMsgMaxLen 0,0,List.length_replicate⟩

def klogInit : Klog := ⟨fun _ => blankEntry,0,0,0⟩

/-- `for (j = 0; s[j] != '\0' && pos < KLOG_MSG_MAX_LEN - 1; j++) temp_buffer[pos++] = s[j];` -/
def copyBounded (temp s : List UInt8) : List UInt8 := temp ++ (cstr s).take (klogMsgMaxLen - 1 - temp.length)

/-- `switch (format[i])`: the buffer and the arguments behind it. -/
def klogConv (c : UInt8) (args : List VaArg) (temp : List UInt8) : Except Fault (List UInt8 × List VaArg) :=
  if c = 'd'.toUInt8 ∨ c = 'i'.toUInt8 then do
    let val ← vaWord args
    return (copyBounded temp (itoa val.1 10),val.2)
  else if c = 'u'.toUInt8 then do
    let val ← vaWord args
    return (copyBounded temp (utoa val.1 10),val.2)
  else if c = 'x'.toUInt8 then do
    let val ← vaWord args
    return (copyBounded temp (utoa val.1 16),val.2)
  else if c = 's'.toUInt8 then do
    let str ← vaStr args
    return (str.1.elim temp fun s => copyBounded temp s.bytes,str.2)
  else if c = 'c'.toUInt8 then do
    let val ← vaWord args
    return (temp ++ [UInt8.ofNat val.1.toNat],val.2)
  else if c = '%'.toUInt8 then return (temp ++ ['%'.toUInt8],args)
  else return (temp ++ ['%'.toUInt8, c],args)

/-- The loop over the format; it also ends when the buffer is full. -/
def klogLoop : ℕ → List UInt8 → List VaArg → List UInt8 → Except Fault (List UInt8)
  | 0, _, _, _ => .error .overread
  | fuel + 1, format, args, temp => do
    let c ← next format
    if c.1 = 0 ∨ klogMsgMaxLen - 1 ≤ temp.length then return temp
    else if c.1 ≠ '%'.toUInt8 then klogLoop fuel c.2 args (temp ++ [c.1])
    else
      let d ← next c.2
      if d.1 = 0 then klogLoop fuel c.2 args (temp ++ [c.1])
      else
        let r ← klogConv d.1 args temp
        klogLoop fuel d.2 r.2 r.1

/-- `strncpy(entry->message, temp_buffer, KLOG_MSG_MAX_LEN - 1)`, and the NUL behind it. -/
def storeMessage (message temp : List UInt8) : List UInt8 :=
  (strncpy message (temp ++ [0]) (klogMsgMaxLen - 1)).set (klogMsgMaxLen - 1) 0

theorem storeMessage_length {message : List UInt8} (h : message.length = klogMsgMaxLen) (temp : List UInt8) :
    (storeMessage message temp).length = klogMsgMaxLen := by
  rw [storeMessage, List.length_set, strncpy, List.length_append, strncpyBytes_length, List.length_drop, h]
  rfl

/-- The log behind a call, and what the call prints. -/
def klog (k : Klog) (level : KlogLevel) (format : List UInt8) (args : List VaArg) : Except Fault (Klog × List UInt8) := do
  let temp ← klogLoop (format.length + 1) format args []
  let entry : KlogEntry := ⟨level,storeMessage (k.logBuffer k.logHead).message temp,k.currentTimestamp,
    storeMessage_length (k.logBuffer k.logHead).message_length temp⟩
  let screen := kprintText (kprintText (kprintText (kprintText [] (levelNames level)) [' '.toUInt8]) entry.message) ['\n'.toUInt8]
  return (⟨Function.update k.logBuffer k.logHead entry,(k.logHead + 1) % klogBufferSize,k.logCount + 1,
    k.currentTimestamp + 1⟩,screen)

end ApPa.Sys

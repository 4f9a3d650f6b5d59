import Mathlib.Data.UInt

/-! # Formats and their arguments

What a function with a format string reads: the bytes of the format one by one, and the
arguments by their types. Both reads may fault.
-/
namespace ApPa.Varargs

/-- The bytes at a `char *`, fewer than an `int` can count. -/
structure Str where
  bytes : List UInt8
  length_lt : bytes.length < 2 ^ 31

inductive VaArg
  | word (v : UInt32)
  | str (s : Option Str)

inductive Fault
  /-- A byte of the format behind its memory was read. -/
  | overread
  /-- The next argument is missing or of another type. -/
  | argument
  deriving DecidableEq

/-- `va_arg(args, int)`, and the same for the other types of one word. -/
def vaWord : List VaArg → Except Fault (UInt32 × List VaArg)
  | .word v :: args => .ok (v,args)
  | _ => .error .argument

/-- `va_arg(args, const char *)`; NULL is `none`. -/
def vaStr : List VaArg → Except Fault (Option Str × List VaArg)
  | .str s :: args => .ok (s,args)
  | _ => .error .argument

/-- `fmt[i]`, and the format behind it. -/
def next : List UInt8 → Except Fault (UInt8 × List UInt8)
  | [] => .error .overread
  | c :: fmt => .ok (c,fmt)

end ApPa.Varargs

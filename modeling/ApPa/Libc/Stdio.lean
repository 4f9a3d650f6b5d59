import ApPa.Klibc.CString
import ApPa.Klibc.Number
import ApPa.Lib.Varargs

/-! # Formatted output of the user C library

`vsnprintf` and the functions built on it. The memory behind `fmt` is a list of bytes, the
format string up to its NUL and whatever follows it, and a read behind the end of the list
is a fault. Values of type `int` are kept in the range of 32 bits.
-/
namespace ApPa.Libc
open Klibc Varargs

/-- The `int` that a computation with the exact result `x` leaves. -/
def int (x : ℤ) : ℤ := Int.bmod x (2 ^ 32)

section Parse
variable {σ : Type}

/-- `while (p(fmt[i])) { s = f(s, fmt[i]); i++; }`. -/
def scanWhile (p : UInt8 → Bool) (f : σ → UInt8 → σ) : List UInt8 → σ → Except Fault (σ × List UInt8)
  | [], _ => .error .overread
  | c :: fmt, s => if p c then scanWhile p f fmt (f s c) else .ok (s,c :: fmt)

def isFlag (c : UInt8) : Bool := c = '-'.toUInt8 ∨ c = '0'.toUInt8
def isDigit (c : UInt8) : Bool := '0'.toUInt8 ≤ c ∧ c ≤ '9'.toUInt8

/-- `flag_left` and `flag_zero`. -/
def scanFlags (fmt : List UInt8) : Except Fault ((Bool × Bool) × List UInt8) :=
  scanWhile isFlag (fun f c => (f.1 || c = '-'.toUInt8,f.2 || c = '0'.toUInt8)) fmt (false,false)

def scanNumber (fmt : List UInt8) : Except Fault (ℤ × List UInt8) :=
  scanWhile isDigit (fun n c => int (n * 10 + (c.toNat - '0'.toNat))) fmt 0

/-- `has_prec` and `prec`. -/
def scanPrec (fmt : List UInt8) : Except Fault (Option ℤ × List UInt8) := do
  let n ← next fmt
  if n.1 = '.'.toUInt8 then
    let p ← scanNumber n.2
    return (some p.1,p.2)
  else return (none,fmt)

/-- The length modifier; `long` is an `int` here. -/
def scanLength (fmt : List UInt8) : Except Fault (List UInt8) := do
  let n ← next fmt
  if n.1 = 'l'.toUInt8 then return n.2 else return fmt

/-- What stands between the '%' and the conversion character. -/
structure Spec where
  flagLeft : Bool
  flagZero : Bool
  width : ℤ
  prec : Option ℤ
  deriving DecidableEq

def parseSpec (fmt : List UInt8) : Except Fault (Spec × List UInt8) := do
  let flags ← scanFlags fmt
  let width ← scanNumber flags.2
  let prec ← scanPrec width.2
  let rest ← scanLength prec.2
  -- left-justify overrides zero-pad
  return (⟨flags.1.1,flags.1.2 && !flags.1.1,width.1,prec.1⟩,rest)

end Parse

/-- `conv`, `conv_len`, `is_negative` and `is_number`. -/
structure Conversion where
  conv : List UInt8
  convLen : ℤ
  isNegative : Bool
  isNumber : Bool

/-- What a directive puts out: a converted argument in its field, or characters as they are. -/
inductive Emit
  | field (v : Conversion)
  | plain (text : List UInt8)

def numberConv (tmp : List UInt8) (isNegative : Bool) : Conversion := ⟨tmp,int (strlen tmp),isNegative,true⟩

def nullText : List UInt8 := ascii "(null)"

def stringConv (sp : Spec) (s : Option Str) : Conversion :=
  let conv := s.elim nullText Str.bytes
  let convLen := int (strlen conv)
  -- precision truncates strings
  let convLen := sp.prec.elim convLen fun prec => if prec < convLen then prec else convLen
  ⟨conv,convLen,false,false⟩

/-- `switch (fmt[i])`. -/
def convert (sp : Spec) (c : UInt8) (args : List VaArg) : Except Fault (Emit × List VaArg) :=
  if c = 'd'.toUInt8 ∨ c = 'i'.toUInt8 then do
    let val ← vaWord args
    return (.field (numberConv (utoa (if negative val.1 then -val.1 else val.1) 10) (negative val.1)),val.2)
  else if c = 'u'.toUInt8 then do
    let val ← vaWord args
    return (.field (numberConv (utoa val.1 10) false),val.2)
  else if c = 'x'.toUInt8 then do
    let val ← vaWord args
    return (.field (numberConv (utoa val.1 16) false),val.2)
  else if c = 'X'.toUInt8 then do
    let val ← vaWord args
    return (.field (numberConv ((utoa val.1 16).map upper) false),val.2)
  else if c = 'o'.toUInt8 then do
    let val ← vaWord args
    return (.field (numberConv (utoa val.1 8) false),val.2)
  else if c = 'c'.toUInt8 then do
    let val ← vaWord args
    return (.field ⟨[UInt8.ofNat val.1.toNat],1,false,false⟩,val.2)
  else if c = 's'.toUInt8 then do
    let s ← vaStr args
    return (.field (stringConv sp s.1),s.2)
  else if c = 'p'.toUInt8 then do
    let ptr ← vaWord args
    let tmp := ascii "0x" ++ utoa ptr.1 16
    return (.field ⟨tmp,int (strlen tmp),false,false⟩,ptr.2)
  else if c = '%'.toUInt8 then return (.plain ['%'.toUInt8],args)
  else return (.plain ['%'.toUInt8,c],args)

/-- A directive behind its '%': what it puts out, the format and the arguments behind it. -/
def directive (fmt : List UInt8) (args : List VaArg) : Except Fault ((Spec × Emit) × List UInt8 × List VaArg) := do
  let sp ← parseSpec fmt
  let c ← next sp.2
  let e ← convert sp.1 c.1 args
  return ((sp.1,e.1),c.2,e.2)

/-- The precision of a number is longer than the number. -/
def extended (sp : Spec) (v : Conversion) : Bool := v.isNumber && sp.prec.any fun prec => v.convLen < prec

def zeroPrefix (sp : Spec) (v : Conversion) : ℤ := if extended sp v then int (sp.prec.getD 0 - v.convLen) else 0
def fieldLen (sp : Spec) (v : Conversion) : ℤ := int (v.convLen + zeroPrefix sp v + if v.isNegative then 1 else 0)
def pad (sp : Spec) (v : Conversion) : ℤ := if sp.width > fieldLen sp v then int (sp.width - fieldLen sp v) else 0

section Emission
variable {σ : Type} (put : σ → UInt8 → σ)

/-- `for (int p = 0; p < n; p++) out_char(..., c);` -/
def putN (n : ℤ) (c : UInt8) (s : σ) : σ := (List.replicate n.toNat c).foldl put s

def emitField (sp : Spec) (v : Conversion) (s : σ) : σ :=
  -- precision overrides the zero-pad flag for numbers
  let flagZero := sp.flagZero && !extended sp v
  let s := if !sp.flagLeft && !flagZero then putN put (pad sp v) ' '.toUInt8 s else s
  let s := if v.isNegative then put s '-'.toUInt8 else s
  let s := if flagZero then putN put (pad sp v) '0'.toUInt8 s else s
  let s := putN put (zeroPrefix sp v) '0'.toUInt8 s
  let s := (v.conv.take v.convLen.toNat).foldl put s
  if sp.flagLeft then putN put (pad sp v) ' '.toUInt8 s else s

def emit (sp : Spec) : Emit → σ → σ
  | .field v, s => emitField put sp v s
  | .plain text, s => text.foldl put s

/-- The loop over the format. A directive that ends in the NUL takes it for an unknown
conversion character, and the loop goes on behind it. -/
def formatLoop : ℕ → List UInt8 → List VaArg → σ → Except Fault σ
  | 0, _, _, _ => .error .overread
  | fuel + 1, fmt, args, s => do
    let c ← next fmt
    if c.1 = 0 then return s
    else if c.1 ≠ '%'.toUInt8 then formatLoop fuel c.2 args (put s c.1)
    else
      let d ← next c.2
      if d.1 = 0 then return s
      else
        let e ← directive c.2 args
        formatLoop fuel e.2.1 e.2.2 (emit put e.1.1 e.1.2 s)

end Emission

/-- The position, the destination buffer, and the indices written so far. -/
structure Out where
  pos : UInt32
  buf : ℕ → UInt8
  writes : List ℕ

def Out.write (o : Out) (i : UInt32) (c : UInt8) : Out :=
  { o with buf := Function.update o.buf i.toNat c, writes := o.writes ++ [i.toNat] }

def outChar (size : UInt32) (o : Out) (c : UInt8) : Out :=
  let o := if o.pos < size - 1 then o.write o.pos c else o
  { o with pos := o.pos + 1 }

def terminate (size : UInt32) (o : Out) : Out :=
  if size > 0 then o.write (if o.pos < size then o.pos else size - 1) 0 else o

/-- The return value, and the buffer it leaves. -/
def vsnprintf (buf : ℕ → UInt8) (size : UInt32) (fmt : List UInt8) (args : List VaArg) : Except Fault (ℤ × Out) := do
  let o ← formatLoop (outChar size) (fmt.length + 1) fmt args ⟨0,buf,[]⟩
  return (int o.pos.toNat,terminate size o)

def snprintf (buf : ℕ → UInt8) (size : UInt32) (fmt : List UInt8) (args : List VaArg) : Except Fault (ℤ × Out) :=
  vsnprintf buf size fmt args

def vsprintf (buf : ℕ → UInt8) (fmt : List UInt8) (args : List VaArg) : Except Fault (ℤ × Out) :=
  vsnprintf buf (-1) fmt args

def sprintf (buf : ℕ → UInt8) (fmt : List UInt8) (args : List VaArg) : Except Fault (ℤ × Out) :=
  vsprintf buf fmt args

/-- The complete output, whatever the buffer has room for. -/
def output (fmt : List UInt8) (args : List VaArg) : Except Fault (List UInt8) :=
  formatLoop (fun out c => out ++ [c]) (fmt.length + 1) fmt args []

end ApPa.Libc

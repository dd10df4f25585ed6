import SctOs.Pages

/-!
# Formatted output

`generic_printf` of `lib/generic_printf.c`. A format is the bytes before its NUL, and positions in it
are offsets. The arguments are the 8-byte slots that `va_arg` takes one after the other; a 32-bit
argument is the low half of its slot, and the high half may hold anything. The local buffers are
lists of bytes, written from the end. Beside it, the directives as `printf` has them.
-/

namespace SctOs

namespace Printf

abbrev Byte := BitVec 8

/-- A character's code. -/
def ch (c : Char) : Byte := BitVec.ofNat 8 c.toNat

def chars (s : String) : List Byte := s.toList.map ch

/-- The types that `generic_printf` asks `va_arg` for. -/
inductive VaType
  | int
  | long
  | longLong
  | unsigned
  | unsignedLong
  | unsignedLongLong
  | charPtr
  | sizeT
  deriving DecidableEq, Repr

/-- What is passed to `write`: a range of the format, or other bytes. -/
inductive Chunk
  | format (first size : ℕ)
  | bytes (bytes : List Byte)
  deriving DecidableEq, Repr

/-- What `generic_printf` does, in order. -/
inductive Event
  | write (chunk : Chunk)
  | vaArg (type : VaType)
  deriving DecidableEq, Repr

/-- What goes wrong in C. -/
inductive Fault
  /-- A digit is stored before the start of its buffer. -/
  | beforeBuffer
  /-- There is no argument left. -/
  | noArgument
  deriving DecidableEq, Repr

/-- The contents of memory that is not the program's own: strings by address, and what is in a new
buffer. -/
structure Env where
  string : U64 → List Byte
  junk : ℕ → Byte

/-! ## Numbers -/

def digits : List Byte := chars "fedcba9876543210123456789abcdef"

/-- `GET_DIGIT`, with C's remainder. -/
def getDigit (n base : ℤ) : Byte := digits[(n.tmod base + 15).toNat]!

/-- The loop that stores digits downwards from `stack`. -/
def putDigits (base : ℤ) : ℕ → ℤ → List Byte → Except Fault (ℕ × List Byte)
  | 0, _, _ => .error .beforeBuffer
  | stack + 1, n, mem =>
    let mem := mem.set stack (getDigit n base)
    if n.tdiv base ≠ 0 then putDigits base stack (n.tdiv base) mem else .ok (stack, mem)

/-- The bytes before the NUL. -/
def cString (mem : List Byte) : List Byte := mem.takeWhile (· ≠ 0)

/-- `char mem[size]` with a NUL in its last byte. -/
def newBuffer (env : Env) (size : ℕ) : List Byte :=
  ((List.range size).map env.junk).set (size - 1) 0

def putInt (env : Env) (n : ℤ) : Except Fault Chunk := do
  let mem := newBuffer env 21
  let (stack, mem) ← putDigits 10 (mem.length - 1) n mem
  if n < 0 then
    match stack with
    | 0 => throw .beforeBuffer
    | stack + 1 => return .bytes (cString ((mem.set stack (ch '-')).drop stack))
  else return .bytes (cString (mem.drop stack))

def putUnsigned (env : Env) (n : ℤ) : Except Fault Chunk := do
  let mem := newBuffer env 21
  let (stack, mem) ← putDigits 10 (mem.length - 1) n mem
  return .bytes (cString (mem.drop stack))

/-- `put_hex` and `put_ul_hex`, which differ in the initial contents of the buffer. -/
def putHexIn (mem : List Byte) (n : ℤ) : Except Fault Chunk := do
  let (_, mem) ← putDigits 16 (mem.length - 1) n mem
  return .bytes (cString mem)

def putHex : ℤ → Except Fault Chunk := putHexIn (chars "0x00000000" ++ [0])

def putUlHex : ℤ → Except Fault Chunk := putHexIn (chars "0x0000000000000000" ++ [0])

def putc (c : Byte) : Chunk := .bytes [c]

def puts (env : Env) (s : U64) : Chunk := .bytes (if s = 0 then chars "NULL" else env.string s)

/-! ## The scanner -/

structure State where
  first : ℕ
  last : ℕ
  formatMode : Bool
  nLong : ℕ
  args : List U64
  out : List Event

/-- Take an argument and write what is made of it. -/
def State.convert (s : State) (type : VaType) (put : U64 → Except Fault Chunk) :
    Except Fault State :=
  match s.args with
  | [] => .error .noArgument
  | arg :: args => do
    let chunk ← put arg
    return { s with args := args, out := s.out ++ [.vaArg type, .write chunk] }

def State.reset (s : State) : State := { s with formatMode := false, nLong := 0 }

/-- The value of the low half of a slot, and that of the whole slot, as an `int` and so on. -/
def int (arg : U64) : ℤ := (arg.setWidth 32).toInt

def unsigned (arg : U64) : ℤ := (arg.setWidth 32).toNat

/-- A character of a directive. -/
def State.directive (env : Env) (s : State) (c : Byte) : Except Fault State := do
  let s := { s with first := s.last + 1 }
  if c = ch 'l' then return { s with nLong := s.nLong + 1 }
  else if c = ch 'd' then
    let s ← match s.nLong with
      | 0 => s.convert .int fun arg => putInt env (int arg)
      | 1 => s.convert .long fun arg => putInt env arg.toInt
      | _ => s.convert .longLong fun arg => putInt env arg.toInt
    return s.reset
  else if c = ch 'u' then
    let s ← match s.nLong with
      | 0 => s.convert .unsigned fun arg => putUnsigned env (unsigned arg)
      | 1 => s.convert .unsignedLong fun arg => putUnsigned env arg.toNat
      | _ => s.convert .unsignedLongLong fun arg => putUnsigned env arg.toNat
    return s.reset
  else if c = ch 's' then return (← s.convert .charPtr fun arg => .ok (puts env arg)).reset
  else if c = ch 'c' then return (← s.convert .int fun arg => .ok (putc (arg.setWidth 8))).reset
  else if c = ch 'x' then return (← s.convert .unsigned fun arg => putHex (unsigned arg)).reset
  else if c = ch 'p' then return (← s.convert .sizeT fun arg => putUlHex arg.toNat).reset
  else return s

/-- Write the pending part of the format. -/
def State.flush (s : State) : State :=
  { s with out := s.out ++ [.write (.format s.first (s.last - s.first))] }

/-- One iteration of the loop over the format, before `++last`. -/
def State.step (env : Env) (s : State) (c : Byte) : Except Fault State :=
  if c = ch '%' then
    let s := if s.formatMode then { s with first := s.last } else s.flush
    .ok { s with formatMode := !s.formatMode }
  else if ¬ s.formatMode then .ok s
  else s.directive env c

def State.next (env : Env) (s : State) (c : Byte) : Except Fault State := do
  let s ← s.step env c
  return { s with last := s.last + 1 }

def genericPrintf (env : Env) (format : List Byte) (args : List U64) :
    Except Fault (List Event) := do
  let s ← format.foldlM (State.next env) ⟨0, 0, false, 0, args, []⟩
  return s.flush.out

/-! ## What should be written -/

/-- The bytes of an event. -/
def Event.text (format : List Byte) : Event → List Byte
  | .write (.format first size) => (format.drop first).take size
  | .write (.bytes bytes) => bytes
  | .vaArg _ => []

/-- A number's digits, without leading zeros. -/
def rendered (base n : ℕ) : List Byte := (Nat.toDigits base n).map ch

/-- Exactly `k` hexadecimal digits. -/
def padded (k n : ℕ) : List Byte :=
  List.replicate (k - (rendered 16 n).length) (ch '0') ++ rendered 16 n

def decimal (n : ℤ) : List Byte := (if n < 0 then [ch '-'] else []) ++ rendered 10 n.natAbs

/-- The directives that take an argument, with the number of `l` modifiers. -/
inductive Directive
  | d (longs : Fin 3)
  | u (longs : Fin 3)
  | s
  | c
  | x
  | p
  deriving DecidableEq

/-- Formats are sequences of ordinary characters and directives. -/
inductive Piece
  | char (c : Byte)
  | percent
  | conv (d : Directive)
  deriving DecidableEq

def Directive.bytes : Directive → List Byte
  | .d longs => List.replicate longs (ch 'l') ++ [ch 'd']
  | .u longs => List.replicate longs (ch 'l') ++ [ch 'u']
  | .s => [ch 's']
  | .c => [ch 'c']
  | .x => [ch 'x']
  | .p => [ch 'p']

def Piece.bytes : Piece → List Byte
  | .char c => [c]
  | .percent => [ch '%', ch '%']
  | .conv d => ch '%' :: d.bytes

def Piece.Ordinary : Piece → Prop
  | .char c => c ≠ ch '%' ∧ c ≠ 0
  | _ => True

/-- The type of its argument for `generic_printf`. -/
def Directive.fetched : Directive → VaType
  | .d 0 => .int
  | .d 1 => .long
  | .d 2 => .longLong
  | .u 0 => .unsigned
  | .u 1 => .unsignedLong
  | .u 2 => .unsignedLongLong
  | .s => .charPtr
  | .c => .int
  | .x => .unsigned
  | .p => .sizeT

/-- The text of an argument. -/
def Directive.render (env : Env) (arg : U64) : Directive → List Byte
  | .d longs => decimal (if longs = 0 then (arg.setWidth 32).toInt else arg.toInt)
  | .u longs => rendered 10 (if longs = 0 then (arg.setWidth 32).toNat else arg.toNat)
  | .s => if arg = 0 then chars "NULL" else env.string arg
  | .c => [arg.setWidth 8]
  | .x => chars "0x" ++ padded 8 (arg.setWidth 32).toNat
  | .p => chars "0x" ++ padded 16 arg.toNat

/-- The text of a format and its arguments. -/
def reference (env : Env) : List Piece → List U64 → List Byte
  | [], _ => []
  | .char c :: pieces, args => c :: reference env pieces args
  | .percent :: pieces, args => ch '%' :: reference env pieces args
  | .conv _ :: _, [] => []
  | .conv d :: pieces, arg :: args => d.render env arg ++ reference env pieces args

/-- The directives that take an argument. -/
def conversions (pieces : List Piece) : ℕ :=
  pieces.countP fun
    | .conv _ => true
    | _ => false

/-! ## Parts of a format -/

/-- Where a format is; `pending` is whether there is text in front. -/
inductive Place
  | text (pending : Bool)
  | percent (pending : Bool)
  | directive
  deriving DecidableEq, Repr

/-- The letters that end a directive. -/
def conversionLetters : List Byte := chars "duscxp"

def Place.next (place : Place) (c : Byte) : Place :=
  match place with
  | .text pending => if c = ch '%' then .percent pending else .text true
  | .percent _ | .directive =>
    if c = ch '%' then .text true
    else if c ∈ conversionLetters then .text false
    else .directive

/-- Where a format ends. -/
def place (format : List Byte) : Place := format.foldl Place.next (.text false)

/-- A range of the format that is written. -/
def Event.range? : Event → Option (ℕ × ℕ)
  | .write (.format first size) => some (first, size)
  | _ => none

def ranges (events : List Event) : List (ℕ × ℕ) := events.filterMap Event.range?

/-- The ranges of the format are one after the other. -/
def Successive (format : List Byte) (events : List Event) : Prop :=
  (ranges events).Pairwise (fun a b => a.1 + a.2 ≤ b.1) ∧
    ∀ a ∈ ranges events, a.1 + a.2 ≤ format.length

/-! ## Directives of `printf` -/

/-- The directives, with the number of `l` modifiers. -/
inductive PrintfDirective
  | d (longs : Fin 3)
  | u (longs : Fin 3)
  | x (longs : Fin 3)
  | s
  | c
  | p
  deriving DecidableEq, Repr

inductive PrintfPiece
  | char (c : Byte)
  | percent
  | conv (d : PrintfDirective)
  deriving DecidableEq, Repr

def PrintfDirective.bytes : PrintfDirective → List Byte
  | .d longs => List.replicate longs (ch 'l') ++ [ch 'd']
  | .u longs => List.replicate longs (ch 'l') ++ [ch 'u']
  | .x longs => List.replicate longs (ch 'l') ++ [ch 'x']
  | .s => [ch 's']
  | .c => [ch 'c']
  | .p => [ch 'p']

def PrintfPiece.bytes : PrintfPiece → List Byte
  | .char c => [c]
  | .percent => [ch '%', ch '%']
  | .conv d => ch '%' :: d.bytes

def PrintfPiece.Ordinary : PrintfPiece → Prop
  | .char c => c ≠ ch '%' ∧ c ≠ 0
  | _ => True

def conversionsOf (pieces : List PrintfPiece) : List PrintfDirective :=
  pieces.filterMap fun
    | .conv d => some d
    | _ => none

/-- The type that `printf` prescribes for the argument. -/
def PrintfDirective.type : PrintfDirective → VaType
  | .d 0 => .int
  | .d 1 => .long
  | .d 2 => .longLong
  | .u 0 => .unsigned
  | .u 1 => .unsignedLong
  | .u 2 => .unsignedLongLong
  | .x 0 => .unsigned
  | .x 1 => .unsignedLong
  | .x 2 => .unsignedLongLong
  | .s => .charPtr
  | .c => .int
  | .p => .sizeT

/-- The value of an unsigned argument. -/
def unsignedValue (longs : Fin 3) (arg : U64) : ℕ :=
  if longs = 0 then (arg.setWidth 32).toNat else arg.toNat

/-- The text of an integer is its full value. -/
def PrintfDirective.Full (arg : U64) (text : List Byte) : PrintfDirective → Prop
  | .d longs => text = decimal (if longs = 0 then (arg.setWidth 32).toInt else arg.toInt)
  | .u longs => text = rendered 10 (unsignedValue longs arg)
  | .x longs => ∃ k, text = chars "0x" ++ padded k (unsignedValue longs arg)
  | _ => True

def Event.type? : Event → Option VaType
  | .vaArg type => some type
  | _ => none

def Event.text? : Event → Option (List Byte)
  | .write (.bytes bytes) => some bytes
  | _ => none

/-- The arguments are fetched as `printf` prescribes, and the integers are written. -/
def LikePrintf (pieces : List PrintfPiece) (args : List U64) (events : List Event) : Prop :=
  events.filterMap Event.type? = (conversionsOf pieces).map PrintfDirective.type ∧
    List.Forall₂ (fun (d, arg) text => PrintfDirective.Full arg text d)
      ((conversionsOf pieces).zip args) (events.filterMap Event.text?)

/-! ## A format with each kind of piece -/

def emptyStrings : Env := ⟨fun _ => [], fun _ => 0⟩

/-- `"a%%%d%lld%s%x"`. -/
def smallPieces : List Piece :=
  [.char (ch 'a'), .percent, .conv (.d 0), .conv (.d 2), .conv .s, .conv .x]

/-- The least `int`, the least `long long`, NULL, and an `unsigned`; the slots of the `int` and of the
`unsigned` have something in their high halves. -/
def smallArgs : List U64 := [0x7fffffff80000000, 0x8000000000000000, 0, 0xffffffff0000beef]

end Printf

end SctOs

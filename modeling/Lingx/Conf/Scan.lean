import Lingx.Bytes
import Mathlib.Data.UInt

/-! The state machine of `read_token_`. Its state is the local variables of the function
with the arguments read so far and the line of the configuration file; a turn is one
iteration of the loop, for the byte at one place of the memory that the buffer is in. -/

namespace Lingx.Conf

abbrev lf : Byte := 0x0a
abbrev tab : Byte := 0x09
abbrev cr : Byte := 0x0d
abbrev space : Byte := 0x20
abbrev dquote : Byte := 0x22
abbrev sharp : Byte := 0x23
abbrev dollar : Byte := 0x24
abbrev squote : Byte := 0x27
abbrev rparen : Byte := 0x29
abbrev semicolon : Byte := 0x3b
abbrev backslash : Byte := 0x5c
abbrev letterN : Byte := 0x6e
abbrev letterR : Byte := 0x72
abbrev letterT : Byte := 0x74
abbrev lbrace : Byte := 0x7b
abbrev rbrace : Byte := 0x7d

/-- The messages of `Conf`. -/
inductive ConfError where
  | unexpectedEndOfParameter
  | unexpectedEndOfFile
  | tooLongStarted (start : Bytes)
  | tooLongUnterminated (ch : Byte)
  | readFailed (name : Bytes)
  | readReturned (n size : ℕ)
  | unexpected (ch : Byte)
  | unexpectedBrace
  | openFailed (name : Bytes)
  | statFailed (name : Bytes)
  | expectingBrace
  | blockInParam
  | notTerminated (name : Bytes)
  | noOpening (name : Bytes)
  | notAllowedHere (name : Bytes)
  | unknownDirective (name : Bytes)
  | invalidNumberOfArguments (name : Bytes)
  | directive (name text : Bytes)
  deriving DecidableEq, Repr

/-- The failure is one of the two kinds of a too long parameter. -/
def ConfError.TooLong : ConfError → Prop
  | .tooLongStarted _ => True
  | .tooLongUnterminated _ => True
  | _ => False

/-- The codes that `read_token_` returns. -/
inductive Rc where
  | error (e : ConfError)
  | ok
  | blockStart
  | blockDone
  | fileDone
  deriving DecidableEq, Repr

/-- The local variables of `read_token_`, `args_` and the line. -/
structure Scan where
  start : ℕ
  startLine : UInt32
  needSpace : Bool := false
  lastSpace : Bool := true
  sharpComment : Bool := false
  variable_ : Bool := false
  quoted : Bool := false
  sQuoted : Bool := false
  dQuoted : Bool := false
  line : UInt32
  args : List Bytes := []
  deriving DecidableEq, Repr

/-- The state after one turn, or the code that is returned. -/
inductive Turn where
  | next (s : Scan)
  | ret (rc : Rc) (s : Scan)
  deriving DecidableEq, Repr

def isSpace (ch : Byte) : Bool := ch = space || ch = tab || ch = cr || ch = lf

/-- The variables of the loop that copies a word. -/
structure Copy where
  src : ℕ
  dst : ℕ
  word : Bytes
  deriving DecidableEq, Repr

/-- `*dst++ = ch`, with `src` moved on by `n`. -/
def Copy.put (c : Copy) (ch : Byte) (n : ℕ) : Copy := ⟨c.src + n, c.dst + 1, c.word.set c.dst ch⟩

/-- One iteration of the loop that copies a word. -/
def copyByte (mem : ℕ → Byte) (c : Copy) : Copy :=
  let ch := mem (c.src + 1)
  if mem c.src = backslash then
    if ch = dquote ∨ ch = squote ∨ ch = backslash then c.put ch 2
    else if ch = letterT then c.put tab 2
    else if ch = letterR then c.put cr 2
    else if ch = letterN then c.put lf 2
    else c.put (mem c.src) 1
  else c.put (mem c.src) 1

/-- The loop, for at most `k` bytes. -/
def copyLoop (mem : ℕ → Byte) (last : ℕ) : ℕ → Copy → Copy
  | 0, c => c
  | k + 1, c => if c.src < last then copyLoop mem last k (copyByte mem c) else c

/-- The word between two places, made with the size of what is between them. -/
def copyWord (mem : ℕ → Byte) (start last : ℕ) : Bytes :=
  (copyLoop mem last (last - start) ⟨start, 0, List.replicate (last - start) 0⟩).word

/-- The part for the byte `ch` at `pos` where a word may start. -/
def startWord (pos : ℕ) (ch : Byte) (s : Scan) : Turn :=
  if isSpace ch then .next s
  else
    let s := { s with start := pos, startLine := s.line }
    if ch = semicolon ∨ ch = lbrace then
      if s.args = [] then .ret (.error (.unexpected ch)) s
      else if ch = lbrace then .ret .blockStart s
      else .ret .ok s
    else if ch = rbrace then
      if s.args ≠ [] then .ret (.error .unexpectedBrace) s else .ret .blockDone s
    else if ch = sharp then .next { s with sharpComment := true }
    else if ch = backslash then .next { s with quoted := true, lastSpace := false }
    else if ch = dquote then
      .next { s with start := pos + 1, dQuoted := true, lastSpace := false }
    else if ch = squote then
      .next { s with start := pos + 1, sQuoted := true, lastSpace := false }
    else .next { s with lastSpace := false }

/-- Whether the byte ends the word (`found`), with the flags it then sets. -/
def endWord (ch : Byte) (s : Scan) : Option Scan :=
  if s.dQuoted then
    if ch = dquote then some { s with dQuoted := false, needSpace := true } else none
  else if s.sQuoted then
    if ch = squote then some { s with sQuoted := false, needSpace := true } else none
  else if isSpace ch ∨ ch = semicolon ∨ ch = lbrace then some { s with lastSpace := true }
  else none

/-- The part behind the byte `ch` at `pos` that ends a word. -/
def wordFound (mem : ℕ → Byte) (pos : ℕ) (ch : Byte) (s : Scan) : Turn :=
  let s := { s with args := s.args ++ [copyWord mem s.start pos] }
  if ch = semicolon then .ret .ok s
  else if ch = lbrace then .ret .blockStart s
  else .next s

/-- The part for the byte `ch` at `pos` of a word. -/
def inWord (mem : ℕ → Byte) (pos : ℕ) (ch : Byte) (s : Scan) : Turn :=
  if ch = lbrace ∧ s.variable_ then .next s
  else
    let s := { s with variable_ := false }
    if ch = backslash then .next { s with quoted := true }
    else if ch = dollar then .next { s with variable_ := true }
    else
      match endWord ch s with
      | none => .next s
      | some s => wordFound mem pos ch s

def scanByte (mem : ℕ → Byte) (pos : ℕ) (ch : Byte) (s : Scan) : Turn :=
  if s.lastSpace then startWord pos ch s else inWord mem pos ch s

/-- The part behind a quoted word. -/
def afterQuote (mem : ℕ → Byte) (pos : ℕ) (ch : Byte) (s : Scan) : Turn :=
  if isSpace ch then .next { s with lastSpace := true, needSpace := false }
  else if ch = semicolon then .ret .ok s
  else if ch = lbrace then .ret .blockStart s
  else if ch = rparen then scanByte mem pos ch { s with lastSpace := true, needSpace := false }
  else .ret (.error (.unexpected ch)) s

/-- A line feed is counted, and ends a comment. -/
def countLine (ch : Byte) (s : Scan) : Scan :=
  if ch = lf then { s with line := s.line + 1, sharpComment := false } else s

/-- One iteration of the loop of `read_token_`, for the byte at `pos`. -/
def turn (mem : ℕ → Byte) (pos : ℕ) (s : Scan) : Turn :=
  let ch := mem pos
  let s := countLine ch s
  if s.sharpComment then .next s
  else if s.quoted then .next { s with quoted := false }
  else if s.needSpace then afterQuote mem pos ch s
  else scanByte mem pos ch s

/-- The end of the input, which only a file without a pending word may meet. -/
def endOfInput (fd : ℤ) (s : Scan) : Rc :=
  if s.args ≠ [] ∨ ¬ s.lastSpace then
    if fd = -1 then .error .unexpectedEndOfParameter else .error .unexpectedEndOfFile
  else .fileDone

/-- The state in which a call of `read_token_` starts. -/
def Scan.init (pos : ℕ) (line : UInt32) : Scan := { start := pos, startLine := line, line := line }

end Lingx.Conf

import Lingx.Conf.Scan

/-! `read_token_` on a configuration file. The scan runs in a buffer of `MAX_CONF_BUFFER`
bytes; where it meets the end of what has been read, the pending part of the buffer is
moved to the front and the rest is filled from the file. The outcomes of `pread()` are
an input. The text of a `-g` option is a buffer without a file. -/

namespace Lingx.Conf

def MAX_CONF_BUFFER : ℕ := 4096

/-- The members of class `File`, with the outcome of `pread()` for a length and an
offset; `none` is a failure. -/
structure File where
  fd : ℤ
  name : Bytes
  stSize : ℕ
  offset : ℕ
  pread : ℕ → ℕ → Option Bytes

/-- The members of `Buf` that the scan uses, as places in the memory behind `start`. -/
structure Buf where
  mem : ℕ → Byte
  pos : ℕ
  last : ℕ
  bend : ℕ

structure ConfFile where
  file : File
  buffer : Buf
  line : UInt32

/-- `File::read`. -/
def File.read (f : File) (len off : ℕ) : Option (Bytes × File) :=
  match f.pread len off with
  | none => none
  | some data => some (data, { f with offset := f.offset + data.length })

/-- `memmove` of `len` bytes to the front. -/
def moveToFront (mem : ℕ → Byte) (start len : ℕ) : ℕ → Byte :=
  fun i => if i < len then mem (start + i) else mem i

/-- Bytes written to the memory from a place on. -/
def writeAt (mem : ℕ → Byte) (i : ℕ) (data : Bytes) : ℕ → Byte :=
  fun j => if i ≤ j then (data[j - i]?).getD (mem j) else mem j

namespace ConfFile

def setPos (cf : ConfFile) (pos : ℕ) : ConfFile :=
  { cf with buffer := { cf.buffer with pos := pos } }

def setMem (cf : ConfFile) (mem : ℕ → Byte) : ConfFile :=
  { cf with buffer := { cf.buffer with mem := mem } }

/-- The bytes that are still to be scanned. -/
def remaining (cf : ConfFile) : ℕ :=
  (cf.file.stSize - cf.file.offset) + (cf.buffer.last - cf.buffer.pos)

end ConfFile

/-- The error for a part of the buffer that cannot be moved on. -/
def tooLong (mem : ℕ → Byte) (s : Scan) : ConfError :=
  if s.dQuoted then .tooLongUnterminated dquote
  else if s.sQuoted then .tooLongUnterminated squote
  else .tooLongStarted ((List.range 10).map fun i => mem (s.start + i))

/-- A buffer with a byte to scan, or the code that is returned. -/
inductive Refill where
  | more (cf : ConfFile) (s : Scan)
  | ret (rc : Rc) (cf : ConfFile) (s : Scan)

/-- The read behind the first `len` bytes of the memory. -/
def readMore (cf : ConfFile) (mem : ℕ → Byte) (len : ℕ) (s : Scan) : Refill :=
  let size := min (cf.file.stSize - cf.file.offset) (cf.buffer.bend - len)
  match cf.file.read size cf.file.offset with
  | none => .ret (.error (.readFailed cf.file.name)) (cf.setMem mem) s
  | some (data, file) =>
    let mem := writeAt mem len data
    if data.length ≠ size then
      .ret (.error (.readReturned data.length size)) { cf.setMem mem with file := file } s
    else
      .more { cf with
        file := file
        buffer := { cf.buffer with mem := mem, pos := len, last := len + data.length } }
        { s with start := 0 }

/-- The part for the end of what has been read. -/
def refill (cf : ConfFile) (s : Scan) : Refill :=
  if cf.file.stSize ≤ cf.file.offset then .ret (endOfInput cf.file.fd s) cf s
  else
    let len := cf.buffer.pos - s.start
    if len = MAX_CONF_BUFFER then
      .ret (.error (tooLong cf.buffer.mem s)) cf { s with line := s.startLine }
    else readMore cf (moveToFront cf.buffer.mem s.start len) len s

/-- The start of an iteration. -/
def fill (cf : ConfFile) (s : Scan) : Refill :=
  if cf.buffer.last ≤ cf.buffer.pos then refill cf s else .more cf s

/-- The loop of `read_token_`, for at most `k` iterations. -/
def readLoop : ℕ → ConfFile → Scan → Option (Rc × ConfFile × Scan)
  | 0, _, _ => none
  | k + 1, cf, s =>
    match fill cf s with
    | .ret rc cf s => some (rc, cf, s)
    | .more cf s =>
      match turn cf.buffer.mem cf.buffer.pos s with
      | .next s => readLoop k (cf.setPos (cf.buffer.pos + 1)) s
      | .ret rc s => some (rc, cf.setPos (cf.buffer.pos + 1), s)

/-- What a call of `read_token_` leaves in `args_` and the line, with its code. -/
structure Token where
  rc : Rc
  args : List Bytes
  line : UInt32
  deriving DecidableEq, Repr

def Scan.token (rc : Rc) (s : Scan) : Token := ⟨rc, s.args, s.line⟩

/-- `Conf::read_token_`; each iteration but the last one takes a byte. -/
def readToken (cf : ConfFile) : Option (Token × ConfFile) := do
  let (rc, cf', s) ← readLoop (cf.remaining + 1) cf (Scan.init cf.buffer.pos cf.line)
  some (s.token rc, { cf' with line := s.line })

/-- The results of the next `n` calls, with the number of bytes that remain after each. -/
def readTokens : ℕ → ConfFile → Option (List (Token × ℕ))
  | 0, _ => some []
  | n + 1, cf => do
    let (t, cf) ← readToken cf
    let ts ← readTokens n cf
    some ((t, cf.remaining) :: ts)

/-- A `pread()` that returns the bytes asked for. -/
def readFrom (content : Bytes) (len off : ℕ) : Option Bytes := some ((content.drop off).take len)

/-- The file as `Conf::parse` opens it. -/
def ConfFile.opened (fd : ℤ) (name : Bytes) (stSize : ℕ) (pread : ℕ → ℕ → Option Bytes) :
    ConfFile :=
  ⟨⟨fd, name, stSize, 0, pread⟩, ⟨fun _ => 0, 0, 0, MAX_CONF_BUFFER⟩, 1⟩

/-- The buffer that `Conf::param` makes of the text of a `-g` option. -/
def ConfFile.param (text : Bytes) : ConfFile :=
  ⟨⟨-1, [], 0, 0, fun _ _ => none⟩, ⟨fun i => text.getD i 0, 0, text.length, text.length⟩, 0⟩

/-- The scan without a buffer: the same turns over the whole text in memory. -/
def scanLoop (content : Bytes) (fd : ℤ) : ℕ → ℕ → Scan → Option (Rc × ℕ × Scan)
  | 0, _, _ => none
  | k + 1, pos, s =>
    if content.length ≤ pos then some (endOfInput fd s, pos, s)
    else
      match turn (content.getD · 0) pos s with
      | .next s => scanLoop content fd k (pos + 1) s
      | .ret rc s => some (rc, pos + 1, s)

/-- A call of the scan without a buffer. -/
def scanToken (content : Bytes) (fd : ℤ) (pos : ℕ) (line : UInt32) : Option (Token × ℕ) := do
  let (rc, pos', s) ← scanLoop content fd (content.length - pos + 1) pos (Scan.init pos line)
  some (s.token rc, pos')

/-- The results of the next `n` calls, with the number of bytes that remain after each. -/
def scanTokens (content : Bytes) (fd : ℤ) : ℕ → ℕ → UInt32 → Option (List (Token × ℕ))
  | 0, _, _ => some []
  | n + 1, pos, line => do
    let (t, pos) ← scanToken content fd pos line
    let ts ← scanTokens content fd n pos t.line
    some ((t, content.length - pos) :: ts)

end Lingx.Conf

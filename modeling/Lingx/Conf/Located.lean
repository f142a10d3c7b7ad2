import Lingx.Conf.Window
import Lingx.Strings

/-! Where the messages of `Conf` point. `log_error` adds the name of the file and the line to
a message. The line is that of the byte which the message is about: the byte that ended the
call of `read_token_`, the end of the file, or the first byte of a parameter that is too
long. -/

namespace Lingx.Conf

open Library.Store Strings

def MAX_CONF_ERRSTR : ℕ := 1024

/-- `Conf::log_error`: the message that it makes of a format with its arguments, with
`conf_file_` and the bytes that its array holds before. -/
def logError (errstr : Bytes) (confFile : Option ConfFile) (fmt : Formatted) : Bytes :=
  let (errstr, p) := vslprintf errstr 0 MAX_CONF_ERRSTR fmt
  let text := cstr (errstr.take p)
  match confFile with
  | none => text
  | some cf =>
    if cf.file.fd = -1 then text ++ ascii " in command line"
    else text ++ ascii " in " ++ cstr cf.file.name ++ ascii ":" ++ decimal cf.line.toNat

/-- What is parsed: the text, with the descriptor and the name of its file and the number of
its first line. -/
structure Source where
  content : Bytes
  fd : ℤ
  name : Bytes
  first : UInt32

namespace Source

/-- The line of a place of the text. -/
def line (src : Source) (p : ℕ) : UInt32 := src.first + UInt32.ofNat (newlines (src.content.take p))

/-- What `log_error` adds for a place of the text. -/
def suffix (src : Source) (p : ℕ) : Bytes :=
  if src.fd = -1 then ascii " in command line"
  else ascii " in " ++ cstr src.name ++ ascii ":" ++ decimal (src.line p).toNat

theorem line_succ (src : Source) {p : ℕ} (h : p < src.content.length) :
    src.line (p + 1) = src.line p + if src.content.getD p 0 = lf then 1 else 0 := by
  rw [line, line, newlines_take_succ h]
  split_ifs <;> simp [UInt32.ofNat_add, add_assoc]

theorem line_succ_of_ne {src : Source} {p : ℕ} {ch : Byte} (h : src.content[p]? = some ch)
    (hch : ch ≠ lf) : src.line (p + 1) = src.line p := by
  obtain ⟨hlt, hget⟩ := List.getElem?_eq_some_iff.mp h
  rw [line_succ src hlt, List.getD_eq_getElem?_getD, h, Option.getD_some, if_neg hch]
  simp

end Source

theorem logError_eq {errstr : Bytes} (h : errstr.length = MAX_CONF_ERRSTR) (cf : ConfFile)
    (fmt : Formatted) :
    logError errstr (some cf) fmt = cstr (fmt.text.take (MAX_CONF_ERRSTR - 1)) ++
      if cf.file.fd = -1 then ascii " in command line"
      else ascii " in " ++ cstr cf.file.name ++ ascii ":" ++ decimal cf.line.toNat := by
  have hmax : MAX_CONF_ERRSTR = 1024 := rfl
  have hlen : ([] : Bytes).length + (fmt.text.take (MAX_CONF_ERRSTR - 0 - 1) ++ [0]).length ≤
      errstr.length := by
    rw [List.length_append, List.length_take, List.length_singleton, List.length_nil]
    omega
  obtain ⟨rest, hrest⟩ := prefix_store List.nil_prefix hlen
  have htake : (store errstr 0 (fmt.text.take (MAX_CONF_ERRSTR - 0 - 1) ++ [0])).take
      (0 + (fmt.text.take (MAX_CONF_ERRSTR - 0 - 1)).length) =
        fmt.text.take (MAX_CONF_ERRSTR - 1) := by
    have hstore : store errstr 0 (fmt.text.take (MAX_CONF_ERRSTR - 0 - 1) ++ [0]) =
        fmt.text.take (MAX_CONF_ERRSTR - 1) ++ ([0] ++ rest) := by
      rw [← List.append_assoc]
      exact hrest.symm
    rw [hstore, Nat.zero_add, Nat.sub_zero, List.take_left]
  rw [logError, vslprintf_eq fmt (by decide)]
  dsimp only
  rw [htake]
  split_ifs <;> simp [List.append_assoc]

/-- The bytes that a message can be about. -/
def ConfError.culprits : ConfError → List Byte
  | .unexpected ch => [ch]
  | .unexpectedBrace => [rbrace]
  | .blockInParam => [lbrace]
  | .notTerminated _ => [lbrace]
  | .noOpening _ => [semicolon]
  | .notAllowedHere _ => [semicolon, lbrace]
  | .unknownDirective _ => [semicolon, lbrace]
  | .invalidNumberOfArguments _ => [semicolon, lbrace]
  | .directive _ _ => [semicolon, lbrace, rbrace]
  | _ => []

/-- The messages about the end of the text. -/
def ConfError.AtEnd : ConfError → Prop
  | .unexpectedEndOfParameter => True
  | .unexpectedEndOfFile => True
  | .expectingBrace => True
  | _ => False

/-- The place of the text that a message is about, with so many bytes read: the last byte, the
end, the start of a parameter that fills the buffer, or the quote in front of it. -/
inductive ConfError.About (content : Bytes) (e : ConfError) : ℕ → ℕ → Prop
  | byte {p : ℕ} {ch : Byte} : content[p]? = some ch → ch ∈ e.culprits → About content e (p + 1) p
  | atEnd : e.AtEnd → About content e content.length content.length
  | started {p : ℕ} : e = .tooLongStarted ((content.drop p).take 10) →
      About content e (p + MAX_CONF_BUFFER) p
  | quote {p : ℕ} {ch : Byte} : e = .tooLongUnterminated ch → content[p]? = some ch →
      About content e (p + 1 + MAX_CONF_BUFFER) p

/-- The bytes that a call of `read_token_` ends with. -/
def Rc.culprits : Rc → List Byte
  | .ok => [semicolon]
  | .blockStart => [lbrace]
  | .blockDone => [rbrace]
  | .fileDone => []
  | .error e => e.culprits

def Rc.AtEnd : Rc → Prop
  | .fileDone => True
  | .error e => e.AtEnd
  | _ => False

/-- A call of `read_token_` ends so, behind so many bytes of the text. -/
inductive Stops (content : Bytes) (rc : Rc) : ℕ → Prop
  | byte {p : ℕ} {ch : Byte} : content[p]? = some ch → ch ∈ rc.culprits → ch ≠ lf →
      Stops content rc (p + 1)
  | atEnd : rc.AtEnd → Stops content rc content.length

theorem endOfInput_atEnd (fd : ℤ) (s : Scan) : (endOfInput fd s).AtEnd := by
  rw [endOfInput]
  split_ifs <;> trivial

section Turn
variable {mem : ℕ → Byte} {pos : ℕ} {ch : Byte} {s s' : Scan}

/-- The byte of a turn that ends a call. -/
def Turn.Ends (ch : Byte) : Turn → Prop
  | .next _ => True
  | .ret rc _ => ch ∈ rc.culprits ∧ ch ≠ lf

theorem ne_lf_of_isSpace (h : ¬ isSpace ch = true) : ch ≠ lf := by
  rintro rfl
  exact h rfl

theorem startWord_ends : (startWord pos ch s).Ends ch := by
  simp only [startWord]
  split_ifs with hsp hend hargs hbrace hr hr'
  · trivial
  · exact ⟨List.mem_singleton_self ch, ne_lf_of_isSpace hsp⟩
  · exact ⟨List.mem_singleton.mpr hbrace, ne_lf_of_isSpace hsp⟩
  · exact ⟨List.mem_singleton.mpr (hend.resolve_right hbrace), ne_lf_of_isSpace hsp⟩
  · exact ⟨List.mem_singleton.mpr hr, ne_lf_of_isSpace hsp⟩
  · exact ⟨List.mem_singleton.mpr hr, ne_lf_of_isSpace hsp⟩
  all_goals trivial

theorem wordFound_ends : (wordFound mem pos ch s).Ends ch := by
  simp only [wordFound]
  split_ifs with hs hb
  · exact ⟨List.mem_singleton.mpr hs, by rw [hs]; decide⟩
  · exact ⟨List.mem_singleton.mpr hb, by rw [hb]; decide⟩
  · trivial

theorem inWord_ends : (inWord mem pos ch s).Ends ch := by
  simp only [inWord]
  split_ifs
  · trivial
  · trivial
  · trivial
  · split
    · trivial
    · exact wordFound_ends

theorem scanByte_ends : (scanByte mem pos ch s).Ends ch := by
  rw [scanByte]
  split_ifs
  · exact startWord_ends
  · exact inWord_ends

theorem afterQuote_ends : (afterQuote mem pos ch s).Ends ch := by
  rw [afterQuote]
  split_ifs with hsp hs hb
  · trivial
  · exact ⟨List.mem_singleton.mpr hs, ne_lf_of_isSpace hsp⟩
  · exact ⟨List.mem_singleton.mpr hb, ne_lf_of_isSpace hsp⟩
  · exact scanByte_ends
  · exact ⟨List.mem_singleton_self ch, ne_lf_of_isSpace hsp⟩

theorem turn_ends (mem : ℕ → Byte) (pos : ℕ) (s : Scan) : (turn mem pos s).Ends (mem pos) := by
  simp only [turn]
  split_ifs
  · trivial
  · trivial
  · exact afterQuote_ends
  · exact scanByte_ends

/-- A turn keeps the start of the word with its line, or moves it to the byte, or behind it,
with the line of the byte, which is then no line feed. -/
inductive Turn.Starts (pos : ℕ) (ch : Byte) (s : Scan) (t : Turn) : Prop
  | kept : t.scan.start = s.start → t.scan.startLine = s.startLine → Starts pos ch s t
  | moved : ch ≠ lf → t.scan.start = pos ∨ t.scan.start = pos + 1 → t.scan.startLine = s.line →
      Starts pos ch s t

theorem startWord_starts : (startWord pos ch s).Starts pos ch s := by
  simp only [startWord]
  split_ifs with hsp
  · exact .kept rfl rfl
  all_goals first
    | exact .moved (ne_lf_of_isSpace hsp) (.inl rfl) rfl
    | exact .moved (ne_lf_of_isSpace hsp) (.inr rfl) rfl

theorem endWord_startLine (h : endWord ch s = some s') : s'.startLine = s.startLine := by
  simp only [endWord] at h
  split_ifs at h <;> cases h <;> rfl

theorem inWord_starts : (inWord mem pos ch s).Starts pos ch s := by
  simp only [inWord]
  split_ifs
  · exact .kept rfl rfl
  · exact .kept rfl rfl
  · exact .kept rfl rfl
  · split
    · exact .kept rfl rfl
    · rename_i s' hs'
      have hstart := endWord_start hs'
      have hline := endWord_startLine hs'
      simp only [wordFound]
      split_ifs <;> exact .kept hstart hline

theorem scanByte_starts : (scanByte mem pos ch s).Starts pos ch s := by
  rw [scanByte]
  split_ifs
  · exact startWord_starts
  · exact inWord_starts

theorem afterQuote_starts : (afterQuote mem pos ch s).Starts pos ch s := by
  rw [afterQuote]
  split_ifs
  · exact .kept rfl rfl
  · exact .kept rfl rfl
  · exact .kept rfl rfl
  · cases @scanByte_starts mem pos ch { s with lastSpace := true, needSpace := false } with
    | kept h h' => exact .kept h h'
    | moved hch h h' => exact .moved hch h h'
  · exact .kept rfl rfl

theorem turn_starts (mem : ℕ → Byte) (pos : ℕ) (s : Scan) :
    (turn mem pos s).Starts pos (mem pos) (countLine (mem pos) s) := by
  simp only [turn]
  split_ifs
  · exact .kept rfl rfl
  · exact .kept rfl rfl
  · exact afterQuote_starts
  · exact scanByte_starts

/-- The quote that a word is in. -/
def Scan.quote (s : Scan) : Option Byte :=
  if s.dQuoted then some dquote else if s.sQuoted then some squote else none

/-- Within quotes there is no space, and the quotes are of one kind. -/
structure Scan.Inside (s : Scan) : Prop where
  lastSpace : s.dQuoted = true ∨ s.sQuoted = true → s.lastSpace = false
  needSpace : s.dQuoted = true ∨ s.sQuoted = true → s.needSpace = false
  one : s.dQuoted = true → s.sQuoted = false

theorem Scan.quote_eq_none : s.quote = none ↔ s.dQuoted = false ∧ s.sQuoted = false := by
  rw [Scan.quote]
  cases s.dQuoted <;> cases s.sQuoted <;> simp

theorem Scan.Inside.of_none (h : s.quote = none) : s.Inside := by
  obtain ⟨hd, hs⟩ := Scan.quote_eq_none.mp h
  exact ⟨by simp [hd, hs], by simp [hd, hs], fun _ => hs⟩

theorem Scan.Inside.quote_of_lastSpace (h : s.Inside) (hl : s.lastSpace = true) :
    s.quote = none := by
  have hno : ¬ (s.dQuoted = true ∨ s.sQuoted = true) := fun hq => by simp [h.lastSpace hq] at hl
  rw [Scan.quote_eq_none]
  simpa using hno

theorem Scan.Inside.quote_of_needSpace (h : s.Inside) (hn : s.needSpace = true) :
    s.quote = none := by
  have hno : ¬ (s.dQuoted = true ∨ s.sQuoted = true) := fun hq => by simp [h.needSpace hq] at hn
  rw [Scan.quote_eq_none]
  simpa using hno

/-- What a turn does to the quote that the word is in: there is none, it is as before, or the
byte has opened it. -/
inductive Turn.Quotes (pos : ℕ) (ch : Byte) (s : Scan) (t : Turn) : Prop
  | none : t.scan.quote = none → Quotes pos ch s t
  | kept : t.scan.quote = s.quote → t.scan.start = s.start → t.scan.Inside → Quotes pos ch s t
  | opened : t.scan.quote = some ch → t.scan.start = pos + 1 → t.scan.Inside → Quotes pos ch s t

theorem startWord_quotes (h : s.quote = none) (hneed : s.needSpace = false) :
    (startWord pos ch s).Quotes pos ch s := by
  obtain ⟨hd, hs⟩ := Scan.quote_eq_none.mp h
  simp only [startWord]
  split_ifs with _ _ _ _ _ _ _ _ hdq hsq
  · exact .none h
  · exact .none h
  · exact .none h
  · exact .none h
  · exact .none h
  · exact .none h
  · exact .none h
  · exact .none h
  · exact .opened (congrArg some hdq.symm) rfl
      ⟨fun _ => rfl, fun _ => hneed, fun _ => hs⟩
  · refine .opened ?_ rfl ⟨fun _ => rfl, fun _ => hneed, fun hd' => ?_⟩
    · simp [Turn.scan, Scan.quote, hd, hsq]
    · exact absurd (hd.symm.trans hd') Bool.false_ne_true
  · exact .none h

theorem endWord_quotes (hin : s.Inside) (h : endWord ch s = some s') : s'.quote = none := by
  simp only [endWord] at h
  split_ifs at h with hd _ hs
  · cases h
    exact Scan.quote_eq_none.mpr ⟨rfl, hin.one hd⟩
  · cases h
    exact Scan.quote_eq_none.mpr ⟨by simpa using hd, rfl⟩
  · cases h
    exact Scan.quote_eq_none.mpr ⟨by simpa using hd, by simpa using hs⟩

theorem inWord_quotes (hin : s.Inside) : (inWord mem pos ch s).Quotes pos ch s := by
  have hin' : ({ s with variable_ := false } : Scan).Inside :=
    ⟨hin.lastSpace, hin.needSpace, hin.one⟩
  simp only [inWord]
  split_ifs
  · exact .kept rfl rfl hin
  · exact .kept rfl rfl ⟨hin.lastSpace, hin.needSpace, hin.one⟩
  · exact .kept rfl rfl ⟨hin.lastSpace, hin.needSpace, hin.one⟩
  · split
    · exact .kept rfl rfl hin'
    · rename_i s' hs'
      have hnone := endWord_quotes hin' hs'
      simp only [wordFound]
      split_ifs <;> exact .none hnone

theorem scanByte_quotes (hin : s.Inside) (hneed : s.needSpace = false) :
    (scanByte mem pos ch s).Quotes pos ch s := by
  rw [scanByte]
  split_ifs with hl
  · exact startWord_quotes (hin.quote_of_lastSpace hl) hneed
  · exact inWord_quotes hin

theorem afterQuote_quotes (h : s.quote = none) : (afterQuote mem pos ch s).Quotes pos ch s := by
  rw [afterQuote]
  split_ifs
  · exact .none h
  · exact .none h
  · exact .none h
  · have hin : ({ s with lastSpace := true, needSpace := false } : Scan).Inside := .of_none h
    cases @scanByte_quotes mem pos ch _ hin rfl with
    | none h => exact .none h
    | kept h h' hin => exact .kept h h' hin
    | opened h h' hin => exact .opened h h' hin
  · exact .none h

theorem Turn.Quotes.inside {t : Turn} (h : t.Quotes pos ch s) : t.scan.Inside := by
  cases h with
  | none h => exact .of_none h
  | kept _ _ hin => exact hin
  | opened _ _ hin => exact hin

theorem countLine_quote (ch : Byte) (s : Scan) : (countLine ch s).quote = s.quote := by
  rw [countLine]
  split_ifs <;> rfl

theorem Scan.Inside.countLine (h : s.Inside) : (countLine ch s).Inside := by
  rw [Conf.countLine]
  split_ifs
  · exact ⟨h.lastSpace, h.needSpace, h.one⟩
  · exact h

theorem turn_quotes (mem : ℕ → Byte) (pos : ℕ) (hin : s.Inside) :
    (turn mem pos s).Quotes pos (mem pos) (countLine (mem pos) s) := by
  have hcount : (countLine (mem pos) s).Inside := hin.countLine
  simp only [turn]
  split_ifs with _ _ hneed
  · exact .kept rfl rfl hcount
  · exact .kept rfl rfl ⟨hcount.lastSpace, hcount.needSpace, hcount.one⟩
  · exact afterQuote_quotes (hcount.quote_of_needSpace hneed)
  · exact scanByte_quotes hcount (by simpa using hneed)

end Turn

section Read
variable {src : Source} {cf cf' : ConfFile} {s s' : Scan} {d p k : ℕ} {rc : Rc}

/-- The configuration file is that of the text. -/
def ConfFile.Of (cf : ConfFile) (src : Source) : Prop :=
  cf.file.fd = src.fd ∧ cf.file.name = src.name

/-- The state of a call with `p` bytes read: its line, that of the start of the word, and the
quote that the word is in. -/
structure Scan.Lined (src : Source) (p : ℕ) (s : Scan) : Prop where
  line : s.line = src.line p
  startLine : s.startLine = src.line s.start
  inside : s.Inside
  quote : ∀ q, s.quote = some q → 0 < s.start ∧ src.content[s.start - 1]? = some q

theorem countLine_line (ch : Byte) (s : Scan) :
    (countLine ch s).line = s.line + if ch = lf then 1 else 0 := by
  rw [countLine]
  split_ifs <;> simp

theorem countLine_startLine (ch : Byte) (s : Scan) : (countLine ch s).startLine = s.startLine := by
  rw [countLine]
  split_ifs <;> rfl

theorem Scan.Lined.turn_startLine (h : s.Lined src p) (hp : p < src.content.length) :
    (turn (src.content.getD · 0) p s).scan.startLine =
      src.line (turn (src.content.getD · 0) p s).scan.start := by
  cases turn_starts (src.content.getD · 0) p s with
  | kept hstart hstartLine =>
    rw [hstartLine, hstart, countLine_startLine, countLine_start, h.startLine]
  | moved hch hstart hstartLine =>
    have hsame : src.line (p + 1) = src.line p := by
      rw [src.line_succ hp, if_neg hch]
      simp
    rw [hstartLine, countLine_line, if_neg hch, h.line]
    rcases hstart with hstart | hstart
    · rw [hstart]
      simp
    · rw [hstart, hsame]
      simp

theorem Scan.Lined.turn_quote (h : s.Lined src p) (hp : p < src.content.length) (q : Byte)
    (hq : (turn (src.content.getD · 0) p s).scan.quote = some q) :
    0 < (turn (src.content.getD · 0) p s).scan.start ∧
      src.content[(turn (src.content.getD · 0) p s).scan.start - 1]? = some q := by
  cases turn_quotes (src.content.getD · 0) p h.inside with
  | none hnone => exact nomatch hnone.symm.trans hq
  | kept hsame hstart _ =>
    rw [hstart, countLine_start]
    rw [countLine_quote] at hsame
    exact h.quote q (hsame.symm.trans hq)
  | opened hopen hstart _ =>
    obtain rfl := Option.some.inj (hopen.symm.trans hq)
    rw [hstart]
    refine ⟨Nat.succ_pos p, ?_⟩
    rw [Nat.add_sub_cancel, List.getD_eq_getElem?_getD, List.getElem?_eq_getElem hp,
      Option.getD_some]

theorem Scan.Lined.turn (h : s.Lined src p) (hp : p < src.content.length) :
    (turn (src.content.getD · 0) p s).scan.Lined src (p + 1) where
  line := by rw [turn_line, h.line, src.line_succ hp]
  startLine := h.turn_startLine hp
  inside := (turn_quotes (src.content.getD · 0) p h.inside).inside
  quote := h.turn_quote hp

/-- The configuration file that a refill leaves. -/
def Refill.confFile : Refill → ConfFile
  | .more cf _ => cf
  | .ret _ cf _ => cf

theorem readMore_of {mem : ℕ → Byte} {len : ℕ} (h : cf.Of src) :
    (readMore cf mem len s).confFile.Of src := by
  simp only [readMore, File.read]
  split
  · exact h
  · rename_i data file hread
    split at hread
    · cases hread
    · cases hread
      split_ifs
      · exact h
      · exact h

theorem fill_of (h : cf.Of src) : (fill cf s).confFile.Of src := by
  rw [fill]
  split_ifs
  · simp only [refill]
    split_ifs
    · exact h
    · exact h
    · exact readMore_of h
  · exact h

theorem tooLong_eq (mem : ℕ → Byte) (s : Scan) : tooLong mem s =
    match s.quote with
    | some q => .tooLongUnterminated q
    | none => .tooLongStarted ((List.range 10).map fun i => mem (s.start + i)) := by
  rw [tooLong, Scan.quote]
  split_ifs <;> rfl

/-- Where a parameter is too long the line is set back to that of its start. -/
theorem fill_tooLong {e : ConfError} (h : fill cf s = .ret (.error e) cf' s') (he : e.TooLong) :
    cf' = cf ∧ e = tooLong cf.buffer.mem s ∧ s'.line = s.startLine := by
  rw [fill] at h
  split_ifs at h
  simp only [refill] at h
  split_ifs at h
  · rw [endOfInput] at h
    split_ifs at h <;> cases h <;> exact he.elim
  · cases h
    exact ⟨rfl, rfl, rfl⟩
  · simp only [readMore] at h
    split at h
    · cases h
      exact he.elim
    · split_ifs at h
      cases h
      exact he.elim

/-- What a call of `read_token_` comes to: it stops at a place with the line of that, or it
fails at a parameter that is too long, with the line of its start. -/
inductive CallEnds (src : Source) (rc : Rc) (cf : ConfFile) (line : UInt32) : Prop
  | stops {d : ℕ} : Covers src.content cf d cf.buffer.pos → line = src.line (d + cf.buffer.pos) →
      Stops src.content rc (d + cf.buffer.pos) → CallEnds src rc cf line
  | fails {e : ConfError} {p : ℕ} : rc = .error e →
      e.About src.content (src.content.length - cf.remaining) p → line = src.line p →
      CallEnds src rc cf line

theorem Covers.take {start : ℕ} (g : Covers src.content cf d start) {k : ℕ}
    (hk : start + k ≤ cf.buffer.last) :
    (List.range k).map (fun i => cf.buffer.mem (start + i)) =
      (src.content.drop (d + start)).take k := by
  have hlen := g.le_length
  apply List.ext_getElem
  · simp only [List.length_map, List.length_range, List.length_take, List.length_drop]
    omega
  · intro i hi hi'
    have hik : i < k := by simpa using hi
    have hget := g.mem (start + i) (by omega) (by omega)
    rw [List.getD_eq_getElem?_getD, List.getElem?_eq_getElem (by omega), Option.getD_some] at hget
    simp only [List.getElem_map, List.getElem_range, List.getElem_take, List.getElem_drop, ← hget,
      Nat.add_assoc]

theorem Covers.tooLong_about (g : Covers src.content cf d s.start)
    (hl : (s.shift d).Lined src (d + cf.buffer.pos))
    (hfull : cf.buffer.pos = s.start + MAX_CONF_BUFFER) :
    ∃ p, (tooLong cf.buffer.mem s).About src.content (src.content.length - cf.remaining) p ∧
      s.startLine = src.line p := by
  have hmax : MAX_CONF_BUFFER = 4096 := rfl
  have hpos := g.bounded.pos_le
  have hlen := g.le_length
  have hread : src.content.length - cf.remaining = d + s.start + MAX_CONF_BUFFER := by
    rw [g.remaining]
    omega
  have hstartLine : s.startLine = src.line (d + s.start) := hl.startLine
  rw [hread, tooLong_eq]
  cases hq : s.quote with
  | none =>
    refine ⟨d + s.start, .started ?_, hstartLine⟩
    exact congrArg _ (g.take (by omega))
  | some q =>
    obtain ⟨hp, hget⟩ := hl.quote q hq
    have hp' : 0 < d + s.start := hp
    have hget' : src.content[d + s.start - 1]? = some q := hget
    obtain ⟨p, hsucc⟩ : ∃ p, d + s.start = p + 1 := ⟨d + s.start - 1, by omega⟩
    rw [hsucc, Nat.add_sub_cancel] at hget'
    have hne : q ≠ lf := by
      rw [Scan.quote] at hq
      split_ifs at hq <;> cases hq <;> decide
    rw [hsucc] at hstartLine ⊢
    exact ⟨p, .quote rfl hget', hstartLine.trans (Source.line_succ_of_ne hget' hne)⟩

theorem readLoop_callEnds (g : Covers src.content cf d s.start) (hof : cf.Of src)
    (hl : (s.shift d).Lined src (d + cf.buffer.pos))
    (h : readLoop k cf s = some (rc, cf', s')) : cf'.Of src ∧ CallEnds src rc cf' s'.line := by
  induction k generalizing cf s d with
  | zero => cases h
  | succ k ih =>
    have hfill := fill_follows g
    have hof₁ := fill_of (s := s) hof
    rw [readLoop] at h
    cases hf : fill cf s with
    | ret rc₁ cf₁ s₁ =>
      rw [hf] at h hfill hof₁
      cases h
      refine ⟨hof₁, ?_⟩
      cases hfill with
      | done hlen =>
        refine .stops (g.mono g.start_le le_rfl) hl.line ?_
        rw [← hlen]
        exact .atEnd (endOfInput_atEnd _ _)
      | tooLong he hfull _ =>
        obtain ⟨rfl, rfl, hline⟩ := fill_tooLong hf he
        obtain ⟨p, habout, hstartLine⟩ := g.tooLong_about hl hfull
        exact .fails rfl habout (hline.trans hstartLine)
    | more cf₁ s₁ =>
      rw [hf] at h hfill hof₁
      cases hfill with
      | more g₁ hlt hshift hplace hfd =>
        rename_i d₁
        have hstart := g₁.start_le
        have hlen := g₁.le_length
        have hpos : d₁ + cf₁.buffer.pos < src.content.length := by omega
        have hbyte : src.content[d₁ + cf₁.buffer.pos]? = some (cf₁.buffer.mem cf₁.buffer.pos) := by
          rw [← g₁.mem cf₁.buffer.pos hstart hlt, List.getD_eq_getElem?_getD,
            List.getElem?_eq_getElem hpos, Option.getD_some]
        have hturn : turn (src.content.getD · 0) (d₁ + cf₁.buffer.pos) (s₁.shift d₁) = _ :=
          turn_shift hstart fun i hi hi' => g₁.mem i hi (by omega)
        have hmoves := turn_moves cf₁.buffer.mem hstart
        rw [← hshift, ← hplace] at hl
        have hnext := hl.turn hpos
        have hends := turn_ends cf₁.buffer.mem cf₁.buffer.pos s₁
        rw [hturn] at hnext
        cases ht : turn cf₁.buffer.mem cf₁.buffer.pos s₁ with
        | ret rc₂ s₂ =>
          dsimp only at h
          rw [ht] at h hnext hends
          cases h
          exact ⟨hof₁, .stops (g₁.setPos hlt (Nat.le_succ_of_le hstart) le_rfl) hnext.line
            (.byte hbyte hends.1 hends.2)⟩
        | next s₂ =>
          dsimp only at h
          rw [ht] at h hmoves hnext
          obtain ⟨hle, hle'⟩ := hmoves
          exact ih (g₁.setPos hlt hle hle') hof₁ hnext h

/-- `p` bytes of the text have been read, and the line is that of the place. -/
structure Reached (src : Source) (cf : ConfFile) (p : ℕ) : Prop where
  of : cf.Of src
  line : cf.line = src.line p
  window : ∃ d, d + cf.buffer.pos = p ∧ Covers src.content cf d cf.buffer.pos

theorem Reached.read (h : Reached src cf p) : src.content.length - cf.remaining = p := by
  obtain ⟨-, -, d, rfl, g⟩ := h
  have hpos := g.bounded.pos_le
  have hlen := g.le_length
  rw [g.remaining]
  omega

/-- A message about a place of the text, with the line of that. -/
structure Located (src : Source) (e : ConfError) (cf : ConfFile) (p : ℕ) : Prop where
  of : cf.Of src
  about : e.About src.content (src.content.length - cf.remaining) p
  line : cf.line = src.line p

theorem logError_of (hof : cf.Of src) (hline : cf.line = src.line p) {errstr : Bytes}
    (hlen : errstr.length = MAX_CONF_ERRSTR) (fmt : Formatted) :
    logError errstr (some cf) fmt =
      cstr (fmt.text.take (MAX_CONF_ERRSTR - 1)) ++ src.suffix p := by
  rw [logError_eq hlen, hof.1, hof.2, hline]
  rfl

/-- A call of `read_token_` stops at a place, or fails with a message about one. -/
theorem readToken_reached {t : Token} (h : Reached src cf p) (hread : readToken cf = some (t, cf')) :
    (∃ q, Reached src cf' q ∧ Stops src.content t.rc q) ∨
      ∃ e q, t.rc = .error e ∧ Located src e cf' q := by
  obtain ⟨hof, hline, d, rfl, g⟩ := h
  simp only [readToken, Option.bind_eq_bind, Option.bind_eq_some_iff, Option.some.injEq,
    Prod.exists, Prod.mk.injEq] at hread
  obtain ⟨rc, cf₁, s, hrun, rfl, rfl⟩ := hread
  have hl : ((Scan.init cf.buffer.pos cf.line).shift d).Lined src (d + cf.buffer.pos) :=
    ⟨hline, hline, .of_none rfl, fun q hq => absurd hq.symm (Option.some_ne_none q)⟩
  obtain ⟨hof₁, hends⟩ := readLoop_callEnds g hof hl hrun
  cases hends with
  | stops g₁ hline₁ hstops =>
    refine .inl ⟨_, ⟨hof₁, hline₁, _, rfl, ⟨g₁.bounded.pos_le, g₁.bounded.last_le⟩, le_rfl,
      g₁.mem, ?_⟩, hstops⟩
    cases g₁.rest with
    | none h h' => exact .none h h'
    | file h h' h'' hr => exact .file h h' h'' hr
  | fails hrc habout hline₁ => exact .inr ⟨_, _, hrc, hof₁, habout, hline₁⟩

/-- The last byte that has been read is one of a list, and no line feed. -/
def Behind (src : Source) (cf : ConfFile) (chs : List Byte) : Prop :=
  ∃ p ch, Reached src cf (p + 1) ∧ src.content[p]? = some ch ∧ ch ∈ chs ∧ ch ≠ lf

theorem Behind.mono {chs chs' : List Byte} (h : Behind src cf chs) (hsub : chs ⊆ chs') :
    Behind src cf chs' := by
  obtain ⟨p, ch, hp, hget, hmem, hne⟩ := h
  exact ⟨p, ch, hp, hget, hsub hmem, hne⟩

theorem Behind.of {chs : List Byte} (h : Behind src cf chs) : cf.Of src := by
  obtain ⟨p, ch, hp, -⟩ := h
  exact hp.of

theorem Behind.line {chs : List Byte} (h : Behind src cf chs) :
    ∃ p ch, src.content[p]? = some ch ∧ ch ∈ chs ∧ src.content.length - cf.remaining = p + 1 ∧
      cf.line = src.line p := by
  obtain ⟨p, ch, hp, hget, hmem, hne⟩ := h
  exact ⟨p, ch, hget, hmem, hp.read, hp.line.trans (Source.line_succ_of_ne hget hne)⟩

theorem Behind.located {e : ConfError} (h : Behind src cf e.culprits) :
    ∃ p, Located src e cf p := by
  obtain ⟨p, ch, hget, hmem, hread, hline⟩ := h.line
  refine ⟨p, h.of, ?_, hline⟩
  rw [hread]
  exact .byte hget hmem

theorem Stops.behind (h : Stops src.content rc p) (hp : Reached src cf p) (hrc : ¬ rc.AtEnd) :
    Behind src cf rc.culprits := by
  cases h with
  | byte hget hmem hne => exact ⟨_, _, hp, hget, hmem, hne⟩
  | atEnd hend => exact absurd hend hrc

theorem Reached.located {e : ConfError} (h : Reached src cf src.content.length) (he : e.AtEnd) :
    Located src e cf src.content.length := by
  refine ⟨h.of, ?_, h.line⟩
  rw [h.read]
  exact .atEnd he

theorem Stops.located {e : ConfError} (h : Stops src.content (.error e) p)
    (hp : Reached src cf p) : ∃ q, Located src e cf q := by
  cases h with
  | byte hget hmem hne => exact Behind.located ⟨_, _, hp, hget, hmem, hne⟩
  | atEnd hend => exact ⟨_, hp.located hend⟩

theorem Stops.eq_length (h : Stops src.content .fileDone p) : p = src.content.length := by
  cases h with
  | byte _ hmem _ => cases hmem
  | atEnd _ => rfl

end Read

end Lingx.Conf

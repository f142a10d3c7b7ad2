import Lingx.Conf.Bounds

/-! The windowed scan refines the scan of the whole text. The memory of the buffer is a
window on the text, whose distance grows with each refill; turns depend only on the bytes
from the start of the word on, which a refill keeps, so both scans take the same turns. -/

namespace Lingx.Conf

variable {content : Bytes} {cf cf' : ConfFile} {s s' : Scan} {d : ℕ}

section Shift

variable {mem mem' : ℕ → Byte} {pos : ℕ} {ch : Byte}

/-- The state for a memory that begins `d` bytes earlier. -/
def Scan.shift (d : ℕ) (s : Scan) : Scan := { s with start := d + s.start }

def Turn.shift (d : ℕ) : Turn → Turn
  | .next s => .next (s.shift d)
  | .ret rc s => .ret rc (s.shift d)

def Copy.shift (d : ℕ) (c : Copy) : Copy := { c with src := d + c.src }

theorem copyByte_shift {c : Copy} (h₀ : mem' (d + c.src) = mem c.src)
    (h₁ : mem' (d + (c.src + 1)) = mem (c.src + 1)) :
    copyByte mem' (c.shift d) = (copyByte mem c).shift d := by
  simp only [copyByte, Copy.shift, h₀, Nat.add_assoc, h₁]
  split_ifs <;> simp only [Copy.put, Nat.add_assoc]

theorem copyByte_src (mem : ℕ → Byte) (c : Copy) : c.src < (copyByte mem c).src := by
  simp only [copyByte]
  split_ifs <;> simp only [Copy.put] <;> omega

theorem copyLoop_shift {c : Copy} {last k : ℕ}
    (hm : ∀ i, c.src ≤ i → i ≤ last → mem' (d + i) = mem i) :
    copyLoop mem' (d + last) k (c.shift d) = (copyLoop mem last k c).shift d := by
  induction k generalizing c with
  | zero => rfl
  | succ k ih =>
    have hlt : (c.shift d).src < d + last ↔ c.src < last := by
      simp only [Copy.shift]
      omega
    simp only [copyLoop, hlt]
    split_ifs with h
    · rw [copyByte_shift (hm _ le_rfl (by omega)) (hm _ (by omega) (by omega))]
      exact ih fun i hi => hm i (by have := copyByte_src mem c; omega)
    · rfl

theorem copyWord_shift {start : ℕ} (hm : ∀ i, start ≤ i → i ≤ pos → mem' (d + i) = mem i) :
    copyWord mem' (d + start) (d + pos) = copyWord mem start pos := by
  have hlen : d + pos - (d + start) = pos - start := by omega
  have h := copyLoop_shift (c := ⟨start, 0, List.replicate (pos - start) 0⟩) (k := pos - start) hm
  rw [copyWord, hlen]
  exact congrArg (·.word) h

theorem countLine_shift : countLine ch (s.shift d) = (countLine ch s).shift d := by
  simp only [countLine]
  split_ifs <;> rfl

theorem startWord_shift : startWord (d + pos) ch (s.shift d) = (startWord pos ch s).shift d := by
  have hargs : (s.shift d).args = s.args := rfl
  -- both sides make the same decisions, so the shift goes into the branches
  simp only [startWord, hargs, apply_ite (Turn.shift d)]
  rfl

theorem endWord_shift (ch : Byte) (s : Scan) (d : ℕ) :
    endWord ch (s.shift d) = (endWord ch s).map (Scan.shift d) := by
  have hd : (s.shift d).dQuoted = s.dQuoted := rfl
  have hs : (s.shift d).sQuoted = s.sQuoted := rfl
  simp only [endWord, hd, hs]
  split_ifs <;> rfl

theorem wordFound_shift (hm : ∀ i, s.start ≤ i → i ≤ pos → mem' (d + i) = mem i) :
    wordFound mem' (d + pos) ch (s.shift d) = (wordFound mem pos ch s).shift d := by
  have hword := copyWord_shift hm
  simp only [wordFound, Scan.shift, hword]
  split_ifs <;> rfl

theorem inWord_shift (hm : ∀ i, s.start ≤ i → i ≤ pos → mem' (d + i) = mem i) :
    inWord mem' (d + pos) ch (s.shift d) = (inWord mem pos ch s).shift d := by
  have hend := endWord_shift ch { s with variable_ := false } d
  have hvar : { s.shift d with variable_ := false } =
    Scan.shift d { s with variable_ := false } := rfl
  have hflag : (s.shift d).variable_ = s.variable_ := rfl
  simp only [inWord, hvar, hend, hflag]
  split_ifs
  · rfl
  · rfl
  · rfl
  · cases hw : endWord ch { s with variable_ := false } with
    | none => rfl
    | some s' =>
      have hstart := endWord_start hw
      dsimp only at hstart
      exact wordFound_shift (by rw [hstart]; exact hm)

theorem scanByte_shift (hm : ∀ i, s.start ≤ i → i ≤ pos → mem' (d + i) = mem i) :
    scanByte mem' (d + pos) ch (s.shift d) = (scanByte mem pos ch s).shift d := by
  have hflag : (s.shift d).lastSpace = s.lastSpace := rfl
  simp only [scanByte, hflag]
  split_ifs
  · exact startWord_shift
  · exact inWord_shift hm

theorem afterQuote_shift (hm : ∀ i, s.start ≤ i → i ≤ pos → mem' (d + i) = mem i) :
    afterQuote mem' (d + pos) ch (s.shift d) = (afterQuote mem pos ch s).shift d := by
  simp only [afterQuote]
  split_ifs
  · rfl
  · rfl
  · rfl
  · exact scanByte_shift (s := { s with lastSpace := true, needSpace := false }) hm
  · rfl

/-- A turn depends on the memory from the start of the word on only. -/
theorem turn_shift (hs : s.start ≤ pos)
    (hm : ∀ i, s.start ≤ i → i ≤ pos → mem' (d + i) = mem i) :
    turn mem' (d + pos) (s.shift d) = (turn mem pos s).shift d := by
  have hch := hm pos hs le_rfl
  have hm' : ∀ i, (countLine (mem pos) s).start ≤ i → i ≤ pos → mem' (d + i) = mem i := by
    rw [countLine_start]
    exact hm
  have hcomment : ((countLine (mem pos) s).shift d).sharpComment =
    (countLine (mem pos) s).sharpComment := rfl
  have hquoted : ((countLine (mem pos) s).shift d).quoted = (countLine (mem pos) s).quoted := rfl
  have hneed : ((countLine (mem pos) s).shift d).needSpace =
    (countLine (mem pos) s).needSpace := rfl
  simp only [turn, hch, countLine_shift, hcomment, hquoted, hneed]
  split_ifs
  · rfl
  · rfl
  · exact afterQuote_shift hm'
  · exact scanByte_shift hm'

end Shift

/-- The reads return the bytes of the file that are asked for. -/
def Reads (content : Bytes) (pread : ℕ → ℕ → Option Bytes) : Prop :=
  ∀ len off, off + len ≤ content.length → pread len off = some ((content.drop off).take len)

/-- What is still to be read behind the window: nothing, or the rest of the file. -/
inductive Rest (content : Bytes) (cf : ConfFile) (d : ℕ) : Prop
  | none : cf.file.stSize ≤ cf.file.offset → content.length = d + cf.buffer.last →
      Rest content cf d
  | file : cf.file.stSize = content.length → cf.file.offset = d + cf.buffer.last →
      cf.file.offset ≤ content.length → Reads content cf.file.pread → Rest content cf d

/-- The memory from `start` on is a window on the text, `d` bytes from its beginning. -/
structure Covers (content : Bytes) (cf : ConfFile) (d start : ℕ) : Prop where
  bounded : cf.Bounded
  start_le : start ≤ cf.buffer.pos
  mem : ∀ i, start ≤ i → i < cf.buffer.last → content.getD (d + i) 0 = cf.buffer.mem i
  rest : Rest content cf d

theorem Covers.le_length {start : ℕ} (g : Covers content cf d start) :
    d + cf.buffer.last ≤ content.length := by
  cases g.rest with
  | none _ h => exact h.ge
  | file _ h h' _ => omega

theorem Covers.remaining {start : ℕ} (g : Covers content cf d start) :
    cf.remaining = content.length - (d + cf.buffer.pos) := by
  have := g.bounded.pos_le
  rw [ConfFile.remaining]
  cases g.rest with
  | none h h' => omega
  | file h h' h'' _ => omega

/-- The beginning of an iteration under a window: the same byte of the text is next, or
the text is at its end, or the part from the start of the word on fills the buffer. -/
inductive Follows (content : Bytes) (cf : ConfFile) (s : Scan) (d : ℕ) : Refill → Prop
  | more {cf' : ConfFile} {s' : Scan} {d' : ℕ} : Covers content cf' d' s'.start →
      cf'.buffer.pos < cf'.buffer.last → s'.shift d' = s.shift d →
      d' + cf'.buffer.pos = d + cf.buffer.pos → cf'.file.fd = cf.file.fd →
      Follows content cf s d (.more cf' s')
  | done : content.length = d + cf.buffer.pos →
      Follows content cf s d (.ret (endOfInput cf.file.fd s) cf s)
  | tooLong {e : ConfError} {cf' : ConfFile} {s' : Scan} : e.TooLong →
      cf.buffer.pos = s.start + MAX_CONF_BUFFER → d + cf.buffer.pos < content.length →
      Follows content cf s d (.ret (.error e) cf' s')

theorem tooLong_tooLong (mem : ℕ → Byte) (s : Scan) : (tooLong mem s).TooLong := by
  rw [tooLong]
  split_ifs <;> trivial

/-- A refill keeps the part from the start of the word on, and puts the next bytes of the
file behind it. -/
theorem readMore_follows (g : Covers content cf d s.start)
    (hend : cf.buffer.pos = cf.buffer.last) (hsize : cf.file.stSize = content.length)
    (hoff : cf.file.offset = d + cf.buffer.last) (hlt : cf.file.offset < content.length)
    (hreads : Reads content cf.file.pread) (hlen : cf.buffer.pos - s.start < MAX_CONF_BUFFER) :
    Follows content cf s d
      (readMore cf (moveToFront cf.buffer.mem s.start (cf.buffer.pos - s.start))
        (cf.buffer.pos - s.start) s) := by
  obtain ⟨hbend, hmax⟩ := g.bounded.last_le (by omega)
  have hstart := g.start_le
  obtain ⟨len, hlen'⟩ : ∃ len, len = cf.buffer.pos - s.start := ⟨_, rfl⟩
  obtain ⟨size, hsz⟩ : ∃ size,
      size = min (cf.file.stSize - cf.file.offset) (cf.buffer.bend - len) := ⟨_, rfl⟩
  have hread := hreads size cf.file.offset (by omega)
  have hdata : ((content.drop cf.file.offset).take size).length = size := by
    simp only [List.length_take, List.length_drop]
    omega
  rw [← hlen', readMore, File.read, ← hsz, hread]
  dsimp only
  rw [if_neg fun h => h hdata]
  refine @Follows.more content cf s d _ _ (d + s.start)
    ⟨⟨?_, fun _ => ⟨?_, hmax⟩⟩, Nat.zero_le len, ?_, ?_⟩ ?_ ?_ ?_ rfl
  · exact Nat.le_add_right _ _
  · show len + ((content.drop cf.file.offset).take size).length ≤ cf.buffer.bend
    omega
  · intro i _ hi
    have hi : i < len + size := by
      have : i < len + ((content.drop cf.file.offset).take size).length := hi
      omega
    show content.getD (d + s.start + i) 0 = _
    simp only [writeAt, moveToFront]
    by_cases hil : len ≤ i
    · have hplace : cf.file.offset + (i - len) = d + s.start + i := by omega
      rw [if_pos hil, List.getElem?_take_of_lt (by omega), List.getElem?_drop, hplace]
      simp [List.getElem?_eq_getElem (show d + s.start + i < content.length by omega)]
    · rw [if_neg hil, if_pos (by omega), ← g.mem (s.start + i) (by omega) (by omega), Nat.add_assoc]
  · refine .file hsize ?_ ?_ hreads
    · show cf.file.offset + _ = d + s.start + (len + _)
      omega
    · show cf.file.offset + ((content.drop cf.file.offset).take size).length ≤ content.length
      omega
  · show len < len + ((content.drop cf.file.offset).take size).length
    omega
  · simp [Scan.shift]
  · show d + s.start + len = d + cf.buffer.pos
    omega

theorem fill_follows (g : Covers content cf d s.start) : Follows content cf s d (fill cf s) := by
  have hpos := g.bounded.pos_le
  have hstart := g.start_le
  rw [fill]
  by_cases hend : cf.buffer.last ≤ cf.buffer.pos
  · have hlast : cf.buffer.pos = cf.buffer.last := le_antisymm hpos hend
    rw [if_pos hend, refill]
    cases g.rest with
    | none hoff hlen =>
      rw [if_pos hoff]
      exact .done (by omega)
    | file hsize hoff hle hreads =>
      by_cases hrest : cf.file.stSize ≤ cf.file.offset
      · rw [if_pos hrest]
        exact .done (by omega)
      · rw [if_neg hrest]
        dsimp only
        obtain ⟨hbend, hmax⟩ := g.bounded.last_le (by omega)
        by_cases hlen : cf.buffer.pos - s.start = MAX_CONF_BUFFER
        · rw [if_pos hlen]
          exact .tooLong (tooLong_tooLong _ s) (by omega) (by omega)
        · rw [if_neg hlen]
          exact readMore_follows g hlast hsize hoff (by omega) hreads (by omega)
  · rw [if_neg hend]
    exact .more g (by omega) rfl rfl rfl

theorem scanLoop_lt {fd : ℤ} {k pos p : ℕ} {rc : Rc} (hpos : pos < content.length)
    (h : scanLoop content fd k pos s = some (rc, p, s')) : pos < p := by
  induction k generalizing pos s with
  | zero => cases h
  | succ k ih =>
    rw [scanLoop, if_neg (by omega)] at h
    split at h
    · rename_i s₁ _
      by_cases hnext : pos + 1 < content.length
      · exact (Nat.lt_succ_self pos).trans (ih hnext h)
      · cases k with
        | zero => cases h
        | succ k =>
          rw [scanLoop, if_pos (by omega)] at h
          cases h
          omega
    · cases h
      omega

theorem Covers.mono {start start' : ℕ} (g : Covers content cf d start) (h : start ≤ start')
    (h' : start' ≤ cf.buffer.pos) : Covers content cf d start' :=
  ⟨g.bounded, h', fun i hi => g.mem i (h.trans hi), g.rest⟩

theorem Covers.setPos {start start' : ℕ} (g : Covers content cf d start)
    (hlt : cf.buffer.pos < cf.buffer.last) (h : start ≤ start') (h' : start' ≤ cf.buffer.pos + 1) :
    Covers content (cf.setPos (cf.buffer.pos + 1)) d start' where
  bounded := ⟨hlt, g.bounded.last_le⟩
  start_le := h'
  mem i hi := g.mem i (h.trans hi)
  rest := match g.rest with
    | .none h h' => .none h h'
    | .file h h' h'' hr => .file h h' h'' hr

/-- Both scans take the same turns, up to a part that fills the buffer. -/
theorem readLoop_scanLoop {k K : ℕ} {rc : Rc} (g : Covers content cf d s.start)
    (h : readLoop k cf s = some (rc, cf', s'))
    (hK : content.length - (d + cf.buffer.pos) < K) :
    (∃ d', Covers content cf' d' cf'.buffer.pos ∧ scanLoop content cf.file.fd K
        (d + cf.buffer.pos) (s.shift d) = some (rc, d' + cf'.buffer.pos, s'.shift d')) ∨
      ((∃ e, rc = .error e ∧ e.TooLong) ∧ ∀ rc p s'',
        scanLoop content cf.file.fd K (d + cf.buffer.pos) (s.shift d) = some (rc, p, s'') →
          d + s.start + MAX_CONF_BUFFER < p) := by
  induction k generalizing cf s d K with
  | zero => cases h
  | succ k ih =>
    obtain ⟨K, rfl⟩ : ∃ K', K = K' + 1 := ⟨K - 1, by omega⟩
    have hfill := fill_follows g
    rw [readLoop] at h
    cases hf : fill cf s with
    | ret rc₁ cf₁ s₁ =>
      rw [hf] at h hfill
      cases h
      cases hfill with
      | done hlen =>
        refine .inl ⟨d, g.mono g.start_le le_rfl, ?_⟩
        rw [scanLoop, if_pos (by omega)]
        rfl
      | tooLong he hlen hlt =>
        refine .inr ⟨⟨_, rfl, he⟩, fun rc p s'' hp => ?_⟩
        have := scanLoop_lt hlt hp
        omega
    | more cf₁ s₁ =>
      rw [hf] at h hfill
      cases hfill with
      | more g₁ hlt hshift hplace hfd =>
        rename_i d₁
        have hstart := g₁.start_le
        have hlen := g₁.le_length
        have hturn : turn (content.getD · 0) (d₁ + cf₁.buffer.pos) (s₁.shift d₁) = _ :=
          turn_shift hstart fun i hi hi' => g₁.mem i hi (by omega)
        have hmoves := turn_moves cf₁.buffer.mem hstart
        have hsame : d₁ + s₁.start = d + s.start := congrArg Scan.start hshift
        rw [← hshift, ← hplace, ← hfd, scanLoop, if_neg (by omega), hturn]
        cases ht : turn cf₁.buffer.mem cf₁.buffer.pos s₁ with
        | ret rc₂ s₂ =>
          dsimp only at h
          rw [ht] at h
          cases h
          exact .inl ⟨d₁, g₁.setPos hlt (Nat.le_succ_of_le hstart) le_rfl, rfl⟩
        | next s₂ =>
          dsimp only at h
          rw [ht] at h hmoves
          obtain ⟨hle, hle'⟩ := hmoves
          have hnext := ih (K := K) (g₁.setPos hlt hle hle') h (by
            show content.length - (d₁ + (cf₁.buffer.pos + 1)) < K
            omega)
          rcases hnext with hsome | ⟨htoo, hall⟩
          · exact .inl hsome
          · refine .inr ⟨htoo, fun rc p s'' hp => ?_⟩
            have := hall rc p s'' hp
            omega

section Lines

/-- The line feeds of a text. -/
def newlines (text : Bytes) : ℕ := text.count lf

theorem newlines_take_succ {pos : ℕ} (h : pos < content.length) :
    newlines (content.take (pos + 1)) =
      newlines (content.take pos) + if content.getD pos 0 = lf then 1 else 0 := by
  rw [List.take_add_one, List.getElem?_eq_getElem h, newlines, newlines, List.count_append]
  simp [h, List.count_singleton]

/-- The line of a state behind `pos` bytes of the text. -/
def OnLine (content : Bytes) (pos : ℕ) (line : UInt32) : Prop :=
  line = 1 + UInt32.ofNat (newlines (content.take pos))

def Turn.scan : Turn → Scan
  | .next s => s
  | .ret _ s => s

theorem startWord_line (pos : ℕ) (ch : Byte) (s : Scan) :
    (startWord pos ch s).scan.line = s.line := by
  simp only [startWord, apply_ite Turn.scan, apply_ite Scan.line]
  simp only [Turn.scan, ite_self]

theorem endWord_line {ch : Byte} (h : endWord ch s = some s') : s'.line = s.line := by
  simp only [endWord] at h
  split_ifs at h <;> cases h <;> rfl

theorem inWord_line (mem : ℕ → Byte) (pos : ℕ) (ch : Byte) (s : Scan) :
    (inWord mem pos ch s).scan.line = s.line := by
  simp only [inWord]
  split_ifs
  · rfl
  · rfl
  · rfl
  · split
    · rfl
    · rename_i s' hs'
      have hline := endWord_line hs'
      dsimp only at hline
      simp only [wordFound]
      split_ifs <;> exact hline

theorem scanByte_line (mem : ℕ → Byte) (pos : ℕ) (ch : Byte) (s : Scan) :
    (scanByte mem pos ch s).scan.line = s.line := by
  rw [scanByte]
  split_ifs
  · exact startWord_line pos ch s
  · exact inWord_line mem pos ch s

theorem afterQuote_line (mem : ℕ → Byte) (pos : ℕ) (ch : Byte) (s : Scan) :
    (afterQuote mem pos ch s).scan.line = s.line := by
  rw [afterQuote]
  split_ifs
  · rfl
  · rfl
  · rfl
  · exact scanByte_line mem pos ch _
  · rfl

theorem turn_line (mem : ℕ → Byte) (pos : ℕ) (s : Scan) :
    (turn mem pos s).scan.line = s.line + if mem pos = lf then 1 else 0 := by
  have hcount : (countLine (mem pos) s).line = s.line + if mem pos = lf then 1 else 0 := by
    rw [countLine]
    split_ifs <;> simp
  rw [← hcount]
  simp only [turn]
  split_ifs
  · rfl
  · rfl
  · exact afterQuote_line mem pos _ _
  · exact scanByte_line mem pos _ _

theorem OnLine.turn {pos : ℕ} (h : OnLine content pos s.line) (hpos : pos < content.length) :
    OnLine content (pos + 1) (turn (content.getD · 0) pos s).scan.line := by
  rw [turn_line, h, OnLine, newlines_take_succ hpos]
  split_ifs <;> simp [UInt32.ofNat_add, add_assoc]

theorem OnLine.scanLoop {fd : ℤ} {k pos p : ℕ} {rc : Rc} (hpos : pos ≤ content.length)
    (hl : OnLine content pos s.line) (h : scanLoop content fd k pos s = some (rc, p, s')) :
    p ≤ content.length ∧ OnLine content p s'.line := by
  induction k generalizing pos s with
  | zero => cases h
  | succ k ih =>
    rw [Conf.scanLoop] at h
    by_cases hend : content.length ≤ pos
    · rw [if_pos hend] at h
      cases h
      exact ⟨hpos, hl⟩
    · rw [if_neg hend] at h
      have hturn := hl.turn (Nat.lt_of_not_le hend)
      split at h
      · rename_i s₁ ht
        rw [ht] at hturn
        exact ih (by omega) hturn h
      · rename_i rc₁ s₁ ht
        rw [ht] at hturn
        cases h
        exact ⟨by omega, hturn⟩

end Lines

theorem scanLoop_isSome (fd : ℤ) {k pos : ℕ} (hk : content.length - pos < k) (s : Scan) :
    (scanLoop content fd k pos s).isSome := by
  induction k generalizing pos s with
  | zero => omega
  | succ k ih =>
    rw [scanLoop]
    split_ifs
    · rfl
    · split
      · exact ih (by omega) _
      · rfl

def Token.TooLong (t : Token) : Prop := ∃ e, t.rc = .error e ∧ e.TooLong

/-- A call on a window returns what the scan of the text does, unless that takes more than
the buffer holds. -/
theorem readToken_scanToken (g : Covers content cf d cf.buffer.pos) :
    ∃ t cf' u p, readToken cf = some (t, cf') ∧
      scanToken content cf.file.fd (d + cf.buffer.pos) cf.line = some (u, p) ∧
      cf'.file.fd = cf.file.fd ∧ cf'.Bounded ∧
      ((t = u ∧ cf'.line = u.line ∧ ∃ d', d' + cf'.buffer.pos = p ∧
          Covers content cf' d' cf'.buffer.pos) ∨
        (t.TooLong ∧ d + cf.buffer.pos + MAX_CONF_BUFFER < p)) := by
  obtain ⟨rc, cf', s', hrun, hsc⟩ := readLoop_scanned (s := Scan.init cf.buffer.pos cf.line)
    g.bounded le_rfl (Nat.lt_succ_self cf.remaining)
  obtain ⟨⟨rc₂, p, s₂⟩, hscan⟩ := Option.isSome_iff_exists.mp (scanLoop_isSome cf.file.fd
    (Nat.lt_succ_self (content.length - (d + cf.buffer.pos)))
    (Scan.init (d + cf.buffer.pos) cf.line))
  have hboth := readLoop_scanLoop (s := Scan.init cf.buffer.pos cf.line) g hrun
    (Nat.lt_succ_self _)
  refine ⟨s'.token rc, { cf' with line := s'.line }, s₂.token rc₂, p, ?_, ?_, hsc.fd,
    ⟨hsc.bounded.pos_le, hsc.bounded.last_le⟩, ?_⟩
  · rw [readToken, hrun]
    rfl
  · rw [scanToken, hscan]
    rfl
  · rcases hboth with ⟨d', g', heq⟩ | ⟨⟨e, rfl, he⟩, hall⟩
    · obtain ⟨rfl, hp⟩ := Prod.mk.inj (Option.some.inj (hscan.symm.trans heq))
      obtain ⟨rfl, rfl⟩ := Prod.mk.inj hp
      exact .inl ⟨rfl, rfl, d', rfl, ⟨⟨g'.bounded.pos_le, g'.bounded.last_le⟩, le_rfl, g'.mem,
        match g'.rest with
        | .none h h' => .none h h'
        | .file h h' h'' hr => .file h h' h'' hr⟩⟩
    · exact .inr ⟨⟨e, rfl, he⟩, hall _ _ _ hscan⟩

theorem readTokens_isSome (n : ℕ) (g : cf.Bounded) : (readTokens n cf).isSome := by
  induction n generalizing cf with
  | zero => rfl
  | succ n ih =>
    obtain ⟨rc, cf', s', hrun, hsc⟩ := readLoop_scanned (s := Scan.init cf.buffer.pos cf.line) g
      le_rfl (Nat.lt_succ_self cf.remaining)
    have hread : readToken cf = some (s'.token rc, { cf' with line := s'.line }) := by
      rw [readToken, hrun]
      rfl
    have hbounded : ({ cf' with line := s'.line } : ConfFile).Bounded :=
      ⟨hsc.bounded.pos_le, hsc.bounded.last_le⟩
    obtain ⟨ts, hts⟩ := Option.isSome_iff_exists.mp (ih hbounded)
    simp [readTokens, hread, hts]

theorem scanTokens_isSome (content : Bytes) (fd : ℤ) (n pos : ℕ) (line : UInt32) :
    (scanTokens content fd n pos line).isSome := by
  induction n generalizing pos line with
  | zero => rfl
  | succ n ih =>
    obtain ⟨⟨rc, p, s⟩, hscan⟩ := Option.isSome_iff_exists.mp (scanLoop_isSome fd
      (Nat.lt_succ_self (content.length - pos)) (Scan.init pos line))
    have htoken : scanToken content fd pos line = some (s.token rc, p) := by
      rw [scanToken, hscan]
      rfl
    obtain ⟨us, hus⟩ := Option.isSome_iff_exists.mp (ih p (s.token rc).line)
    simp [scanTokens, htoken, hus]

/-- The calls on a window return what those of the scan of the text do, up to the first
one that fails with a too long parameter. -/
theorem readTokens_take {n : ℕ} {ts us : List (Token × ℕ)}
    (g : Covers content cf d cf.buffer.pos) (hts : readTokens n cf = some ts)
    (hus : scanTokens content cf.file.fd n (d + cf.buffer.pos) cf.line = some us) (i : ℕ)
    (hi : ∀ t ∈ ts.take i, ¬ t.1.TooLong) : ts.take i = us.take i := by
  induction n generalizing cf d ts us i with
  | zero =>
    cases hts
    cases hus
    rfl
  | succ n ih =>
    obtain ⟨t, cf', u, p, hread, hscan, hfd, -, hboth⟩ := readToken_scanToken g
    simp only [readTokens, hread, scanTokens, hscan, Option.bind_eq_bind, Option.bind_some,
      Option.bind_eq_some_iff, Option.some.injEq] at hts hus
    obtain ⟨ts', hts', rfl⟩ := hts
    obtain ⟨us', hus', rfl⟩ := hus
    cases i with
    | zero => rfl
    | succ i =>
      rcases hboth with ⟨rfl, hline, d', rfl, g'⟩ | ⟨htoo, -⟩
      · rw [← hline, ← hfd] at hus'
        rw [List.take_succ_cons, List.take_succ_cons, g'.remaining,
          ih g' hts' hus' i fun t ht => hi t (List.mem_cons_of_mem _ ht)]
      · exact absurd htoo (hi _ List.mem_cons_self)

theorem scanTokens_line {fd : ℤ} {n pos : ℕ} {line : UInt32} {us : List (Token × ℕ)}
    (hpos : pos ≤ content.length) (hl : OnLine content pos line)
    (h : scanTokens content fd n pos line = some us) :
    ∀ u ∈ us, OnLine content (content.length - u.2) u.1.line := by
  induction n generalizing pos line us with
  | zero =>
    cases h
    simp
  | succ n ih =>
    simp only [scanTokens, scanToken, Option.bind_eq_bind, Option.bind_eq_some_iff,
      Option.some.injEq, Prod.exists, Prod.mk.injEq] at h
    obtain ⟨t, p, ⟨rc, p', s, hscan, rfl, rfl⟩, us', hus', rfl⟩ := h
    obtain ⟨hp, hline⟩ := hl.scanLoop hpos hscan
    refine List.forall_mem_cons.mpr ⟨?_, ih hp hline hus'⟩
    rwa [Nat.sub_sub_self hp]

theorem covers_opened (fd : ℤ) (name : Bytes) {pread : ℕ → ℕ → Option Bytes}
    (hread : Reads content pread) :
    Covers content (.opened fd name content.length pread) 0 0 where
  bounded := ConfFile.bounded_opened fd name _ pread
  start_le := le_rfl
  mem _ _ hi := absurd hi (Nat.not_lt_zero _)
  rest := .file rfl rfl (Nat.zero_le _) hread

theorem covers_param (text : Bytes) : Covers text (.param text) 0 0 where
  bounded := ConfFile.bounded_param text
  start_le := le_rfl
  mem i _ _ := by simp [ConfFile.param]
  rest := .none le_rfl (by simp [ConfFile.param])

/-- Every sequence of calls on a file returns what the scan of its whole content does, up to
the first call that fails with a too long parameter, and counts the line feeds. -/
theorem readTokens_scanTokens (content : Bytes) (fd : ℤ) (name : Bytes)
    (pread : ℕ → ℕ → Option Bytes) (hread : Reads content pread) (n : ℕ) :
    ∃ ts us, readTokens n (.opened fd name content.length pread) = some ts ∧
      scanTokens content fd n 0 1 = some us ∧
      (∀ i, (∀ t ∈ ts.take i, ¬ t.1.TooLong) → ts.take i = us.take i) ∧
      ∀ u ∈ us, u.1.line = 1 + UInt32.ofNat (newlines (content.take (content.length - u.2))) := by
  have g := covers_opened fd name hread
  obtain ⟨ts, hts⟩ := Option.isSome_iff_exists.mp (readTokens_isSome n g.bounded)
  obtain ⟨us, hus⟩ := Option.isSome_iff_exists.mp (scanTokens_isSome content fd n 0 1)
  exact ⟨ts, us, hts, hus, readTokens_take g hts hus,
    scanTokens_line (Nat.zero_le _) rfl hus⟩

theorem reads_readFrom (content : Bytes) : Reads content (readFrom content) := fun _ _ _ => rfl

/-- A directive, a comment, and a word that is not ended. -/
theorem readTokens_scanTokens_two :
    ∃ us, scanTokens (ascii "a;#\nb") 3 2 0 1 = some us ∧
      [(⟨.ok, [ascii "a"], 1⟩, 3), (⟨.error .unexpectedEndOfFile, [], 2⟩, 0)] = us.take 2 := by
  obtain ⟨ts, us, hts, hus, htake, -⟩ := readTokens_scanTokens (ascii "a;#\nb") 3 []
    (readFrom (ascii "a;#\nb")) (reads_readFrom _) 2
  have hread : readTokens 2 (.opened 3 [] (ascii "a;#\nb").length (readFrom (ascii "a;#\nb"))) =
      some [(⟨.ok, [ascii "a"], 1⟩, 3), (⟨.error .unexpectedEndOfFile, [], 2⟩, 0)] := by decide
  obtain rfl := Option.some.inj (hread.symm.trans hts)
  refine ⟨us, hus, htake 2 fun t ht => ?_⟩
  rintro ⟨e, he, htoo⟩
  rcases List.mem_pair.mp ht with rfl | rfl
  · cases he
  · cases he
    exact htoo

end Lingx.Conf

import Lingx.Conf.Words

/-! The lexical structure of a configuration, read off its bytes alone: parameters, the
white space and the comments between them, and the ends of the calls of `read_token_`.
The scan follows it, byte by byte. -/

namespace Lingx.Conf

/-- The byte ends a parameter. -/
def Quoting.ends : Quoting → Byte → Bool
  | .bare, ch => isSpace ch || ch = semicolon || ch = lbrace
  | .double, ch => ch = dquote
  | .single, ch => ch = squote

/-- Where in the text a byte stands. -/
inductive Place where
  | between
  | comment
  | word (q : Quoting) (escaped variable_ : Bool)
  | behind
  | stopped
  deriving DecidableEq, Repr

def Place.inWord : Place → Bool
  | .word _ _ _ => true
  | _ => false

def Place.quoting : Place → Option Quoting
  | .word q _ _ => some q
  | _ => none

def Place.escaped : Place → Bool
  | .word _ e _ => e
  | _ => false

def Place.variable_ : Place → Bool
  | .word _ _ v => v
  | _ => false

/-- The place of a byte, with whether the call has a parameter already, and the number of
bytes since the call, or the last parameter or comment in it, began. -/
structure Lexer where
  place : Place := .between
  args : Bool := false
  since : ℕ := 0
  deriving DecidableEq, Repr

namespace Lexer

/-- A call begins. -/
def start : Lexer := {}

/-- A call fails. -/
def stop (l : Lexer) : Lexer := { l with place := .stopped }

/-- A byte between parameters. -/
def between (l : Lexer) (ch : Byte) : Lexer :=
  if isSpace ch then { l with since := l.since + 1 }
  else if ch = semicolon ∨ ch = lbrace then if l.args then start else l.stop
  else if ch = rbrace then if l.args then l.stop else start
  else if ch = sharp then { l with place := .comment, since := 1 }
  else if ch = backslash then { l with place := .word .bare true false, since := 1 }
  else if ch = dquote then { l with place := .word .double false false, since := 0 }
  else if ch = squote then { l with place := .word .single false false, since := 0 }
  else { l with place := .word .bare false false, since := 1 }

/-- A byte behind the first of a parameter. -/
def word (l : Lexer) (q : Quoting) (escaped variable_ : Bool) (ch : Byte) : Lexer :=
  let l := { l with since := l.since + 1 }
  if escaped then { l with place := .word q false variable_ }
  else if ch = lbrace ∧ variable_ then l
  else if ch = backslash then { l with place := .word q true false }
  else if ch = dollar then { l with place := .word q false true }
  else if Quoting.ends q ch then
    if q ≠ .bare then { l with place := .behind, args := true }
    else if isSpace ch then { l with place := .between, args := true }
    else start
  else { l with place := .word q false false }

/-- A byte behind a closing quote. -/
def behind (l : Lexer) (ch : Byte) : Lexer :=
  if isSpace ch then { l with place := .between, since := l.since + 1 }
  else if ch = semicolon ∨ ch = lbrace then start
  else if ch = rparen then between { l with place := .between } ch
  else l.stop

def step (l : Lexer) (ch : Byte) : Lexer :=
  match l.place with
  | .between => l.between ch
  | .comment => { l with place := if ch = lf then .between else .comment, since := l.since + 1 }
  | .word q escaped variable_ => l.word q escaped variable_ ch
  | .behind => l.behind ch
  | .stopped => l

end Lexer

/-- The state of the lexer in front of a byte of the text. -/
def lexAt (content : Bytes) (pos : ℕ) : Lexer := (content.take pos).foldl Lexer.step .start

theorem lexAt_succ {content : Bytes} {pos : ℕ} (h : pos < content.length) :
    lexAt content (pos + 1) = (lexAt content pos).step (content.getD pos 0) := by
  rw [lexAt, List.take_add_one, List.getElem?_eq_getElem h, List.foldl_append]
  simp [lexAt, h]

/-- The scan is where the lexer is. -/
structure Agrees (l : Lexer) (s : Scan) (pos : ℕ) : Prop where
  live : l.place ≠ .stopped
  needSpace : s.needSpace = decide (l.place = .behind)
  lastSpace : s.lastSpace = decide (l.place = .between ∨ l.place = .comment)
  sharpComment : s.sharpComment = decide (l.place = .comment)
  variable_ : s.variable_ = l.place.variable_
  quoted : s.quoted = l.place.escaped
  sQuoted : s.sQuoted = decide (l.place.quoting = some .single)
  dQuoted : s.dQuoted = decide (l.place.quoting = some .double)
  args : l.args = !s.args.isEmpty
  since : pos = s.start + l.since

/-- What a turn leaves agrees with the lexer: a state, the end of a call, or a failure. -/
def Turn.Agrees (l : Lexer) (pos : ℕ) : Turn → Prop
  | .next s => Conf.Agrees l s pos
  | .ret (.error e) _ => l.place = .stopped ∧ ¬ e.TooLong
  | .ret _ _ => l = .start

theorem agrees_init (pos : ℕ) (line : UInt32) : Agrees .start (Scan.init pos line) pos := by
  constructor <;> simp [Lexer.start, Scan.init, Place.variable_, Place.escaped, Place.quoting]

section Step
variable {l : Lexer} {s : Scan} {pos : ℕ} {mem : ℕ → Byte} {ch : Byte}

theorem startWord_agrees (h : Agrees l s pos) (hm : l.place = .between) :
    (startWord pos ch s).Agrees (l.between ch) (pos + 1) := by
  obtain ⟨hlive, h₁, h₂, h₃, h₄, h₅, h₆, h₇, hargs, hsince⟩ := h
  have hnext : pos + 1 = s.start + (l.since + 1) := by omega
  rw [hm] at h₁ h₂ h₃ h₄ h₅ h₆ h₇
  simp only [startWord, Lexer.between]
  by_cases hspace : isSpace ch = true
  · rw [if_pos hspace, if_pos hspace]
    exact ⟨hlive, hm ▸ h₁, hm ▸ h₂, hm ▸ h₃, hm ▸ h₄, hm ▸ h₅, hm ▸ h₆, hm ▸ h₇, hargs, hnext⟩
  rw [if_neg hspace, if_neg hspace]
  by_cases hend : ch = semicolon ∨ ch = lbrace
  · rw [if_pos hend, if_pos hend]
    by_cases hnil : s.args = []
    · rw [if_pos hnil, hargs, hnil]
      exact ⟨rfl, fun h => h⟩
    · rw [if_neg hnil, if_pos (by simpa [hargs] using hnil)]
      split_ifs <;> rfl
  rw [if_neg hend, if_neg hend]
  by_cases hclose : ch = rbrace
  · rw [if_pos hclose, if_pos hclose]
    by_cases hnil : s.args = []
    · rw [if_neg (not_not.mpr hnil), hargs, hnil]
      rfl
    · rw [if_pos hnil, if_pos (by simpa [hargs] using hnil)]
      exact ⟨rfl, fun h => h⟩
  rw [if_neg hclose, if_neg hclose]
  by_cases hsharp : ch = sharp
  · rw [if_pos hsharp, if_pos hsharp]
    exact ⟨by simp, h₁, h₂, rfl, h₄, h₅, h₆, h₇, hargs, rfl⟩
  rw [if_neg hsharp, if_neg hsharp]
  by_cases hback : ch = backslash
  · rw [if_pos hback, if_pos hback]
    exact ⟨by simp, h₁, rfl, h₃, h₄, rfl, h₆, h₇, hargs, rfl⟩
  rw [if_neg hback, if_neg hback]
  by_cases hdouble : ch = dquote
  · rw [if_pos hdouble, if_pos hdouble]
    exact ⟨by simp, h₁, rfl, h₃, h₄, h₅, h₆, rfl, hargs, rfl⟩
  rw [if_neg hdouble, if_neg hdouble]
  by_cases hsingle : ch = squote
  · rw [if_pos hsingle, if_pos hsingle]
    exact ⟨by simp, h₁, rfl, h₃, h₄, h₅, rfl, h₇, hargs, rfl⟩
  · rw [if_neg hsingle, if_neg hsingle]
    exact ⟨by simp, h₁, rfl, h₃, h₄, h₅, h₆, h₇, hargs, rfl⟩

theorem Agrees.inWord {q : Quoting} {e v : Bool} (h : Agrees l s pos) (hm : l.place = .word q e v)
    (e' v' : Bool) :
    Agrees { l with place := .word q e' v', since := l.since + 1 }
      { s with quoted := e', variable_ := v' } (pos + 1) := by
  obtain ⟨-, h₁, h₂, h₃, -, -, h₆, h₇, hargs, hsince⟩ := h
  rw [hm] at h₁ h₂ h₃ h₆ h₇
  exact ⟨by simp, by simpa using h₁, by simpa using h₂, by simpa using h₃, rfl, rfl,
    h₆, h₇, hargs, by simp only [hsince]; omega⟩

variable (mem) in
theorem endWord_agrees {q : Quoting} (h : Agrees l s pos) (hm : l.place = .word q false false)
    (hends : Quoting.ends q ch = true) : ∃ s', endWord ch s = some s' ∧
      (wordFound mem pos ch s').Agrees (if q ≠ .bare then
          { l with place := .behind, args := true, since := l.since + 1 }
        else if isSpace ch then
          { l with place := .between, args := true, since := l.since + 1 }
        else .start) (pos + 1) := by
  obtain ⟨-, h₁, h₂, h₃, h₄, h₅, h₆, h₇, hargs, hsince⟩ := h
  simp only [hm, Place.variable_, Place.escaped, Place.quoting] at h₁ h₂ h₃ h₄ h₅ h₆ h₇
  cases q with
  | bare =>
    simp only [Quoting.ends, Bool.or_eq_true, decide_eq_true_eq] at hends
    refine ⟨{ s with lastSpace := true }, ?_, ?_⟩
    · simp [endWord, h₆, h₇, hends, ← or_assoc]
    · rw [if_neg (by simp)]
      by_cases hspace : isSpace ch = true
      · have hne : ch ≠ semicolon ∧ ch ≠ lbrace := by
          constructor <;> rintro rfl <;> exact absurd hspace (by decide)
        rw [if_pos hspace, wordFound, if_neg hne.1, if_neg hne.2]
        exact ⟨by simp, h₁, rfl, h₃, h₄, h₅, h₆, h₇, by simp, by dsimp only; omega⟩
      · rw [if_neg hspace]
        rcases hends with (hs | rfl) | rfl
        · exact absurd hs hspace
        · rw [wordFound, if_pos rfl]
          rfl
        · rw [wordFound, if_neg (by decide), if_pos rfl]
          rfl
  | double =>
    obtain rfl : ch = dquote := by simpa [Quoting.ends] using hends
    refine ⟨{ s with dQuoted := false, needSpace := true }, by simp [endWord, h₇], ?_⟩
    rw [if_pos (by simp), wordFound, if_neg (by decide), if_neg (by decide)]
    exact ⟨by simp, rfl, h₂, h₃, h₄, h₅, h₆, rfl, by simp, by dsimp only; omega⟩
  | single =>
    obtain rfl : ch = squote := by simpa [Quoting.ends] using hends
    refine ⟨{ s with sQuoted := false, needSpace := true }, by simp [endWord, h₆, h₇], ?_⟩
    rw [if_pos (by simp), wordFound, if_neg (by decide), if_neg (by decide)]
    exact ⟨by simp, rfl, h₂, h₃, h₄, h₅, rfl, h₇, by simp, by dsimp only; omega⟩

theorem endWord_none {q : Quoting} (h : Agrees l s pos) (hm : l.place = .word q false false)
    (hends : Quoting.ends q ch = false) : endWord ch s = none := by
  have hs := h.sQuoted
  have hd := h.dQuoted
  rw [hm] at hs hd
  cases q <;> simp_all [Quoting.ends, endWord, Place.quoting]

theorem inWord_agrees {q : Quoting} {v : Bool} (h : Agrees l s pos)
    (hm : l.place = .word q false v) :
    (inWord mem pos ch s).Agrees (l.word q false v ch) (pos + 1) := by
  have hv : s.variable_ = v := by rw [h.variable_, hm]; rfl
  have hq : s.quoted = false := by rw [h.quoted, hm]; rfl
  have hkeep (v' : Bool) : ({ s with variable_ := v' } : Scan) =
      { s with quoted := false, variable_ := v' } := by rw [← hq]
  have hnext (v' : Bool) : Agrees { l with place := .word q false v', since := l.since + 1 }
      { s with variable_ := v' } (pos + 1) := hkeep v' ▸ h.inWord hm false v'
  rw [inWord, Lexer.word, hv]
  simp only [Bool.false_eq_true, if_false]
  by_cases hbrace : ch = lbrace ∧ v = true
  · rw [if_pos hbrace, if_pos hbrace]
    have hsame := hnext v
    rw [← hm, ← hv] at hsame
    exact hsame
  · rw [if_neg hbrace, if_neg hbrace]
    by_cases hback : ch = backslash
    · rw [if_pos hback, if_pos hback]
      exact h.inWord hm true false
    · rw [if_neg hback, if_neg hback]
      by_cases hdollar : ch = dollar
      · rw [if_pos hdollar, if_pos hdollar]
        exact hnext true
      · rw [if_neg hdollar, if_neg hdollar]
        have hclear : Agrees { l with place := .word q false false } { s with variable_ := false }
            pos := by
          obtain ⟨-, h₁, h₂, h₃, -, -, h₆, h₇, hargs, hsince⟩ := h
          rw [hm] at h₁ h₂ h₃ h₆ h₇
          exact ⟨by simp, by simpa using h₁, by simpa using h₂, by simpa using h₃, rfl, hq, h₆, h₇,
            hargs, hsince⟩
        cases hends : Quoting.ends q ch with
        | true =>
          obtain ⟨s', hs', hfound⟩ := endWord_agrees mem hclear rfl hends
          rw [hs', if_pos rfl]
          exact hfound
        | false =>
          rw [endWord_none hclear rfl hends]
          exact hnext false

theorem afterQuote_agrees (h : Agrees l s pos) (hm : l.place = .behind) :
    (afterQuote mem pos ch s).Agrees (l.behind ch) (pos + 1) := by
  have hbetween : Agrees { l with place := .between }
      { s with lastSpace := true, needSpace := false } pos := by
    obtain ⟨-, h₁, h₂, h₃, h₄, h₅, h₆, h₇, hargs, hsince⟩ := h
    simp only [hm, Place.variable_, Place.escaped, Place.quoting] at h₃ h₄ h₅ h₆ h₇
    exact ⟨by simp, rfl, rfl, by simpa using h₃, h₄, h₅, h₆, h₇, hargs, hsince⟩
  rw [afterQuote, Lexer.behind]
  by_cases hspace : isSpace ch = true
  · rw [if_pos hspace, if_pos hspace]
    exact { hbetween with since := by have := hbetween.since; dsimp only at *; omega }
  · rw [if_neg hspace, if_neg hspace]
    by_cases hsemi : ch = semicolon
    · rw [if_pos hsemi, if_pos (.inl hsemi)]
      rfl
    · by_cases hbrace : ch = lbrace
      · rw [if_neg hsemi, if_pos hbrace, if_pos (.inr hbrace)]
        rfl
      · rw [if_neg hsemi, if_neg hbrace, if_neg (not_or.mpr ⟨hsemi, hbrace⟩)]
        by_cases hparen : ch = rparen
        · rw [if_pos hparen, if_pos hparen, scanByte, if_pos rfl]
          exact startWord_agrees hbetween rfl
        · rw [if_neg hparen, if_neg hparen]
          exact ⟨rfl, fun h => h⟩

variable (ch) in
theorem countLine_agrees (h : Agrees l s pos) (hm : l.place ≠ .comment) :
    Agrees l (countLine ch s) pos := by
  rw [countLine]
  split_ifs
  · exact { h with sharpComment := by simpa using hm }
  · exact h

variable (mem) in
/-- A comment is passed up to its line feed, which is white space itself. -/
theorem comment_agrees (h : Agrees l s pos) (hm : l.place = .comment) :
    (turn mem pos s).Agrees { l with
      place := if mem pos = lf then .between else .comment
      since := l.since + 1 } (pos + 1) := by
  obtain ⟨-, h₁, h₂, h₃, h₄, h₅, h₆, h₇, hargs, hsince⟩ := h
  rw [hm] at h₁ h₂ h₃ h₄ h₅ h₆ h₇
  have hnext : pos + 1 = s.start + (l.since + 1) := by omega
  have hneed : s.needSpace = false := h₁
  have hlast : s.lastSpace = true := h₂
  have hquoted : s.quoted = false := h₅
  by_cases hlf : mem pos = lf
  · have hturn : turn mem pos s =
        .next { s with line := s.line + 1, sharpComment := false } := by
      simp [turn, hlf, countLine, scanByte, startWord, isSpace, hneed, hlast, hquoted]
    rw [hturn, if_pos hlf]
    exact ⟨by simp, h₁, h₂, rfl, h₄, h₅, h₆, h₇, hargs, hnext⟩
  · have hturn : turn mem pos s = .next s := by
      have hsharp : s.sharpComment = true := h₃
      simp [turn, countLine, hlf, hsharp]
    rw [hturn, if_neg hlf]
    exact ⟨by simp, h₁, h₂, h₃, h₄, h₅, h₆, h₇, hargs, hnext⟩

variable (mem) in
theorem turn_agrees (h : Agrees l s pos) :
    (turn mem pos s).Agrees (l.step (mem pos)) (pos + 1) := by
  have hsharp (hm : l.place ≠ .comment) : (countLine (mem pos) s).sharpComment = false := by
    simpa [hm] using (countLine_agrees (mem pos) h hm).sharpComment
  rw [turn, Lexer.step]
  cases hm : l.place with
  | stopped => exact absurd hm h.live
  | between =>
    have hline := countLine_agrees (mem pos) h (by simp [hm])
    have hquoted : (countLine (mem pos) s).quoted = false := by rw [hline.quoted, hm]; rfl
    have hneed : (countLine (mem pos) s).needSpace = false := by simp [hline.needSpace, hm]
    have hlast : (countLine (mem pos) s).lastSpace = true := by simp [hline.lastSpace, hm]
    simp only [hsharp (by simp [hm]), hquoted, hneed, scanByte, hlast]
    exact startWord_agrees hline hm
  | comment =>
    rw [← turn]
    exact comment_agrees mem h hm
  | word q e v =>
    have hline := countLine_agrees (mem pos) h (by simp [hm])
    have hneed : (countLine (mem pos) s).needSpace = false := by simp [hline.needSpace, hm]
    have hlast : (countLine (mem pos) s).lastSpace = false := by simp [hline.lastSpace, hm]
    have hquoted : (countLine (mem pos) s).quoted = e := by rw [hline.quoted, hm]; rfl
    have hcomment : ¬ (countLine (mem pos) s).sharpComment = true := by simp [hsharp, hm]
    cases e with
    | true =>
      obtain rfl : (countLine (mem pos) s).variable_ = v := by rw [hline.variable_, hm]; rfl
      dsimp only
      rw [if_neg hcomment, if_pos hquoted]
      exact hline.inWord hm false _
    | false =>
      simp only [if_neg hcomment, hquoted, hneed, scanByte, hlast]
      exact inWord_agrees hline hm
  | behind =>
    have hline := countLine_agrees (mem pos) h (by simp [hm])
    have hquoted : (countLine (mem pos) s).quoted = false := by rw [hline.quoted, hm]; rfl
    have hneed : (countLine (mem pos) s).needSpace = true := by simp [hline.needSpace, hm]
    simp only [hsharp (by simp [hm]), hquoted, hneed]
    exact afterQuote_agrees hline hm

end Step

end Lingx.Conf

import Lingx.Conf.Bounds
import Lingx.Library.Span

/-! Parameters in a text. A parameter is written bare or in quotes, where backslashes and
quotes of its kind are escaped; white space and comments may stand between parameters.
The turns over such a text pass through the modes of the scan: between words, in a
comment, in a word, behind a quoted word. -/

namespace Lingx.Conf

open Library

/-- How a parameter is written. -/
inductive Quoting where
  | bare
  | double
  | single
  deriving DecidableEq, Repr

/-- The byte that ends a quoted parameter. -/
def Quoting.mark : Quoting → Byte
  | .bare => 0
  | .double => dquote
  | .single => squote

/-- A byte that stands for itself in a bare word. -/
structure Plain (ch : Byte) : Prop where
  space : isSpace ch = false
  semicolon : ch ≠ semicolon
  lbrace : ch ≠ lbrace
  rbrace : ch ≠ rbrace
  sharp : ch ≠ sharp
  dquote : ch ≠ dquote
  squote : ch ≠ squote
  backslash : ch ≠ backslash
  dollar : ch ≠ dollar

instance : DecidablePred Plain := fun ch =>
  decidable_of_iff (isSpace ch = false ∧ ch ∉ [semicolon, lbrace, rbrace, sharp, dquote, squote,
      backslash, dollar]) <| by
    simp only [List.mem_cons, List.not_mem_nil, or_false, not_or]
    exact ⟨fun ⟨h, h₁, h₂, h₃, h₄, h₅, h₆, h₇, h₈⟩ => ⟨h, h₁, h₂, h₃, h₄, h₅, h₆, h₇, h₈⟩,
      fun ⟨h, h₁, h₂, h₃, h₄, h₅, h₆, h₇, h₈⟩ => ⟨h, h₁, h₂, h₃, h₄, h₅, h₆, h₇, h₈⟩⟩

/-- A backslash before each backslash and each quote. -/
def escape (mark : Byte) : Bytes → Bytes
  | [] => []
  | ch :: s => if ch = backslash ∨ ch = mark then backslash :: ch :: escape mark s
    else ch :: escape mark s

structure Param where
  quoting : Quoting
  value : Bytes
  deriving DecidableEq, Repr

/-- A bare word is not empty and has no byte with a meaning. -/
def Param.Writable (p : Param) : Prop :=
  p.quoting = .bare → p.value ≠ [] ∧ ∀ ch ∈ p.value, Plain ch

instance : DecidablePred Param.Writable := fun p =>
  decidable_of_iff (p.quoting = .bare → p.value ≠ [] ∧ p.value.all (Plain ·)) <| by
    simp only [Param.Writable, List.all_eq_true, decide_eq_true_eq]

def Param.text (p : Param) : Bytes :=
  match p.quoting with
  | .bare => p.value
  | q => q.mark :: escape q.mark p.value ++ [q.mark]

/-- What the scan makes of a parameter: a word of the size of the text between the quotes. -/
def Param.read (p : Param) : Bytes :=
  match p.quoting with
  | .bare => p.value
  | q => p.value ++ List.replicate ((escape q.mark p.value).length - p.value.length) 0

/-- White space and comments. -/
inductive Gap : Bytes → Prop
  | nil : Gap []
  | space {ch : Byte} {g : Bytes} : isSpace ch → Gap g → Gap (ch :: g)
  | comment {body g : Bytes} : lf ∉ body → Gap g →
      Gap (sharp :: (body ++ lf :: g))

/-- A gap behind a parameter does not begin with a comment. -/
def Spaced (g : Bytes) : Prop := Gap g ∧ ∀ ch ∈ g.head?, isSpace ch

/-- Parameters with a gap behind each, which is not empty between two of them. -/
inductive ParamsText : List Param → Bytes → Prop
  | last {p : Param} {g : Bytes} : p.Writable → Spaced g → ParamsText [p] (p.text ++ g)
  | cons {p : Param} {ps : List Param} {g t : Bytes} : p.Writable → Spaced g → g ≠ [] →
      ParamsText ps t → ParamsText (p :: ps) (p.text ++ g ++ t)

variable {mem : ℕ → Byte} {pos : ℕ} {s s' : Scan} {args : List Bytes}

/-- Turns over `n` bytes that all go on. -/
def passes (mem : ℕ → Byte) : ℕ → ℕ → Scan → Option Scan
  | 0, _, s => some s
  | n + 1, pos, s =>
    match turn mem pos s with
    | .next s => passes mem n (pos + 1) s
    | .ret _ _ => none

theorem passes_add (m n : ℕ) (h : passes mem m pos s = some s') :
    passes mem (m + n) pos s = passes mem n (pos + m) s' := by
  induction m generalizing pos s with
  | zero =>
    cases h
    rw [Nat.zero_add, Nat.add_zero]
  | succ m ih =>
    rw [passes] at h
    rw [Nat.succ_add, passes]
    cases ht : turn mem pos s with
    | next s₁ =>
      rw [ht] at h
      dsimp only
      rw [ih h, Nat.add_assoc, Nat.add_comm 1]
    | ret rc s₁ =>
      rw [ht] at h
      cases h

theorem passes_succ {n : ℕ} {s₁ : Scan} (h : turn mem pos s = .next s₁) :
    passes mem (n + 1) pos s = passes mem n (pos + 1) s₁ := by
  rw [passes, h]

section Modes

/-- Where the scan is: between words, in a comment, in a word, behind a quoted word. -/
inductive Mode where
  | between
  | comment
  | word (q : Quoting)
  | behind
  deriving DecidableEq, Repr

/-- The flags of a mode. A `$` may have been met in quotes. -/
structure InMode (s : Scan) (m : Mode) (args : List Bytes) : Prop where
  needSpace : s.needSpace = decide (m = .behind)
  lastSpace : s.lastSpace = decide (m = .between ∨ m = .comment)
  sharpComment : s.sharpComment = decide (m = .comment)
  variable_ : s.variable_ = true → m = .word .double ∨ m = .word .single
  quoted : s.quoted = false
  sQuoted : s.sQuoted = decide (m = .word .single)
  dQuoted : s.dQuoted = decide (m = .word .double)
  args : s.args = args

theorem inMode_init (pos : ℕ) (line : UInt32) : InMode (Scan.init pos line) .between [] :=
  ⟨rfl, rfl, rfl, nofun, rfl, rfl, rfl, rfl⟩

theorem countLine_eq (ch : Byte) (s : Scan) : ∃ line, countLine ch s =
    { s with line := line, sharpComment := s.sharpComment && decide (ch ≠ lf) } := by
  by_cases h : ch = lf
  · exact ⟨s.line + 1, by simp [countLine, h]⟩
  · exact ⟨s.line, by simp [countLine, h]⟩

/-- Only a line feed in a comment changes the mode by being counted. -/
theorem InMode.countLine {m : Mode} (g : InMode s m args) (ch : Byte)
    (h : m ≠ .comment ∨ ch ≠ lf) : InMode (countLine ch s) m args := by
  obtain ⟨line, hl⟩ := countLine_eq ch s
  rw [hl]
  refine ⟨g.needSpace, g.lastSpace, ?_, g.variable_, g.quoted, g.sQuoted, g.dQuoted, g.args⟩
  rcases h with h | h <;> simp [g.sharpComment, h]

theorem InMode.forget {m : Mode} (g : InMode s m args) :
    InMode { s with variable_ := false } m args :=
  ⟨g.needSpace, g.lastSpace, g.sharpComment, by simp, g.quoted, g.sQuoted, g.dQuoted, g.args⟩

theorem turn_between (g : InMode (countLine (mem pos) s) .between args) :
    turn mem pos s = startWord pos (mem pos) (countLine (mem pos) s) := by
  simp [turn, scanByte, g.sharpComment, g.quoted, g.needSpace, g.lastSpace]

theorem turn_word {q : Quoting} (g : InMode s (.word q) args) :
    turn mem pos s = inWord mem pos (mem pos) (countLine (mem pos) s) := by
  have g' := g.countLine (mem pos) (.inl (by simp))
  simp [turn, scanByte, g'.sharpComment, g'.quoted, g'.needSpace, g'.lastSpace]

theorem turn_behind (g : InMode s .behind args) :
    turn mem pos s = afterQuote mem pos (mem pos) (countLine (mem pos) s) := by
  have g' := g.countLine (mem pos) (.inl (by simp))
  simp [turn, g'.sharpComment, g'.quoted, g'.needSpace]

theorem InMode.space (g : InMode s .between args) (h : isSpace (mem pos)) :
    ∃ s', turn mem pos s = .next s' ∧ InMode s' .between args := by
  have g' := g.countLine (mem pos) (.inl (by simp))
  refine ⟨_, ?_, g'⟩
  rw [turn_between g', startWord, if_pos h]

theorem InMode.startComment (g : InMode s .between args) (h : mem pos = sharp) :
    ∃ s', turn mem pos s = .next s' ∧ InMode s' .comment args := by
  have g' := g.countLine (mem pos) (.inl (by simp))
  have hv : (Conf.countLine (mem pos) s).variable_ = true → False := fun hv =>
    absurd (g'.variable_ hv) (by simp)
  have hspace : isSpace sharp = false := by decide
  rw [turn_between g']
  rw [h] at g' hv ⊢
  simp only [startWord, hspace]
  exact ⟨_, rfl, g'.needSpace, g'.lastSpace, rfl, fun h => (hv h).elim, g'.quoted, g'.sQuoted,
    g'.dQuoted, g'.args⟩

theorem InMode.inComment (g : InMode s .comment args) (h : mem pos ≠ lf) :
    ∃ s', turn mem pos s = .next s' ∧ InMode s' .comment args := by
  have g' := g.countLine (mem pos) (.inr h)
  exact ⟨_, by simp [turn, g'.sharpComment], g'⟩

theorem InMode.endComment (g : InMode s .comment args) (h : mem pos = lf) :
    ∃ s', turn mem pos s = .next s' ∧ InMode s' .between args := by
  obtain ⟨line, hl⟩ := countLine_eq (mem pos) s
  have g' : InMode (Conf.countLine (mem pos) s) .between args := by
    rw [hl]
    exact ⟨g.needSpace, g.lastSpace, by simp [h], fun hv => absurd (g.variable_ hv) (by simp),
      g.quoted, g.sQuoted, g.dQuoted, g.args⟩
  have hspace : isSpace (mem pos) = true := by
    rw [h]
    decide
  exact ⟨_, by rw [turn_between g', startWord, if_pos hspace], g'⟩

end Modes

theorem InMode.comment {body : Bytes} (g : InMode s .comment args) (hb : lf ∉ body)
    (hm : Span mem pos (body ++ [lf])) :
    ∃ s', passes mem (body.length + 1) pos s = some s' ∧ InMode s' .between args := by
  induction body generalizing pos s with
  | nil =>
    obtain ⟨s₁, ht, g₁⟩ := g.endComment hm.1
    exact ⟨s₁, passes_succ ht, g₁⟩
  | cons ch body ih =>
    have hne : mem pos ≠ lf := fun h => hb (by simp [← hm.1, h])
    obtain ⟨s₁, ht, g₁⟩ := g.inComment hne
    obtain ⟨s₂, hp, g₂⟩ := ih g₁ (fun h => hb (List.mem_cons_of_mem ch h)) hm.2
    exact ⟨s₂, (passes_succ ht).trans hp, g₂⟩

theorem InMode.gap {t : Bytes} (g : InMode s .between args) (ht : Gap t) (hm : Span mem pos t) :
    ∃ s', passes mem t.length pos s = some s' ∧ InMode s' .between args := by
  induction ht generalizing pos s with
  | nil => exact ⟨s, rfl, g⟩
  | space hch _ ih =>
    have hspace : isSpace (mem pos) := hm.1 ▸ hch
    obtain ⟨s₁, ht, g₁⟩ := g.space hspace
    obtain ⟨s₂, hp, g₂⟩ := ih g₁ hm.2
    exact ⟨s₂, (passes_succ ht).trans hp, g₂⟩
  | @comment body t hb _ ih =>
    obtain ⟨s₁, ht, g₁⟩ := g.startComment hm.1
    have hm' : Span mem (pos + 1) ((body ++ [lf]) ++ t) := by
      rw [List.append_assoc]
      exact hm.2
    obtain ⟨hbody, htail⟩ := span_append.mp hm'
    obtain ⟨s₂, hp, g₂⟩ := g₁.comment hb hbody
    obtain ⟨s₃, hp', g₃⟩ := ih g₂ htail
    refine ⟨s₃, ?_, g₃⟩
    have hlen : (sharp :: (body ++ lf :: t)).length = (body.length + 1 + t.length) + 1 := by
      simp; omega
    rw [hlen, passes_succ ht, passes_add _ _ hp, ← hp']
    simp

section Copying

theorem length_le_escape (mark : Byte) (w : Bytes) : w.length ≤ (escape mark w).length := by
  induction w with
  | nil => exact le_rfl
  | cons ch w ih =>
    rw [escape]
    split_ifs <;> simp only [List.length_cons] <;> omega

theorem escape_eq_self {mark : Byte} {w : Bytes} (h : ∀ ch ∈ w, ch ≠ backslash ∧ ch ≠ mark) :
    escape mark w = w := by
  induction w with
  | nil => rfl
  | cons ch w ih =>
    obtain ⟨hch, hw⟩ := List.forall_mem_cons.mp h
    rw [escape, if_neg (by simp [hch]), ih hw]

theorem put_zeros (out : Bytes) (m i n : ℕ) (ch : Byte) :
    Copy.put ⟨i, out.length, out ++ List.replicate (m + 1) 0⟩ ch n =
      ⟨i + n, (out ++ [ch]).length, (out ++ [ch]) ++ List.replicate m 0⟩ := by
  simp [Copy.put, List.replicate_succ]

/-- The copy removes the escapes, and leaves the rest of its word as it was made. -/
theorem copyLoop_escape {mark : Byte} (hmark : mark = dquote ∨ mark = squote ∨ mark = backslash)
    {w out : Bytes} {i k m last : ℕ} (hm : Span mem i (escape mark w))
    (hlast : i + (escape mark w).length = last) (hk : (escape mark w).length ≤ k)
    (hz : w.length ≤ m) :
    copyLoop mem last k ⟨i, out.length, out ++ List.replicate m 0⟩ =
      ⟨last, (out ++ w).length, (out ++ w) ++ List.replicate (m - w.length) 0⟩ := by
  induction w generalizing i k m out with
  | nil =>
    obtain rfl : i = last := hlast
    cases k <;> simp [copyLoop]
  | cons ch w ih =>
    obtain ⟨m, rfl⟩ : ∃ m', m = m' + 1 := ⟨m - 1, by simp at hz; omega⟩
    rw [escape] at hm hlast hk
    have happ : out ++ ch :: w = (out ++ [ch]) ++ w := by simp
    have hsub : m + 1 - (ch :: w).length = m - w.length := by simp
    rw [happ, hsub]
    by_cases hch : ch = backslash ∨ ch = mark
    · rw [if_pos hch] at hm hlast hk
      obtain ⟨k, rfl⟩ : ∃ k', k = k' + 1 := ⟨k - 1, by simp at hk; omega⟩
      obtain ⟨h₀, h₁, hm⟩ := hm
      simp only [List.length_cons] at hlast hk hz
      have hquote : ch = dquote ∨ ch = squote ∨ ch = backslash := by
        rcases hch with rfl | rfl
        · exact .inr (.inr rfl)
        · exact hmark
      rw [copyLoop, if_pos (by dsimp only; omega), copyByte]
      dsimp only
      rw [if_pos h₀, h₁, if_pos hquote, put_zeros]
      exact ih hm (by omega) (by omega) (by omega)
    · rw [if_neg hch] at hm hlast hk
      obtain ⟨k, rfl⟩ : ∃ k', k = k' + 1 := ⟨k - 1, by simp at hk; omega⟩
      obtain ⟨h₀, hm⟩ := hm
      simp only [List.length_cons] at hlast hk hz
      rw [copyLoop, if_pos (by dsimp only; omega), copyByte]
      dsimp only
      rw [if_neg (fun h => hch (.inl (h₀ ▸ h))), h₀, put_zeros]
      exact ih hm (by omega) (by omega) (by omega)

theorem copyWord_escape {mark : Byte} (hmark : mark = dquote ∨ mark = squote ∨ mark = backslash)
    {w : Bytes} {start : ℕ} (hm : Span mem start (escape mark w)) :
    copyWord mem start (start + (escape mark w).length) =
      w ++ List.replicate ((escape mark w).length - w.length) 0 := by
  have hlen : start + (escape mark w).length - start = (escape mark w).length := by omega
  have h : copyLoop mem _ _ ⟨start, ([] : Bytes).length, [] ++ List.replicate _ 0⟩ = _ :=
    copyLoop_escape hmark hm rfl le_rfl (length_le_escape mark w)
  rw [copyWord, hlen]
  exact congrArg (·.word) h

theorem copyWord_plain {w : Bytes} {start : ℕ} (hw : ∀ ch ∈ w, Plain ch) (hm : Span mem start w) :
    copyWord mem start (start + w.length) = w := by
  have hself : escape backslash w = w :=
    escape_eq_self fun ch hch => ⟨(hw ch hch).backslash, (hw ch hch).backslash⟩
  rw [← hself] at hm
  have h := copyWord_escape (.inr (.inr rfl)) hm
  simpa [hself] using h

end Copying

section Params

variable {q : Quoting} {start : ℕ}

theorem InMode.startPlain (g : InMode s .between args) (h : Plain (mem pos)) :
    ∃ s', turn mem pos s = .next s' ∧ InMode s' (.word .bare) args ∧ s'.start = pos := by
  have g' := g.countLine (mem pos) (.inl (by simp))
  rw [turn_between g']
  simp only [startWord, h.space, h.semicolon, h.lbrace, h.rbrace, h.sharp, h.backslash, h.dquote,
    h.squote]
  exact ⟨_, rfl, ⟨g'.needSpace, rfl, g'.sharpComment,
    fun hv => absurd (g'.variable_ hv) (by simp), g'.quoted, g'.sQuoted, g'.dQuoted, g'.args⟩, rfl⟩

theorem InMode.inWord (g : InMode s (.word q) args) (hback : mem pos ≠ backslash)
    (hdollar : q = .bare → mem pos ≠ dollar)
    (hend : ∀ s₁, InMode s₁ (.word q) args → endWord (mem pos) s₁ = none) :
    ∃ s', turn mem pos s = .next s' ∧ InMode s' (.word q) args ∧ s'.start = s.start := by
  have g' := g.countLine (mem pos) (.inl (by simp))
  have hstart := countLine_start (mem pos) s
  rw [turn_word g, Conf.inWord]
  by_cases hvar : mem pos = lbrace ∧ (Conf.countLine (mem pos) s).variable_
  · rw [if_pos hvar]
    exact ⟨_, rfl, g', hstart⟩
  · rw [if_neg hvar]
    dsimp only
    rw [if_neg hback]
    by_cases hd : mem pos = dollar
    · rw [if_pos hd]
      refine ⟨_, rfl, ⟨g'.needSpace, g'.lastSpace, g'.sharpComment, fun _ => ?_, g'.quoted,
        g'.sQuoted, g'.dQuoted, g'.args⟩, hstart⟩
      cases q with
      | bare => exact absurd hd (hdollar rfl)
      | double => exact .inl rfl
      | single => exact .inr rfl
    · rw [if_neg hd]
      rw [hend _ g'.forget]
      exact ⟨_, rfl, g'.forget, hstart⟩

theorem InMode.plain (g : InMode s (.word .bare) args) (h : Plain (mem pos)) :
    ∃ s', turn mem pos s = .next s' ∧ InMode s' (.word .bare) args ∧ s'.start = s.start := by
  refine g.inWord h.backslash (fun _ => h.dollar) fun s₁ g₁ => ?_
  simp [endWord, g₁.dQuoted, g₁.sQuoted, h.space, h.semicolon, h.lbrace]

theorem Quoting.mark_quote (hq : q ≠ .bare) : q.mark = dquote ∨ q.mark = squote := by
  cases q with
  | bare => exact absurd rfl hq
  | double => exact .inl rfl
  | single => exact .inr rfl

theorem InMode.startQuote (hq : q ≠ .bare) (g : InMode s .between args) (h : mem pos = q.mark) :
    ∃ s', turn mem pos s = .next s' ∧ InMode s' (.word q) args ∧ s'.start = pos + 1 := by
  have g' := g.countLine (mem pos) (.inl (by simp))
  have hv : (Conf.countLine (mem pos) s).variable_ = true → False := fun hv =>
    absurd (g'.variable_ hv) (by simp)
  rw [turn_between g']
  rw [h] at g' hv ⊢
  cases q with
  | bare => exact absurd rfl hq
  | double =>
    exact ⟨_, rfl, ⟨g'.needSpace, rfl, g'.sharpComment, fun h => (hv h).elim, g'.quoted,
      g'.sQuoted, rfl, g'.args⟩, rfl⟩
  | single =>
    exact ⟨_, rfl, ⟨g'.needSpace, rfl, g'.sharpComment, fun h => (hv h).elim, g'.quoted,
      rfl, g'.dQuoted, g'.args⟩, rfl⟩

/-- In quotes, only a backslash and the mark are not passed as they are. -/
theorem InMode.inQuote (hq : q ≠ .bare) (g : InMode s (.word q) args)
    (hback : mem pos ≠ backslash) (hmark : mem pos ≠ q.mark) :
    ∃ s', turn mem pos s = .next s' ∧ InMode s' (.word q) args ∧ s'.start = s.start := by
  refine g.inWord hback (fun h => absurd h hq) fun s₁ g₁ => ?_
  cases q with
  | bare => exact absurd rfl hq
  | double => simp [endWord, g₁.dQuoted, show mem pos ≠ dquote from hmark]
  | single => simp [endWord, g₁.dQuoted, g₁.sQuoted, show mem pos ≠ squote from hmark]

theorem InMode.escaped (g : InMode s (.word q) args) (h : mem pos = backslash) :
    ∃ s', passes mem 2 pos s = some s' ∧ InMode s' (.word q) args ∧ s'.start = s.start := by
  have g' := g.countLine (mem pos) (.inl (by simp))
  have hstart := countLine_start (mem pos) s
  obtain ⟨s₁, hs₁⟩ : ∃ s₁, s₁ = { Conf.countLine (mem pos) s with
    variable_ := false, quoted := true } := ⟨_, rfl⟩
  have h₁ : turn mem pos s = .next s₁ := by
    rw [turn_word g, Conf.inWord, if_neg fun hc => absurd (h.symm.trans hc.1) (by decide), hs₁]
    dsimp only
    rw [if_pos h]
  have hquoted : s₁.quoted = true := by rw [hs₁]
  have hsharp : s₁.sharpComment = false := by
    rw [hs₁]
    exact g'.sharpComment
  obtain ⟨line, hl⟩ := countLine_eq (mem (pos + 1)) s₁
  have h₂ : turn mem (pos + 1) s₁ =
      .next { Conf.countLine (mem (pos + 1)) s₁ with quoted := false } := by
    simp [turn, hl, hquoted, hsharp]
  refine ⟨_, by rw [passes_succ h₁, passes_succ h₂]; rfl, ?_, ?_⟩
  · rw [hl, hs₁]
    exact ⟨g'.needSpace, g'.lastSpace, by simp [g'.sharpComment], by simp, rfl, g'.sQuoted,
      g'.dQuoted, g'.args⟩
  · rw [hl, hs₁]
    exact hstart

theorem InMode.plains {w : Bytes} (g : InMode s (.word .bare) args) (hw : ∀ ch ∈ w, Plain ch)
    (hm : Span mem pos w) : ∃ s', passes mem w.length pos s = some s' ∧
      InMode s' (.word .bare) args ∧ s'.start = s.start := by
  induction w generalizing pos s with
  | nil => exact ⟨s, rfl, g, rfl⟩
  | cons ch w ih =>
    obtain ⟨hch, hw⟩ := List.forall_mem_cons.mp hw
    have hplain : Plain (mem pos) := hm.1 ▸ hch
    obtain ⟨s₁, ht, g₁, hs₁⟩ := g.plain hplain
    obtain ⟨s₂, hp, g₂, hs₂⟩ := ih g₁ hw hm.2
    exact ⟨s₂, (passes_succ ht).trans hp, g₂, hs₂.trans hs₁⟩

theorem InMode.escapes {w : Bytes} (hq : q ≠ .bare) (g : InMode s (.word q) args)
    (hm : Span mem pos (escape q.mark w)) :
    ∃ s', passes mem (escape q.mark w).length pos s = some s' ∧
      InMode s' (.word q) args ∧ s'.start = s.start := by
  induction w generalizing pos s with
  | nil => exact ⟨s, rfl, g, rfl⟩
  | cons ch w ih =>
    by_cases hch : ch = backslash ∨ ch = q.mark
    · simp only [escape, if_pos hch] at hm ⊢
      obtain ⟨s₁, hp₁, g₁, hs₁⟩ := g.escaped hm.1
      obtain ⟨s₂, hp₂, g₂, hs₂⟩ := ih g₁ hm.2.2
      have hlen : (backslash :: ch :: escape q.mark w).length = 2 + (escape q.mark w).length := by
        simp only [List.length_cons]
        omega
      exact ⟨s₂, by rw [hlen, passes_add _ _ hp₁, hp₂], g₂, hs₂.trans hs₁⟩
    · simp only [escape, if_neg hch] at hm ⊢
      obtain ⟨hback, hmark⟩ := not_or.mp hch
      have hback' : mem pos ≠ backslash := hm.1 ▸ hback
      have hmark' : mem pos ≠ q.mark := hm.1 ▸ hmark
      obtain ⟨s₁, ht, g₁, hs₁⟩ := g.inQuote hq hback' hmark'
      obtain ⟨s₂, hp, g₂, hs₂⟩ := ih g₁ hm.2
      exact ⟨s₂, (passes_succ ht).trans hp, g₂, hs₂.trans hs₁⟩

theorem InMode.endWord_mark (hq : q ≠ .bare) (g : InMode s (.word q) args)
    (hv : s.variable_ = false) :
    ∃ s', endWord q.mark s = some s' ∧ InMode s' .behind args ∧ s'.start = s.start := by
  have hv' : s.variable_ = true → False := fun h => by simp [hv] at h
  cases q with
  | bare => exact absurd rfl hq
  | double =>
    have hd : s.dQuoted = true := g.dQuoted
    refine ⟨{ s with dQuoted := false, needSpace := true }, ?_, ?_, rfl⟩
    · rw [endWord, if_pos hd]
      rfl
    · exact ⟨rfl, g.lastSpace, g.sharpComment, fun h => (hv' h).elim, g.quoted, g.sQuoted, rfl,
        g.args⟩
  | single =>
    have hd : ¬ s.dQuoted = true := by simp [g.dQuoted]
    have hs : s.sQuoted = true := g.sQuoted
    refine ⟨{ s with sQuoted := false, needSpace := true }, ?_, ?_, rfl⟩
    · rw [endWord, if_neg hd, if_pos hs]
      rfl
    · exact ⟨rfl, g.lastSpace, g.sharpComment, fun h => (hv' h).elim, g.quoted, rfl, g.dQuoted,
        g.args⟩

/-- A byte with a meaning in a word but `$` and the backslash is looked at for its end. -/
theorem InMode.inWord_eq (g : InMode s (.word q) args) (hbrace : mem pos = lbrace → q = .bare)
    (hback : mem pos ≠ backslash) (hdollar : mem pos ≠ dollar) :
    ∃ s₁, InMode s₁ (.word q) args ∧ s₁.variable_ = false ∧ s₁.start = s.start ∧
      turn mem pos s = match endWord (mem pos) s₁ with
        | none => .next s₁
        | some s₂ => wordFound mem pos (mem pos) s₂ := by
  have g' := g.countLine (mem pos) (.inl (by simp))
  refine ⟨{ Conf.countLine (mem pos) s with variable_ := false }, g'.forget, rfl,
    countLine_start (mem pos) s, ?_⟩
  have hnot : ¬ (mem pos = lbrace ∧ (Conf.countLine (mem pos) s).variable_ = true) := by
    rintro ⟨hb, hv⟩
    obtain rfl := hbrace hb
    rcases g'.variable_ hv with h | h <;> cases h
  rw [turn_word g, Conf.inWord, if_neg hnot]
  dsimp only
  exact (if_neg hback).trans (if_neg hdollar)

theorem InMode.endQuote (hq : q ≠ .bare) (g : InMode s (.word q) args) (h : mem pos = q.mark) :
    ∃ s', turn mem pos s = .next s' ∧
      InMode s' .behind (args ++ [copyWord mem s.start pos]) := by
  have hplain : q.mark ≠ lbrace ∧ q.mark ≠ backslash ∧ q.mark ≠ dollar ∧ q.mark ≠ semicolon := by
    rcases q.mark_quote hq with hm | hm <;> rw [hm] <;> decide
  obtain ⟨hbrace, hback, hdollar, hsemi⟩ := hplain
  obtain ⟨s₁, g₁, hv, hs₁, ht⟩ := g.inWord_eq (fun hc => absurd (h.symm.trans hc) hbrace)
    (fun hc => hback (h.symm.trans hc)) fun hc => hdollar (h.symm.trans hc)
  obtain ⟨s₂, he, g₂, hs₂⟩ := g₁.endWord_mark hq hv
  rw [ht, h, he]
  simp only [wordFound, if_neg hsemi, if_neg hbrace]
  refine ⟨_, rfl, ⟨g₂.needSpace, g₂.lastSpace, g₂.sharpComment, g₂.variable_, g₂.quoted,
    g₂.sQuoted, g₂.dQuoted, ?_⟩⟩
  rw [g₂.args, hs₂, hs₁]

/-- A word that is complete up to the byte at `pos`, as the last of the arguments. -/
inductive Pending (mem : ℕ → Byte) (s : Scan) (pos : ℕ) : List Bytes → Prop
  | behind {args : List Bytes} : InMode s .behind args → Pending mem s pos args
  | word {args : List Bytes} : InMode s (.word .bare) args →
      Pending mem s pos (args ++ [copyWord mem s.start pos])

theorem InMode.endBare (g : InMode s (.word .bare) args)
    (h : isSpace (mem pos) ∨ mem pos = semicolon ∨ mem pos = lbrace) :
    ∃ s', turn mem pos s = wordFound mem pos (mem pos) s' ∧ InMode s' .between args ∧
      s'.start = s.start := by
  have hne : mem pos ≠ backslash ∧ mem pos ≠ dollar := by
    constructor <;> intro hc <;> rw [hc] at h <;> revert h <;> decide
  obtain ⟨s₁, g₁, hv, hs₁, ht⟩ := g.inWord_eq (fun _ => rfl) hne.1 hne.2
  have hd : ¬ s₁.dQuoted = true := by simp [g₁.dQuoted]
  have hs : ¬ s₁.sQuoted = true := by simp [g₁.sQuoted]
  refine ⟨{ s₁ with lastSpace := true }, ?_, ?_, hs₁⟩
  · rw [ht, endWord, if_neg hd, if_neg hs, if_pos h]
  · exact ⟨g₁.needSpace, rfl, g₁.sharpComment, fun h => by simp [hv] at h, g₁.quoted,
      g₁.sQuoted, g₁.dQuoted, g₁.args⟩

theorem Pending.space (g : Pending mem s pos args) (h : isSpace (mem pos)) :
    ∃ s', turn mem pos s = .next s' ∧ InMode s' .between args := by
  cases g with
  | behind g =>
    have g' := g.countLine (mem pos) (.inl (by simp))
    rw [turn_behind g, afterQuote, if_pos h]
    exact ⟨_, rfl, rfl, rfl, g'.sharpComment, fun hv => absurd (g'.variable_ hv) (by simp),
      g'.quoted, g'.sQuoted, g'.dQuoted, g'.args⟩
  | word g =>
    have hne : mem pos ≠ semicolon ∧ mem pos ≠ lbrace := by
      constructor <;> intro hc <;> rw [hc] at h <;> revert h <;> decide
    obtain ⟨s₁, ht, g₁, hs₁⟩ := g.endBare (.inl h)
    rw [ht]
    simp only [wordFound, if_neg hne.1, if_neg hne.2]
    exact ⟨_, rfl, g₁.needSpace, g₁.lastSpace, g₁.sharpComment, g₁.variable_, g₁.quoted,
      g₁.sQuoted, g₁.dQuoted, by rw [g₁.args, hs₁]⟩

/-- The byte at the end of a directive, with the code that `read_token_` returns. -/
def Ends (ch : Byte) (rc : Rc) : Prop :=
  (ch = semicolon ∧ rc = .ok) ∨ (ch = lbrace ∧ rc = .blockStart)

theorem Pending.ends {rc : Rc} (g : Pending mem s pos args) (h : Ends (mem pos) rc) :
    ∃ s', turn mem pos s = .ret rc s' ∧ s'.args = args := by
  cases g with
  | behind g =>
    have g' := g.countLine (mem pos) (.inl (by simp))
    refine ⟨_, ?_, g'.args⟩
    rw [turn_behind g, afterQuote]
    rcases h with ⟨hch, rfl⟩ | ⟨hch, rfl⟩ <;> rw [hch] <;> rfl
  | word g =>
    have hend : isSpace (mem pos) ∨ mem pos = semicolon ∨ mem pos = lbrace :=
      .inr (h.imp (fun h => h.1) fun h => h.1)
    obtain ⟨s₁, ht, g₁, hs₁⟩ := g.endBare hend
    refine ⟨{ s₁ with args := s₁.args ++ [copyWord mem s₁.start pos] }, ?_, ?_⟩
    · rw [ht, wordFound]
      rcases h with ⟨hch, rfl⟩ | ⟨hch, rfl⟩ <;> rw [hch] <;> rfl
    · rw [g₁.args, hs₁]

theorem InMode.ends {rc : Rc} (g : InMode s .between args) (hargs : args ≠ [])
    (h : Ends (mem pos) rc) : ∃ s', turn mem pos s = .ret rc s' ∧ s'.args = args := by
  have g' := g.countLine (mem pos) (.inl (by simp))
  have hne : (Conf.countLine (mem pos) s).args ≠ [] := g'.args.symm ▸ hargs
  rw [turn_between g', startWord]
  rcases h with ⟨hch, rfl⟩ | ⟨hch, rfl⟩
  all_goals
    rw [hch] at g' hne ⊢
    dsimp only
    rw [if_neg (by decide), if_pos (by decide), if_neg hne]
    exact ⟨_, rfl, g'.args⟩

theorem InMode.close (g : InMode s .between []) (h : mem pos = rbrace) :
    ∃ s', turn mem pos s = .ret .blockDone s' ∧ s'.args = [] := by
  have g' := g.countLine (mem pos) (.inl (by simp))
  have hargs := g'.args
  rw [turn_between g', startWord]
  rw [h] at hargs ⊢
  dsimp only
  rw [if_neg (by decide), if_neg (by decide), if_pos rfl, if_neg fun hne => hne hargs]
  exact ⟨_, rfl, hargs⟩

theorem Param.text_quoted {p : Param} (h : p.quoting ≠ .bare) :
    p.text = p.quoting.mark :: (escape p.quoting.mark p.value ++ [p.quoting.mark]) := by
  rw [Param.text]
  split
  · contradiction
  · rfl

theorem Param.read_quoted {p : Param} (h : p.quoting ≠ .bare) : p.read = p.value ++
    List.replicate ((escape p.quoting.mark p.value).length - p.value.length) 0 := by
  rw [Param.read]
  split
  · contradiction
  · rfl

theorem Param.text_bare {p : Param} (h : p.quoting = .bare) : p.text = p.value := by
  rw [Param.text, h]

theorem Param.read_bare {p : Param} (h : p.quoting = .bare) : p.read = p.value := by
  rw [Param.read, h]

theorem InMode.bareParam {w : Bytes} (g : InMode s .between args) (hne : w ≠ [])
    (hw : ∀ ch ∈ w, Plain ch) (hm : Span mem pos w) :
    ∃ s', passes mem w.length pos s = some s' ∧
      Pending mem s' (pos + w.length) (args ++ [w]) := by
  obtain ⟨ch, w, rfl⟩ := List.exists_cons_of_ne_nil hne
  obtain ⟨s₁, ht, g₁, hs₁⟩ := g.startPlain (hm.1 ▸ hw ch List.mem_cons_self)
  obtain ⟨s₂, hp, g₂, hs₂⟩ := g₁.plains (fun c hc => hw c (List.mem_cons_of_mem ch hc)) hm.2
  refine ⟨s₂, (passes_succ ht).trans hp, ?_⟩
  have hpend : Pending mem s₂ (pos + (ch :: w).length) _ := .word g₂
  rwa [hs₂, hs₁, copyWord_plain hw hm] at hpend

theorem InMode.quotedParam {w : Bytes} (hq : q ≠ .bare) (g : InMode s .between args)
    (hm : Span mem pos (q.mark :: (escape q.mark w ++ [q.mark]))) :
    ∃ s', passes mem ((escape q.mark w).length + 2) pos s = some s' ∧
      Pending mem s' (pos + ((escape q.mark w).length + 2))
        (args ++ [w ++ List.replicate ((escape q.mark w).length - w.length) 0]) := by
  obtain ⟨h₀, hm⟩ := hm
  obtain ⟨hbody, hlast, -⟩ := span_append.mp hm
  obtain ⟨s₁, ht, g₁, hs₁⟩ := g.startQuote hq h₀
  obtain ⟨s₂, hp, g₂, hs₂⟩ := g₁.escapes hq hbody
  obtain ⟨s₃, ht', g₃⟩ := g₂.endQuote hq hlast
  refine ⟨s₃, ?_, .behind ?_⟩
  · rw [passes_succ ht, passes_add _ 1 hp, passes_succ ht']
    rfl
  · have hmark : q.mark = dquote ∨ q.mark = squote ∨ q.mark = backslash :=
      (q.mark_quote hq).imp id .inl
    rwa [hs₂, hs₁, copyWord_escape hmark hbody] at g₃

theorem InMode.param {p : Param} (g : InMode s .between args) (hp : p.Writable)
    (hm : Span mem pos p.text) : ∃ s', passes mem p.text.length pos s = some s' ∧
      Pending mem s' (pos + p.text.length) (args ++ [p.read]) := by
  by_cases hq : p.quoting = .bare
  · obtain ⟨hne, hw⟩ := hp hq
    rw [Param.text_bare hq] at hm ⊢
    rw [Param.read_bare hq]
    exact g.bareParam hne hw hm
  · rw [Param.text_quoted hq] at hm ⊢
    have hlen : (p.quoting.mark :: (escape p.quoting.mark p.value ++ [p.quoting.mark])).length =
      (escape p.quoting.mark p.value).length + 2 := by simp
    rw [Param.read_quoted hq, hlen]
    exact g.quotedParam hq hm

/-- Behind parameters a directive goes on with the code of its end. -/
inductive Complete (mem : ℕ → Byte) (s : Scan) (pos : ℕ) (args : List Bytes) : Prop
  | pending : Pending mem s pos args → Complete mem s pos args
  | between : InMode s .between args → Complete mem s pos args

theorem Complete.ends {rc : Rc} (g : Complete mem s pos args) (hargs : args ≠ [])
    (h : Ends (mem pos) rc) : ∃ s', turn mem pos s = .ret rc s' ∧ s'.args = args := by
  cases g with
  | pending g => exact g.ends h
  | between g => exact g.ends hargs h

theorem Pending.spaced {t : Bytes} (g : Pending mem s pos args) (ht : Spaced t) (hne : t ≠ [])
    (hm : Span mem pos t) :
    ∃ s', passes mem t.length pos s = some s' ∧ InMode s' .between args := by
  obtain ⟨hgap, hhead⟩ := ht
  cases hgap with
  | nil => exact absurd rfl hne
  | @space ch t hch hgap =>
    obtain ⟨s₁, ht, g₁⟩ := g.space (hm.1 ▸ hch)
    obtain ⟨s₂, hp, g₂⟩ := g₁.gap hgap hm.2
    exact ⟨s₂, (passes_succ ht).trans hp, g₂⟩
  | comment => exact absurd (hhead _ rfl) (by decide)

theorem InMode.params {ps : List Param} {t : Bytes} (g : InMode s .between args)
    (ht : ParamsText ps t) (hm : Span mem pos t) : ∃ s', passes mem t.length pos s = some s' ∧
      Complete mem s' (pos + t.length) (args ++ ps.map Param.read) := by
  induction ht generalizing pos s args with
  | @last p t hp ht =>
    obtain ⟨hword, hgap⟩ := span_append.mp hm
    obtain ⟨s₁, hp₁, g₁⟩ := g.param hp hword
    rw [List.length_append, passes_add _ _ hp₁]
    by_cases hnil : t = []
    · subst hnil
      exact ⟨s₁, rfl, .pending g₁⟩
    · obtain ⟨s₂, hp₂, g₂⟩ := g₁.spaced ht hnil hgap
      exact ⟨s₂, hp₂, .between g₂⟩
  | @cons p ps t₁ t hp ht hne _ ih =>
    obtain ⟨hfirst, hrest⟩ := span_append.mp hm
    obtain ⟨hword, hgap⟩ := span_append.mp hfirst
    obtain ⟨s₁, hp₁, g₁⟩ := g.param hp hword
    obtain ⟨s₂, hp₂, g₂⟩ := g₁.spaced ht hne hgap
    rw [List.length_append, ← Nat.add_assoc] at hrest
    obtain ⟨s₃, hp₃, g₃⟩ := ih g₂ hrest
    refine ⟨s₃, ?_, ?_⟩
    · rw [List.length_append, List.length_append, Nat.add_assoc, passes_add _ _ hp₁,
        passes_add _ _ hp₂]
      exact hp₃
    · rw [List.append_assoc] at g₃
      simpa [Nat.add_assoc] using g₃

end Params

end Lingx.Conf

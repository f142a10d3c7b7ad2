import Lingx.Conf.Ends
import Lingx.Conf.Lexer
import Lingx.Conf.Window
import Lingx.Library.Store

/-! References to variables in parameters: a `$` that is not escaped, with a `{` behind it.
The scan and the copy of a word take an escaped byte together with its backslash, so both
come to the `$`. The flag for it is set in a word, but not where one begins. -/

namespace Lingx.Conf

/-- The bytes of the memory from one place to another. -/
def textFrom (mem : ℕ → Byte) (start pos : ℕ) : Bytes :=
  (List.range' start (pos - start)).map mem

/-- The byte behind these is escaped. -/
def escapes (text : Bytes) : Bool := text.foldl (fun e ch => !e && ch = backslash) false

/-- The byte that is next may begin a parameter. -/
structure Begins (s : Scan) : Prop where
  lastSpace : s.lastSpace = true
  needSpace : s.needSpace = false
  sharpComment : s.sharpComment = false

/-- The byte that is next is one of a parameter, behind its first byte or quote, and not
escaped. -/
structure Inside (cf : ConfFile) (s : Scan) : Prop where
  lastSpace : s.lastSpace = false
  needSpace : s.needSpace = false
  unescaped : escapes (textFrom cf.buffer.mem s.start cf.buffer.pos) = false

/-- A call comes to an unescaped `$` of a parameter, and to a `{` with its next byte. -/
structure Reference (cf₀ cf₁ : ConfFile) (s₁ : Scan) (cf₂ : ConfFile) (s₂ : Scan) : Prop where
  reached : ∃ n cf s pread, Iterates cf₀ n cf s ∧ fill (cf.withPread pread) s = .more cf₁ s₁
  parameter : Begins s₁ ∨ Inside cf₁ s₁
  atDollar : cf₁.buffer.mem cf₁.buffer.pos = dollar
  next : ∃ s pread, turn cf₁.buffer.mem cf₁.buffer.pos s₁ = .next s ∧
    fill ((cf₁.setPos (cf₁.buffer.pos + 1)).withPread pread) s = .more cf₂ s₂
  atLbrace : cf₂.buffer.mem cf₂.buffer.pos = lbrace

/-- An iteration that goes on. -/
inductive Goes : ConfFile × Scan → ConfFile × Scan → Prop
  | next {cf cf' : ConfFile} {s s' s'' : Scan} (pread : ℕ → ℕ → Option Bytes) :
      fill (cf.withPread pread) s = .more cf' s' →
      turn cf'.buffer.mem cf'.buffer.pos s' = .next s'' →
      Goes (cf, s) (cf'.setPos (cf'.buffer.pos + 1), s'')

/-- The argument at a place has a reference, or the call has failed before it is complete. -/
def Carried (i : ℕ) (rc : Rc) (args : List Bytes) : Prop :=
  (∃ w, args[i]? = some w ∧ [dollar, lbrace] <:+: w) ∨
    args.length ≤ i ∧ ∃ e, rc = .error e

/-- The byte that is next is taken as one of the parameter, and the argument that the
parameter becomes has the reference. -/
structure Survives (cf : ConfFile) (s : Scan) : Prop where
  taken : ∃ s', turn cf.buffer.mem cf.buffer.pos s = .next s' ∧ s'.lastSpace = false ∧
    s'.needSpace = false ∧ s'.start = s.start ∧ s'.args = s.args
  argument : ∀ s', turn cf.buffer.mem cf.buffer.pos s = .next s' → ∀ cf'' s'',
    Relation.ReflTransGen Goes (cf.setPos (cf.buffer.pos + 1), s') (cf'', s'') →
      ∀ rc cf₃ s₃, Returns cf'' s'' rc cf₃ s₃ → Carried s.args.length rc s₃.args

section Text
variable {mem mem' : ℕ → Byte} {start pos : ℕ} {ch : Byte} {a b : Bytes}

theorem length_textFrom (mem : ℕ → Byte) (start pos : ℕ) :
    (textFrom mem start pos).length = pos - start := by
  simp [textFrom]

theorem textFrom_succ (mem : ℕ → Byte) (h : start ≤ pos) :
    textFrom mem start (pos + 1) = textFrom mem start pos ++ [mem pos] := by
  have hlen : pos + 1 - start = (pos - start) + 1 := by omega
  have hlast : start + (pos - start) = pos := by omega
  simp [textFrom, hlen, List.range'_concat, hlast]

theorem textFrom_eq_cons (h : textFrom mem start pos = ch :: a) :
    start < pos ∧ mem start = ch ∧ textFrom mem (start + 1) pos = a := by
  have hlt : start < pos := by
    have hlen := congrArg List.length h
    rw [length_textFrom, List.length_cons] at hlen
    omega
  have hlen : pos - start = (pos - (start + 1)) + 1 := by omega
  rw [textFrom, hlen, List.range'_succ, List.map_cons, List.cons.injEq] at h
  exact ⟨hlt, h.1, h.2⟩

theorem textFrom_append (h : textFrom mem start pos = a ++ b) :
    textFrom mem (start + a.length) pos = b := by
  induction a generalizing start with
  | nil => exact h
  | cons ch a ih =>
    have hnext := ih (textFrom_eq_cons h).2.2
    rwa [Nat.add_assoc, Nat.add_comm 1] at hnext

theorem textFrom_congr {start' pos' : ℕ} (hlen : pos' - start' = pos - start)
    (h : ∀ i < pos - start, mem' (start' + i) = mem (start + i)) :
    textFrom mem' start' pos' = textFrom mem start pos := by
  refine List.ext_getElem (by simp [textFrom, hlen]) fun i hi hi' => ?_
  rw [length_textFrom] at hi'
  simpa [textFrom] using h i hi'

@[simp] theorem escapes_nil : escapes [] = false := rfl

theorem escapes_concat (a : Bytes) (ch : Byte) :
    escapes (a ++ [ch]) = (!escapes a && decide (ch = backslash)) := by
  simp [escapes]

theorem escapes_cons (h : ch ≠ backslash) (a : Bytes) : escapes (ch :: a) = escapes a := by
  simp [escapes, h]

theorem escapes_backslash (ch : Byte) (a : Bytes) : escapes (backslash :: ch :: a) = escapes a := by
  simp [escapes]

end Text

section Copying
variable {mem : ℕ → Byte} {last k : ℕ} {c : Copy} {out a b : Bytes}

theorem prefix_set {w : Bytes} {i : ℕ} (h : out <+: w) (hi : out.length ≤ i) (ch : Byte) :
    out <+: w.set i ch := by
  obtain ⟨t, rfl⟩ := h
  rw [List.set_append_right i ch hi]
  exact List.prefix_append _ _

variable (mem) in
theorem copyByte_prefix (h : out <+: c.word) (hdst : out.length ≤ c.dst) :
    out <+: (copyByte mem c).word ∧ out.length ≤ (copyByte mem c).dst := by
  simp only [copyByte]
  split_ifs <;> exact ⟨prefix_set h hdst _, Nat.le_succ_of_le hdst⟩

variable (mem last k) in
theorem copyLoop_prefix (h : out <+: c.word) (hdst : out.length ≤ c.dst) :
    out <+: (copyLoop mem last k c).word := by
  induction k generalizing c with
  | zero => exact h
  | succ k ih =>
    rw [copyLoop]
    split_ifs
    · obtain ⟨h', hdst'⟩ := copyByte_prefix mem h hdst
      exact ih h' hdst'
    · exact h

theorem copyByte_of_ne {ch : Byte} (h : mem c.src = ch) (hch : ch ≠ backslash) :
    copyByte mem c = c.put ch 1 := by
  rw [copyByte, h]
  exact if_neg hch

/-- A backslash is copied alone or taken together with the byte behind it. -/
theorem copyByte_backslash (h : mem c.src = backslash) :
    ∃ ch, copyByte mem c = c.put ch 2 ∨
      copyByte mem c = c.put ch 1 ∧ mem (c.src + 1) ≠ backslash := by
  simp only [copyByte, if_pos h]
  split_ifs with hquote
  · exact ⟨_, .inl rfl⟩
  · exact ⟨_, .inl rfl⟩
  · exact ⟨_, .inl rfl⟩
  · exact ⟨_, .inl rfl⟩
  · exact ⟨_, .inr ⟨rfl, fun hb => hquote (.inr (.inr hb))⟩⟩

theorem copyLoop_unescaped (htext : textFrom mem c.src last = a ++ b) (ha : escapes a = false)
    (hk : a.length ≤ k) :
    ∃ k' c', copyLoop mem last k c = copyLoop mem last k' c' ∧ c'.src = c.src + a.length ∧
      c'.dst ≤ c.dst + a.length ∧ c'.word.length = c.word.length ∧ k ≤ k' + a.length := by
  induction k generalizing c a with
  | zero =>
    obtain rfl : a = [] := List.length_eq_zero_iff.mp (by omega)
    exact ⟨0, c, rfl, rfl, le_rfl, rfl, le_rfl⟩
  | succ k ih =>
    cases a with
    | nil => exact ⟨k + 1, c, rfl, rfl, le_rfl, rfl, le_rfl⟩
    | cons ch a =>
      rw [List.cons_append] at htext
      obtain ⟨hlt, hch, hnext⟩ := textFrom_eq_cons htext
      rw [List.length_cons] at hk
      rw [copyLoop, if_pos hlt, List.length_cons]
      -- the rest behind one byte of the source
      have hone {d : Byte} (hd : copyByte mem c = c.put d 1) (hrest : escapes a = false) :
          ∃ k' c', copyLoop mem last k (copyByte mem c) = copyLoop mem last k' c' ∧
            c'.src = c.src + (a.length + 1) ∧ c'.dst ≤ c.dst + (a.length + 1) ∧
            c'.word.length = c.word.length ∧ k + 1 ≤ k' + (a.length + 1) := by
        rw [hd]
        obtain ⟨k', c', heq, hsrc, hdst, hword, hk'⟩ := ih (c := c.put d 1) hnext hrest (by omega)
        simp only [Copy.put, List.length_set] at hsrc hdst hword
        exact ⟨k', c', heq, by omega, by omega, hword, by omega⟩
      by_cases hback : ch = backslash
      · subst hback
        cases a with
        | nil => cases ha
        | cons ch a =>
          rw [escapes_backslash] at ha
          rw [List.cons_append] at hnext
          obtain ⟨-, hch', hnext⟩ := textFrom_eq_cons hnext
          obtain ⟨d, hd | ⟨hd, hne⟩⟩ := copyByte_backslash hch
          · rw [List.length_cons] at hk
            rw [hd, List.length_cons]
            obtain ⟨k', c', heq, hsrc, hdst, hword, hk'⟩ :=
              ih (c := c.put d 2) hnext ha (by omega)
            simp only [Copy.put, List.length_set] at hsrc hdst hword
            exact ⟨k', c', heq, by omega, by omega, hword, by omega⟩
          · exact hone hd (by rwa [escapes_cons fun hb => hne (hch'.trans hb)])
      · exact hone (copyByte_of_ne hch hback) (by rwa [escapes_cons hback] at ha)

theorem copyWord_reference {start : ℕ}
    (htext : textFrom mem start last = a ++ dollar :: lbrace :: b) (ha : escapes a = false) :
    [dollar, lbrace] <:+: copyWord mem start last := by
  have hlen := congrArg List.length htext
  simp only [length_textFrom, List.length_append, List.length_cons] at hlen
  obtain ⟨k, c, heq, hsrc, hdst, hword, hk⟩ := copyLoop_unescaped
    (c := ⟨start, 0, List.replicate (last - start) 0⟩) (k := last - start) htext ha (by omega)
  simp only [List.length_replicate] at hsrc hdst hword
  obtain ⟨k, rfl⟩ : ∃ k', k = k' + 2 := ⟨k - 2, by omega⟩
  have hrest := textFrom_append htext
  rw [← hsrc] at hrest
  obtain ⟨hlt, hdollar, hrest⟩ := textFrom_eq_cons hrest
  obtain ⟨hlt', hlbrace, -⟩ := textFrom_eq_cons hrest
  have hout : (c.word.take c.dst).length = c.dst := by
    rw [List.length_take]
    omega
  have h₁ := Library.Store.set_prefix (List.take_prefix c.dst c.word) (by omega) dollar
  rw [hout] at h₁
  have h₂ := Library.Store.set_prefix h₁ (by simp [hout]; omega) lbrace
  rw [List.length_append, hout, List.append_assoc] at h₂
  have hput : (c.put dollar 1).src = c.src + 1 := rfl
  rw [← hput] at hlt' hlbrace
  rw [copyWord, heq, copyLoop, if_pos hlt, copyByte_of_ne hdollar (by decide), copyLoop,
    if_pos hlt', copyByte_of_ne hlbrace (by decide)]
  have hcopied := copyLoop_prefix mem last k
    (c := (c.put dollar 1).put lbrace 1) h₂ (by simp [Copy.put, hout])
  exact (List.suffix_append _ _).isInfix.trans hcopied.isInfix

end Copying

section Escapes
variable {mem : ℕ → Byte} {pos : ℕ} {l : Lexer}

/-- In a word the lexer knows of an escape by the bytes of the word. -/
def Lexer.EscapesBy (l : Lexer) (mem : ℕ → Byte) (pos : ℕ) : Prop :=
  ∀ q e v, l.place = .word q e v →
    l.since ≤ pos ∧ e = escapes (textFrom mem (pos - l.since) pos)

@[simp] theorem textFrom_self (mem : ℕ → Byte) (pos : ℕ) : textFrom mem pos pos = [] := by
  simp [textFrom]

theorem escapes_textFrom_succ (mem : ℕ → Byte) (pos : ℕ) :
    escapes (textFrom mem pos (pos + 1)) = decide (mem pos = backslash) := by
  rw [textFrom_succ mem le_rfl, textFrom_self, escapes_concat]
  simp

/-- The first byte of a bare word, or the quote in front of a word. -/
theorem Lexer.between_word {ch : Byte} {q : Quoting} {e v : Bool} (h : l.place = .between)
    (hw : (l.between ch).place = .word q e v) :
    ((l.between ch).since = 1 ∧ e = decide (ch = backslash)) ∨
      ((l.between ch).since = 0 ∧ e = false) := by
  unfold Lexer.between at hw ⊢
  split_ifs at hw ⊢ with hspace hend hargs hclose hargs' hsharp hback hdouble hsingle
  · cases h.symm.trans hw
  · cases hw
  · cases hw
  · cases hw
  · cases hw
  · cases hw
    exact .inl ⟨rfl, by simp [hback]⟩
  · cases hw
    exact .inr ⟨rfl, rfl⟩
  · cases hw
    exact .inr ⟨rfl, rfl⟩
  · cases hw
    exact .inl ⟨rfl, by simp [hback]⟩

/-- Where a word goes on, the byte is one more of it; it escapes the next one if it is a
backslash that is not escaped. -/
theorem Lexer.word_word {ch : Byte} {q q' : Quoting} {e e' v v' : Bool}
    (h : l.place = .word q e v) (hw : (l.word q e v ch).place = .word q' e' v') :
    (l.word q e v ch).since = l.since + 1 ∧ e' = (!e && decide (ch = backslash)) := by
  unfold Lexer.word at hw ⊢
  dsimp only at hw ⊢
  split_ifs at hw ⊢ with hesc hbrace hback hdollar hends hquote hspace
  · cases hw
    exact ⟨rfl, by simp [hesc]⟩
  · cases h.symm.trans hw
    have hne : ch ≠ backslash := by
      rw [hbrace.1]
      decide
    exact ⟨rfl, by simp [hesc, hne]⟩
  · cases hw
    exact ⟨rfl, by simp [hesc, hback]⟩
  · cases hw
    exact ⟨rfl, by simp [hback]⟩
  · cases hw
  · cases hw
    exact ⟨rfl, by simp [hback]⟩

theorem Lexer.between_escapesBy (h : l.place = .between) :
    (l.between (mem pos)).EscapesBy mem (pos + 1) := by
  intro q e v hw
  rcases Lexer.between_word h hw with ⟨hsince, rfl⟩ | ⟨hsince, rfl⟩ <;> rw [hsince]
  · exact ⟨by omega, (escapes_textFrom_succ mem pos).symm⟩
  · exact ⟨by omega, by rw [Nat.sub_zero, textFrom_self, escapes_nil]⟩

theorem Lexer.word_escapesBy {q : Quoting} {e v : Bool} (g : l.EscapesBy mem pos)
    (h : l.place = .word q e v) : (l.word q e v (mem pos)).EscapesBy mem (pos + 1) := by
  obtain ⟨hle, he⟩ := g q e v h
  intro q' e' v' hw
  obtain ⟨hsince, rfl⟩ := Lexer.word_word h hw
  have hsub : pos + 1 - (l.since + 1) = pos - l.since := by omega
  rw [hsince, hsub]
  exact ⟨by omega, by rw [textFrom_succ mem (Nat.sub_le _ _), escapes_concat, ← he]⟩

theorem Lexer.EscapesBy.step (g : l.EscapesBy mem pos) :
    (l.step (mem pos)).EscapesBy mem (pos + 1) := by
  rw [Lexer.step]
  cases hm : l.place with
  | between => exact Lexer.between_escapesBy hm
  | word q e v => exact Lexer.word_escapesBy g hm
  | comment =>
    intro q e v hw
    dsimp only at hw
    split_ifs at hw
  | stopped =>
    intro q e v hw
    cases hm.symm.trans hw
  | behind =>
    dsimp only
    rw [Lexer.behind]
    split_ifs
    · intro q e v hw
      cases hw
    · intro q e v hw
      cases hw
    · exact Lexer.between_escapesBy rfl
    · intro q e v hw
      cases hw

end Escapes

section Iterations
variable {cf cf' cf₀ cf₁ cf₂ : ConfFile} {s s' s₁ s₂ : Scan} {rc : Rc} {n : ℕ} {mem : ℕ → Byte}
  {pos : ℕ}

/-- A refill keeps the text of the word, and changes only its start in the state. -/
theorem fill_text (hs : s.start ≤ cf.buffer.pos) (hf : fill cf s = .more cf' s') :
    s'.start ≤ cf'.buffer.pos ∧ (∃ start, s' = { s with start := start }) ∧
      textFrom cf'.buffer.mem s'.start cf'.buffer.pos =
        textFrom cf.buffer.mem s.start cf.buffer.pos := by
  refine (and_left_comm.mp ⟨fill_more_scan hf, ?_⟩)
  rcases fill_cases cf s with ⟨hm, -⟩ | ⟨rc, s₁, hr⟩ | ⟨len, size, ha, hr⟩
  · rw [hm] at hf
    cases hf
    exact ⟨hs, rfl⟩
  · rw [hr] at hf
    cases hf
  · rw [hr, readMore] at hf
    cases hread : cf.file.read (min (cf.file.stSize - cf.file.offset) (cf.buffer.bend - len))
        cf.file.offset with
    | none =>
      rw [hread] at hf
      cases hf
    | some r =>
      rw [hread] at hf
      dsimp only at hf
      split_ifs at hf with hlen
      cases hf
      refine ⟨Nat.zero_le _, textFrom_congr ?_ fun i hi => ?_⟩
      · rw [ha.len_eq, Nat.sub_zero]
      · rw [← ha.len_eq] at hi
        simp only [writeAt, moveToFront, Nat.zero_add, if_neg (Nat.not_le.mpr hi), if_pos hi]

/-- What holds when an iteration begins: the scan is where the lexer is, and has an escape
where the bytes of the word have one. -/
def Sound (cf : ConfFile) (s : Scan) : Prop :=
  ∃ l, Agrees l s cf.buffer.pos ∧ l.EscapesBy cf.buffer.mem cf.buffer.pos

theorem sound_init (cf : ConfFile) : Sound cf (Scan.init cf.buffer.pos cf.line) :=
  ⟨.start, agrees_init _ _, fun _ _ _ hw => by cases hw⟩

theorem Agrees.start_eq {l : Lexer} (h : Agrees l s pos) : s.start = pos - l.since := by
  have := h.since
  omega

theorem Sound.fill (h : Sound cf s) (hf : fill cf s = .more cf' s') : Sound cf' s' := by
  obtain ⟨l, hl, hesc⟩ := h
  have hsince := hl.since
  obtain ⟨hs', ⟨start, rfl⟩, htext⟩ := fill_text (by omega) hf
  have hlen := congrArg List.length htext
  rw [length_textFrom, length_textFrom] at hlen
  have hl' : Agrees l { s with start := start } cf'.buffer.pos :=
    ⟨hl.live, hl.needSpace, hl.lastSpace, hl.sharpComment, hl.variable_, hl.quoted, hl.sQuoted,
      hl.dQuoted, hl.args, by dsimp only at hs' hlen ⊢; omega⟩
  refine ⟨l, hl', fun q e v hw => ?_⟩
  rw [← hl'.start_eq, htext, hl.start_eq]
  exact ⟨by have := hl'.since; omega, (hesc q e v hw).2⟩

theorem Sound.next (h : Sound cf s) (ht : turn cf.buffer.mem cf.buffer.pos s = .next s') :
    Sound (cf.setPos (cf.buffer.pos + 1)) s' := by
  obtain ⟨l, hl, hesc⟩ := h
  have hturn := turn_agrees cf.buffer.mem hl
  rw [ht] at hturn
  exact ⟨_, hturn, hesc.step⟩

theorem Iterates.sound (h : Iterates cf₀ n cf s) : Sound cf s := by
  induction h with
  | start => exact sound_init cf₀
  | next pread _ hf ht ih =>
    have hpread : Sound (ConfFile.withPread _ pread) _ := ih
    exact (hpread.fill hf).next ht

theorem endWord_args {ch : Byte} (h : endWord ch s = some s') : s'.args = s.args := by
  simp only [endWord] at h
  split_ifs at h <;> cases h <;> rfl

theorem wordFound_args (mem : ℕ → Byte) (pos : ℕ) (ch : Byte) (s : Scan) :
    (wordFound mem pos ch s).scan.args = s.args ++ [copyWord mem s.start pos] := by
  unfold wordFound
  dsimp only
  split_ifs <;> rfl

/-- A word has begun and not ended. -/
structure WordOpen (s : Scan) : Prop where
  lastSpace : s.lastSpace = false
  needSpace : s.needSpace = false
  sharpComment : s.sharpComment = false

/-- A byte behind the first of a word leaves the word open, or ends it. -/
theorem WordOpen.turn (g : WordOpen s) (mem : ℕ → Byte) (pos : ℕ) :
    (∃ s', turn mem pos s = .next s' ∧ WordOpen s' ∧ s'.start = s.start ∧ s'.args = s.args) ∨
    (Conf.turn mem pos s).scan.args = s.args ++ [copyWord mem s.start pos] := by
  obtain ⟨line, hl⟩ := countLine_eq (mem pos) s
  simp only [Conf.turn, hl, g.sharpComment, Bool.false_and, Bool.false_eq_true, if_false,
    g.needSpace, scanByte, g.lastSpace]
  split_ifs with hq
  · exact .inl ⟨_, rfl, ⟨rfl, rfl, rfl⟩, rfl, rfl⟩
  · simp only [inWord]
    split_ifs with hbrace hback hdollar
    · exact .inl ⟨_, rfl, ⟨rfl, rfl, rfl⟩, rfl, rfl⟩
    · exact .inl ⟨_, rfl, ⟨rfl, rfl, rfl⟩, rfl, rfl⟩
    · exact .inl ⟨_, rfl, ⟨rfl, rfl, rfl⟩, rfl, rfl⟩
    · cases hend : endWord (mem pos) _ with
      | none => exact .inl ⟨_, rfl, ⟨rfl, rfl, rfl⟩, rfl, rfl⟩
      | some s' =>
        have hargs := endWord_args hend
        have hstart := endWord_start hend
        dsimp only at hargs hstart ⊢
        exact .inr (by rw [wordFound_args, hargs, hstart])

theorem startWord_args (pos : ℕ) (ch : Byte) (s : Scan) :
    (startWord pos ch s).scan.args = s.args := by
  simp only [startWord, apply_ite Turn.scan, apply_ite Scan.args]
  simp only [Turn.scan, ite_self]

theorem scanByte_args (mem : ℕ → Byte) (pos : ℕ) (ch : Byte) (s : Scan) :
    s.args <+: (scanByte mem pos ch s).scan.args := by
  unfold scanByte
  split_ifs
  · rw [startWord_args]
  · simp only [inWord]
    split_ifs
    · exact List.prefix_rfl
    · exact List.prefix_rfl
    · exact List.prefix_rfl
    · cases hend : endWord ch _ with
      | none => exact List.prefix_rfl
      | some s' =>
        have hargs := endWord_args hend
        dsimp only at hargs ⊢
        rw [wordFound_args, hargs]
        exact List.prefix_append _ _

theorem turn_args (mem : ℕ → Byte) (pos : ℕ) (s : Scan) :
    s.args <+: (turn mem pos s).scan.args := by
  obtain ⟨line, hl⟩ := countLine_eq (mem pos) s
  simp only [turn, hl, afterQuote]
  split_ifs
  all_goals first
    | exact List.prefix_rfl
    | refine List.IsPrefix.trans ?_ (scanByte_args mem pos (mem pos) _)
      exact List.prefix_rfl

/-- Behind a reference in the parameter that follows `args`: the word is open and its text
has the reference, or the argument is there. -/
inductive Carries (args : List Bytes) (cf : ConfFile) (s : Scan) : Prop
  | pending {a b : Bytes} : WordOpen s → s.args = args → s.start ≤ cf.buffer.pos →
      textFrom cf.buffer.mem s.start cf.buffer.pos = a ++ dollar :: lbrace :: b →
      escapes a = false → Carries args cf s
  | done {w : Bytes} : s.args[args.length]? = some w → [dollar, lbrace] <:+: w →
      Carries args cf s

variable {args : List Bytes}

theorem Carries.withPread (h : Carries args cf s) (pread : ℕ → ℕ → Option Bytes) :
    Carries args (cf.withPread pread) s := by
  cases h with
  | pending hopen hargs hs hword hesc => exact .pending hopen hargs hs hword hesc
  | done hw href => exact .done hw href

theorem Carries.fill (h : Carries args cf s) (hf : fill cf s = .more cf' s')
    (hs : s.start ≤ cf.buffer.pos) : Carries args cf' s' := by
  obtain ⟨hs', ⟨start, rfl⟩, htext⟩ := fill_text hs hf
  cases h with
  | pending hopen hargs _ hword hesc =>
    exact .pending ⟨hopen.lastSpace, hopen.needSpace, hopen.sharpComment⟩ hargs hs'
      (htext.trans hword) hesc
  | done hw href => exact .done hw href

/-- A byte is taken: the call goes on, or the argument is there. -/
theorem Carries.turn (h : Carries args cf s) :
    (∃ s', turn cf.buffer.mem cf.buffer.pos s = .next s' ∧
      Carries args (cf.setPos (cf.buffer.pos + 1)) s') ∨
    ∃ w, (Conf.turn cf.buffer.mem cf.buffer.pos s).scan.args[args.length]? = some w ∧
      [dollar, lbrace] <:+: w := by
  cases h with
  | @pending a b hopen hargs hs hword hesc =>
    rcases hopen.turn cf.buffer.mem cf.buffer.pos with ⟨s', ht, hopen', hstart, hargs'⟩ | hended
    · have hnext := textFrom_succ cf.buffer.mem hs
      rw [hword, List.append_assoc, ← hstart] at hnext
      refine .inl ⟨s', ht, .pending hopen' (hargs'.trans hargs) ?_ hnext hesc⟩
      rw [hstart]
      exact Nat.le_succ_of_le hs
    · refine .inr ⟨_, ?_, copyWord_reference hword hesc⟩
      rw [hended, hargs, List.getElem?_concat_length]
  | done hw href =>
    obtain ⟨rest, hrest⟩ := turn_args cf.buffer.mem cf.buffer.pos s
    refine .inr ⟨_, ?_, href⟩
    rw [← hrest, List.getElem?_append_left (List.getElem?_eq_some_iff.mp hw).1, hw]

theorem Carries.next (h : Carries args cf s)
    (ht : Conf.turn cf.buffer.mem cf.buffer.pos s = .next s') :
    Carries args (cf.setPos (cf.buffer.pos + 1)) s' := by
  rcases h.turn with ⟨s'', hs'', hcarries⟩ | ⟨w, hw, href⟩
  · rw [ht] at hs''
    cases hs''
    exact hcarries
  · rw [ht] at hw
    exact .done hw href

theorem Carries.returns {cf₃ : ConfFile} {s₃ : Scan} (h : Carries args cf s)
    (hs : s.start ≤ cf.buffer.pos) (hr : Returns cf s rc cf₃ s₃) :
    Carried args.length rc s₃.args := by
  cases hr with
  | fill pread hf =>
    obtain ⟨hargs', hrc⟩ := fill_ret_scan hf
    cases h with
    | pending hopen hargs _ _ _ =>
      refine .inr ⟨by rw [hargs', hargs], ?_⟩
      rcases hrc with rfl | he
      · rw [endOfInput, if_pos (.inr (by simp [hopen.lastSpace]))]
        split_ifs <;> exact ⟨_, rfl⟩
      · exact he
    | done hw href => exact .inl ⟨_, hargs' ▸ hw, href⟩
  | turn pread hf ht =>
    rcases ((h.withPread pread).fill hf hs).turn with ⟨s'', hs'', -⟩ | ⟨w, hw, href⟩
    · rw [ht] at hs''
      cases hs''
    · rw [ht] at hw
      exact .inl ⟨w, hw, href⟩

theorem Goes.carries {p p' : ConfFile × Scan} (h : Goes p p') (g : Carries args p.1 p.2)
    (hs : p.2.start ≤ p.1.buffer.pos) :
    Carries args p'.1 p'.2 ∧ p'.2.start ≤ p'.1.buffer.pos := by
  cases h with
  | @next cf cf' s s' s'' pread hf ht =>
    have hs : s.start ≤ (cf.withPread pread).buffer.pos := hs
    have hmoves := turn_moves cf'.buffer.mem (fill_text hs hf).1
    rw [ht] at hmoves
    exact ⟨((g.withPread pread).fill hf hs).next ht, hmoves.2⟩

theorem carries_run {p p' : ConfFile × Scan} (h : Relation.ReflTransGen Goes p p')
    (g : Carries args p.1 p.2) (hs : p.2.start ≤ p.1.buffer.pos) :
    Carries args p'.1 p'.2 ∧ p'.2.start ≤ p'.1.buffer.pos := by
  induction h with
  | refl => exact ⟨g, hs⟩
  | tail _ hgoes ih => exact hgoes.carries ih.1 ih.2

theorem Sound.begins (h : Sound cf s) (hb : Begins s) :
    s.quoted = false ∧ s.variable_ = false ∧ s.sQuoted = false ∧ s.dQuoted = false := by
  obtain ⟨l, hl, -⟩ := h
  have hbetween : l.place = .between := by
    have hplace := hl.lastSpace.symm.trans hb.lastSpace
    have hcomment := hl.sharpComment.symm.trans hb.sharpComment
    simp only [decide_eq_true_eq, decide_eq_false_iff_not] at hplace hcomment
    exact hplace.resolve_right hcomment
  refine ⟨?_, ?_, ?_, ?_⟩
  · simp [hl.quoted, hbetween, Place.escaped]
  · simp [hl.variable_, hbetween, Place.variable_]
  · simp [hl.sQuoted, hbetween, Place.quoting]
  · simp [hl.dQuoted, hbetween, Place.quoting]

/-- Neither between words nor behind a quoted one the lexer is in a word. -/
theorem Agrees.place_word {l : Lexer} (h : Agrees l s pos) (hlast : s.lastSpace = false)
    (hneed : s.needSpace = false) : ∃ q e v, l.place = .word q e v := by
  rw [h.lastSpace, decide_eq_false_iff_not, not_or] at hlast
  rw [h.needSpace, decide_eq_false_iff_not] at hneed
  cases hw : l.place with
  | between => exact absurd hw hlast.1
  | comment => exact absurd hw hlast.2
  | behind => exact absurd hw hneed
  | stopped => exact absurd hw h.live
  | word q e v => exact ⟨q, e, v, rfl⟩

theorem Sound.inside (h : Sound cf s) (hi : Inside cf s) :
    WordOpen s ∧ s.quoted = false ∧ s.start ≤ cf.buffer.pos := by
  obtain ⟨l, hl, hesc⟩ := h
  obtain ⟨q, e, v, hw⟩ := hl.place_word hi.lastSpace hi.needSpace
  obtain ⟨-, he⟩ := hesc q e v hw
  have hsince := hl.since
  refine ⟨⟨hi.lastSpace, hi.needSpace, by simp [hl.sharpComment, hw]⟩, ?_, by omega⟩
  rw [← hl.start_eq] at he
  rw [hl.quoted, hw, Place.escaped, he]
  exact hi.unescaped

end Iterations

section Dollar
variable {mem : ℕ → Byte} {pos : ℕ} {s : Scan}

theorem countLine_of_ne {ch : Byte} (h : ch ≠ lf) (s : Scan) : countLine ch s = s := if_neg h

theorem WordOpen.turn_eq {ch : Byte} (g : WordOpen s) (hquoted : s.quoted = false)
    (hmem : mem pos = ch) (hlf : ch ≠ lf) : Conf.turn mem pos s = inWord mem pos ch s := by
  simp only [Conf.turn, hmem, countLine_of_ne hlf, g.sharpComment, hquoted, g.needSpace, scanByte,
    g.lastSpace, Bool.false_eq_true, if_false]

theorem turn_dollar (g : WordOpen s) (hquoted : s.quoted = false) (hmem : mem pos = dollar) :
    turn mem pos s = .next { s with variable_ := true } := by
  have hbrace : ¬ (dollar = lbrace ∧ s.variable_ = true) := fun h => absurd h.1 (by decide)
  have hback : dollar ≠ backslash := by decide
  rw [g.turn_eq hquoted hmem (by decide), inWord, if_neg hbrace]
  dsimp only
  rw [if_neg hback, if_pos rfl]

theorem turn_lbrace (g : WordOpen s) (hquoted : s.quoted = false) (hvariable : s.variable_ = true)
    (hmem : mem pos = lbrace) : turn mem pos s = .next s := by
  rw [g.turn_eq hquoted hmem (by decide), inWord, if_pos ⟨rfl, hvariable⟩]

theorem turn_first_dollar (hb : Begins s) (hquoted : s.quoted = false) (hmem : mem pos = dollar) :
    turn mem pos s = .next { s with start := pos, startLine := s.line, lastSpace := false } := by
  have hlf : dollar ≠ lf := by decide
  have hspace : isSpace dollar = false := by decide
  have hend : ¬ (dollar = semicolon ∨ dollar = lbrace) := by decide
  have hne : dollar ≠ rbrace ∧ dollar ≠ sharp ∧ dollar ≠ backslash ∧ dollar ≠ dquote ∧
    dollar ≠ squote := by decide
  obtain ⟨hrbrace, hsharp, hback, hdquote, hsquote⟩ := hne
  simp only [turn, hmem, countLine_of_ne hlf, hb.sharpComment, hquoted, hb.needSpace, scanByte,
    hb.lastSpace, startWord, hspace, if_neg hend, if_neg hrbrace, if_neg hsharp, if_neg hback,
    if_neg hdquote, if_neg hsquote, Bool.false_eq_true, if_false, if_true]

theorem turn_lbrace_ends (g : WordOpen s) (hquoted : s.quoted = false)
    (hvariable : s.variable_ = false) (hs : s.sQuoted = false) (hd : s.dQuoted = false)
    (hmem : mem pos = lbrace) : ∃ s', turn mem pos s = .ret .blockStart s' := by
  have hnot : ¬ (lbrace = lbrace ∧ s.variable_ = true) := by simp [hvariable]
  have hend : endWord lbrace { s with variable_ := false } =
      some { s with variable_ := false, lastSpace := true } := by
    simp [endWord, hs, hd]
  refine ⟨{ s with
    variable_ := false
    lastSpace := true
    args := s.args ++ [copyWord mem s.start pos] }, ?_⟩
  rw [g.turn_eq hquoted hmem (by decide), inWord, if_neg hnot]
  dsimp only
  rw [if_neg (by decide), if_neg (by decide), hend]
  dsimp only
  rw [wordFound, if_neg (by decide), if_pos rfl]

end Dollar

section Main
variable {cf₀ cf₁ cf₂ : ConfFile} {s₁ s₂ : Scan}

theorem Reference.sound (h : Reference cf₀ cf₁ s₁ cf₂ s₂) : Sound cf₁ s₁ := by
  obtain ⟨n, cf, s, pread, hi, hf⟩ := h.reached
  have hpread : Sound (cf.withPread pread) s := hi.sound
  exact hpread.fill hf

theorem Reference.not_survives (h : Reference cf₀ cf₁ s₁ cf₂ s₂) (hb : Begins s₁) :
    ¬ Survives cf₂ s₂ := by
  intro hsurv
  obtain ⟨hquoted, hvariable, hs, hd⟩ := h.sound.begins hb
  obtain ⟨s, pread, ht, hf⟩ := h.next
  rw [turn_first_dollar hb hquoted h.atDollar] at ht
  cases ht
  obtain ⟨-, ⟨start, hs₂⟩, -⟩ := fill_text (Nat.le_succ _) hf
  have hends : ∃ s', turn cf₂.buffer.mem cf₂.buffer.pos s₂ = .ret .blockStart s' := by
    have hopen : WordOpen s₂ := by
      rw [hs₂]
      exact ⟨rfl, hb.needSpace, hb.sharpComment⟩
    refine turn_lbrace_ends hopen ?_ ?_ ?_ ?_ h.atLbrace <;> rw [hs₂] <;> assumption
  obtain ⟨s', ht', -⟩ := hsurv.taken
  obtain ⟨s'', hret⟩ := hends
  rw [hret] at ht'
  cases ht'

theorem Reference.survives (h : Reference cf₀ cf₁ s₁ cf₂ s₂) (hi : Inside cf₁ s₁) :
    Survives cf₂ s₂ := by
  obtain ⟨hopen, hquoted, hle⟩ := h.sound.inside hi
  obtain ⟨s, pread, ht, hf⟩ := h.next
  rw [turn_dollar hopen hquoted h.atDollar] at ht
  cases ht
  obtain ⟨hle₂, ⟨start, hs₂⟩, htext⟩ := fill_text (Nat.le_succ_of_le hle) hf
  have hopen₂ : WordOpen s₂ := by
    rw [hs₂]
    exact ⟨hopen.lastSpace, hopen.needSpace, hopen.sharpComment⟩
  have hkeep : turn cf₂.buffer.mem cf₂.buffer.pos s₂ = .next s₂ := by
    refine turn_lbrace hopen₂ ?_ ?_ h.atLbrace <;> rw [hs₂]
    exact hquoted
  -- the text of the word up to the `{`
  have hword : textFrom cf₂.buffer.mem s₂.start (cf₂.buffer.pos + 1) =
      textFrom cf₁.buffer.mem s₁.start cf₁.buffer.pos ++ [dollar, lbrace] := by
    have hdollar := textFrom_succ cf₁.buffer.mem hle
    rw [h.atDollar] at hdollar
    rw [textFrom_succ _ hle₂, htext, h.atLbrace]
    exact (congrArg (· ++ [lbrace]) hdollar).trans (List.append_assoc _ _ _)
  have hcarries : Carries s₂.args (cf₂.setPos (cf₂.buffer.pos + 1)) s₂ :=
    .pending hopen₂ rfl (Nat.le_succ_of_le hle₂) hword hi.unescaped
  refine ⟨⟨s₂, hkeep, hopen₂.lastSpace, hopen₂.needSpace, rfl, rfl⟩, ?_⟩
  intro s' ht' cf'' s'' hrun rc cf₃ s₃ hr
  obtain rfl : s₂ = s' := by simpa using hkeep.symm.trans ht'
  obtain ⟨hc, hs''⟩ := carries_run hrun hcarries (Nat.le_succ_of_le hle₂)
  exact hc.returns hs'' hr

/-- A reference survives exactly if its `$` does not begin a bare parameter. -/
theorem reference_survives_iff (h : Reference cf₀ cf₁ s₁ cf₂ s₂) :
    Survives cf₂ s₂ ↔ ¬ Begins s₁ :=
  ⟨fun hs hb => h.not_survives hb hs, fun hb => h.survives (h.parameter.resolve_left hb)⟩

end Main

section Param
variable {text : Bytes} {m n : ℕ} {s s' : Scan}

theorem fill_param (hn : n < text.length) (s : Scan) :
    fill ((ConfFile.param text).setPos n) s = .more ((ConfFile.param text).setPos n) s :=
  if_neg (Nat.not_le.mpr hn)

theorem iterates_param
    (hi : Iterates (.param text) m ((ConfFile.param text).setPos m) s)
    (h : passes (text.getD · 0) n m s = some s') (hn : m + n ≤ text.length) :
    Iterates (.param text) (m + n) ((ConfFile.param text).setPos (m + n)) s' := by
  induction n generalizing m s with
  | zero =>
    cases h
    exact hi
  | succ n ih =>
    rw [passes] at h
    cases ht : turn (text.getD · 0) m s with
    | ret rc s₁ =>
      rw [ht] at h
      cases h
    | next s₁ =>
      rw [ht] at h
      have hstep : Iterates (.param text) (m + 1) ((ConfFile.param text).setPos (m + 1)) s₁ :=
        .next (fun _ _ => none) hi (fill_param (by omega) s) ht
      have hnext := ih hstep h (by omega)
      rwa [Nat.add_assoc, Nat.add_comm 1] at hnext

theorem reference_param (h : passes (text.getD · 0) n 0 (Scan.init 0 0) = some s)
    (hp : Begins s ∨ Inside ((ConfFile.param text).setPos n) s)
    (hdollar : text.getD n 0 = dollar) (hlbrace : text.getD (n + 1) 0 = lbrace)
    (ht : turn (text.getD · 0) n s = .next s') (hn : n + 1 < text.length) :
    Reference (.param text) ((ConfFile.param text).setPos n) s
      ((ConfFile.param text).setPos (n + 1)) s' where
  reached := by
    have hi := iterates_param .start h (by omega)
    rw [Nat.zero_add] at hi
    exact ⟨n, _, s, fun _ _ => none, hi, fill_param (by omega) s⟩
  parameter := hp
  atDollar := hdollar
  next := ⟨s', fun _ _ => none, ht, fill_param hn s'⟩
  atLbrace := hlbrace

/-- In a word that has begun. -/
theorem reference_survives_iff_later :
    Survives ((ConfFile.param (ascii "a b$\x7bx\x7d;")).setPos 4)
      ⟨2, 0, false, false, false, true, false, false, false, 0, [ascii "a"]⟩ :=
  (reference_survives_iff (reference_param
    (s := ⟨2, 0, false, false, false, false, false, false, false, 0, [ascii "a"]⟩) rfl
    (.inr ⟨rfl, rfl, by decide⟩) (by decide) (by decide) (by decide) (by decide))).mpr
    fun hb => Bool.noConfusion hb.lastSpace

/-- The first byte of a word: the `{` ends it and begins a block. -/
theorem reference_fails : ∃ cf₁ s₁ cf₂ s₂,
    Reference (.param (ascii "a $\x7bx\x7d;")) cf₁ s₁ cf₂ s₂ ∧ ¬ Survives cf₂ s₂ ∧
      (readToken (.param (ascii "a $\x7bx\x7d;"))).map (·.1) =
        some ⟨.blockStart, [ascii "a", ascii "$"], 0⟩ := by
  have h : Reference (.param (ascii "a $\x7bx\x7d;"))
      ((ConfFile.param (ascii "a $\x7bx\x7d;")).setPos 2)
      ⟨0, 0, false, true, false, false, false, false, false, 0, [ascii "a"]⟩
      ((ConfFile.param (ascii "a $\x7bx\x7d;")).setPos 3)
      ⟨2, 0, false, false, false, false, false, false, false, 0, [ascii "a"]⟩ :=
    reference_param rfl (.inl ⟨rfl, rfl, rfl⟩) (by decide) (by decide) (by decide) (by decide)
  exact ⟨_, _, _, _, h, h.not_survives ⟨rfl, rfl, rfl⟩, by decide⟩

end Param

end Lingx.Conf

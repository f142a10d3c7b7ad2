import Lingx.Conf.Lexer
import Lingx.Conf.Window

/-! When a call of `read_token_` fails with a too long parameter: where as many bytes as the
buffer holds have been read since the call, or the last parameter or comment in it, began.
That `start` stays behind while white space and comments are skipped makes these count. -/

namespace Lingx.Conf

variable {content : Bytes} {cf cf' : ConfFile} {s s' : Scan} {d : ℕ}

/-- No parameter has as many bytes as the buffer: fewer lie between its first byte and any
of its bytes, the one that ends it included. -/
def ParamsShort (content : Bytes) : Prop := ∀ p < content.length,
  (lexAt content p).place.inWord = true → (lexAt content p).since < MAX_CONF_BUFFER

/-- Nor has the text from the beginning of a call, or of the last parameter or comment in it,
to a byte that is in no parameter. -/
def GapsShort (content : Bytes) : Prop := ∀ p < content.length,
  (lexAt content p).place.inWord = false → (lexAt content p).place ≠ .stopped →
    (lexAt content p).since < MAX_CONF_BUFFER

/-- The buffer of a file. -/
structure ConfFile.Framed (cf : ConfFile) : Prop where
  bend : cf.buffer.bend = MAX_CONF_BUFFER
  last : cf.buffer.last ≤ MAX_CONF_BUFFER

theorem readMore_framed {mem : ℕ → Byte} {len : ℕ} (g : cf.Framed) (hlen : len ≤ MAX_CONF_BUFFER)
    (h : readMore cf mem len s = .more cf' s') : cf'.Framed := by
  have hbend := g.bend
  simp only [readMore] at h
  split at h
  · cases h
  · split_ifs at h with hsize
    cases h
    refine ⟨hbend, ?_⟩
    dsimp only
    omega

theorem fill_framed (g : cf.Framed) (hpos : cf.buffer.pos ≤ cf.buffer.last)
    (h : fill cf s = .more cf' s') : cf'.Framed := by
  have hlast := g.last
  rw [fill] at h
  split_ifs at h
  · simp only [refill] at h
    split_ifs at h
    exact readMore_framed g (by omega) h
  · cases h
    exact g

/-- What a call without a too long parameter does, from one place to another. -/
structure CallRuns (content : Bytes) (pos pos' : ℕ) (rc : Rc) : Prop where
  le : pos ≤ pos'
  advances : pos < pos' ∨ pos' = content.length
  since : ∀ p, pos ≤ p → p < pos' → (lexAt content p).since < MAX_CONF_BUFFER
  notTooLong : ∀ e, rc = .error e → ¬ e.TooLong
  fails : ∀ e, rc = .error e → pos' < content.length → (lexAt content pos').place = .stopped
  returns : (∀ e, rc ≠ .error e) → pos' < content.length → lexAt content pos' = .start

theorem endOfInput_notTooLong {fd : ℤ} {e : ConfError} (h : endOfInput fd s = .error e) :
    ¬ e.TooLong := by
  rw [endOfInput] at h
  split_ifs at h <;> cases h <;> exact fun h => h

theorem CallRuns.done {pos : ℕ} {fd : ℤ} (h : content.length = pos) :
    CallRuns content pos pos (endOfInput fd s) where
  le := le_rfl
  advances := .inr h.symm
  since _ _ _ := by omega
  notTooLong _ he := endOfInput_notTooLong he
  fails _ _ _ := by omega
  returns _ _ := by omega

theorem CallRuns.cons {pos pos' : ℕ} {rc : Rc} (h : CallRuns content (pos + 1) pos' rc)
    (hsince : (lexAt content pos).since < MAX_CONF_BUFFER) : CallRuns content pos pos' rc where
  le := Nat.le_of_succ_le h.le
  advances := .inl h.le
  since p hp hp' := by
    rcases hp.eq_or_lt with rfl | hlt
    · exact hsince
    · exact h.since p hlt hp'
  notTooLong := h.notTooLong
  fails := h.fails
  returns := h.returns

theorem CallRuns.last {pos : ℕ} {rc : Rc} (hpos : pos < content.length)
    (h : (Turn.ret rc s).Agrees ((lexAt content pos).step (content.getD pos 0)) (pos + 1))
    (hsince : (lexAt content pos).since < MAX_CONF_BUFFER) :
    CallRuns content pos (pos + 1) rc where
  le := Nat.le_succ pos
  advances := .inl (Nat.lt_succ_self pos)
  since p hp hp' := by
    obtain rfl : p = pos := by omega
    exact hsince
  notTooLong e he := by
    subst he
    exact h.2
  fails e he _ := by
    subst he
    rw [lexAt_succ hpos]
    exact h.1
  returns hne _ := by
    rw [lexAt_succ hpos]
    cases rc with
    | error e => exact absurd rfl (hne e)
    | ok => exact h
    | blockStart => exact h
    | blockDone => exact h
    | fileDone => exact h

/-- The lexer is at the place of the scan, unless the text is at its end. -/
def InStep (content : Bytes) (s : Scan) (pos : ℕ) : Prop :=
  pos < content.length → Agrees (lexAt content pos) s pos

/-- Where the call fails, as many bytes as the buffer holds have been read since. -/
def Overfull (content : Bytes) : Prop := ∃ p < content.length,
  (lexAt content p).place ≠ .stopped ∧ (lexAt content p).since = MAX_CONF_BUFFER

theorem readLoop_lexer {k : ℕ} {rc : Rc} (g : Covers content cf d s.start) (hframe : cf.Framed)
    (hstep : InStep content (s.shift d) (d + cf.buffer.pos))
    (h : readLoop k cf s = some (rc, cf', s')) :
    (∃ d', Covers content cf' d' cf'.buffer.pos ∧ cf'.Framed ∧
        CallRuns content (d + cf.buffer.pos) (d' + cf'.buffer.pos) rc) ∨
      (∃ e, rc = .error e ∧ e.TooLong) ∧ Overfull content := by
  induction k generalizing cf s d with
  | zero => cases h
  | succ k ih =>
    have hfill := fill_follows g
    rw [readLoop] at h
    cases hf : fill cf s with
    | ret rc₁ cf₁ s₁ =>
      rw [hf] at h hfill
      cases h
      cases hfill with
      | done hlen => exact .inl ⟨d, g.mono g.start_le le_rfl, hframe, .done hlen⟩
      | tooLong he hlen hlt =>
        have hagrees := hstep hlt
        refine .inr ⟨⟨_, rfl, he⟩, _, hlt, hagrees.live, ?_⟩
        have := hagrees.since
        simp only [Scan.shift] at this
        omega
    | more cf₁ s₁ =>
      have hframe₁ := fill_framed hframe g.bounded.pos_le hf
      rw [hf] at h hfill
      cases hfill with
      | more g₁ hlt hshift hplace hfd =>
        rename_i d₁
        have hstart := g₁.start_le
        have hlen := g₁.le_length
        have hlast := hframe₁.last
        have hpos : d₁ + cf₁.buffer.pos < content.length := by omega
        have hturn : turn (content.getD · 0) (d₁ + cf₁.buffer.pos) (s₁.shift d₁) = _ :=
          turn_shift hstart fun i hi hi' => g₁.mem i hi (by omega)
        have hmoves := turn_moves cf₁.buffer.mem hstart
        rw [← hplace, ← hshift] at hstep
        rw [← hplace]
        have hagrees := hstep hpos
        have hsince : (lexAt content (d₁ + cf₁.buffer.pos)).since < MAX_CONF_BUFFER := by
          have := hagrees.since
          simp only [Scan.shift] at this
          omega
        have hnext := turn_agrees (content.getD · 0) hagrees
        rw [hturn] at hnext
        cases ht : turn cf₁.buffer.mem cf₁.buffer.pos s₁ with
        | ret rc₂ s₂ =>
          dsimp only at h
          rw [ht] at h hnext
          cases h
          refine .inl ⟨d₁, g₁.setPos hlt (Nat.le_succ_of_le hstart) le_rfl,
            ⟨hframe₁.bend, hlast⟩, ?_⟩
          exact .last hpos hnext hsince
        | next s₂ =>
          dsimp only at h
          rw [ht] at h hnext hmoves
          obtain ⟨hle, hle'⟩ := hmoves
          have hstep₂ : InStep content (s₂.shift d₁) (d₁ + (cf₁.buffer.pos + 1)) := by
            intro _
            rw [← Nat.add_assoc, lexAt_succ hpos]
            exact hnext
          rcases ih (g₁.setPos hlt hle hle') ⟨hframe₁.bend, hlast⟩ hstep₂ h with
            ⟨d', g', hframe', hruns⟩ | hover
          · exact .inl ⟨d', g', hframe', hruns.cons hsince⟩
          · exact .inr hover

theorem readToken_lexer {t : Token} (g : Covers content cf d cf.buffer.pos) (hframe : cf.Framed)
    (hstart : d + cf.buffer.pos < content.length → lexAt content (d + cf.buffer.pos) = .start)
    (h : readToken cf = some (t, cf')) :
    (∃ d', Covers content cf' d' cf'.buffer.pos ∧ cf'.Framed ∧
        CallRuns content (d + cf.buffer.pos) (d' + cf'.buffer.pos) t.rc) ∨
      t.TooLong ∧ Overfull content := by
  simp only [readToken, Option.bind_eq_bind, Option.bind_eq_some_iff, Option.some.injEq,
    Prod.exists, Prod.mk.injEq] at h
  obtain ⟨rc, cf₁, s, hrun, rfl, rfl⟩ := h
  have hstep : InStep content ((Scan.init cf.buffer.pos cf.line).shift d) (d + cf.buffer.pos) :=
    fun hlt => hstart hlt ▸ agrees_init _ _
  rcases readLoop_lexer g hframe hstep hrun with ⟨d', g', hframe', hruns⟩ | ⟨he, hover⟩
  · refine .inl ⟨d', ⟨⟨g'.bounded.pos_le, g'.bounded.last_le⟩, le_rfl, g'.mem, ?_⟩,
      ⟨hframe'.bend, hframe'.last⟩, hruns⟩
    cases g'.rest with
    | none h h' => exact .none h h'
    | file h h' h'' hr => exact .file h h' h'' hr
  · exact .inr ⟨he, hover⟩

theorem lexAt_stopped {p q : ℕ} (h : (lexAt content p).place = .stopped) (hpq : p ≤ q)
    (hq : q ≤ content.length) : (lexAt content q).place = .stopped := by
  induction q, hpq using Nat.le_induction with
  | base => exact h
  | succ q _ ih =>
    have hstop := ih (by omega)
    rw [lexAt_succ (by omega), Lexer.step, hstop]
    exact hstop

/-- A call that fails is the last one. -/
def Token.Failed (t : Token) : Prop := ∃ e, t.rc = .error e

/-- Of the calls up to the first that fails none fails with a too long parameter. -/
def NoTooLong (calls : List (Token × ℕ)) : Prop :=
  ∀ i t, calls[i]? = some t → (∀ u ∈ calls.take i, ¬ u.1.Failed) → ¬ t.1.TooLong

theorem noTooLong_cons {t : Token × ℕ} {calls : List (Token × ℕ)} :
    NoTooLong (t :: calls) ↔ ¬ t.1.TooLong ∧ (¬ t.1.Failed → NoTooLong calls) := by
  constructor
  · intro h
    refine ⟨h 0 t rfl (by simp), fun ht i u hu hbefore => h (i + 1) u hu ?_⟩
    simpa [ht] using hbefore
  · rintro ⟨ht, hrest⟩ i u hu hbefore
    cases i with
    | zero =>
      obtain rfl : t = u := by simpa using hu
      exact ht
    | succ i =>
      simp only [List.take_succ_cons, List.forall_mem_cons] at hbefore
      exact hrest hbefore.1 i u hu hbefore.2

theorem Token.TooLong.failed {t : Token} (h : t.TooLong) : t.Failed := h.imp fun _ he => he.1

theorem CallRuns.not_tooLong {pos pos' : ℕ} {t : Token} (h : CallRuns content pos pos' t.rc) :
    ¬ t.TooLong := fun ⟨e, he, htoo⟩ => h.notTooLong e he htoo

theorem CallRuns.restart {pos pos' : ℕ} {t : Token} (h : CallRuns content pos pos' t.rc)
    (ht : ¬ t.Failed) (hlt : pos' < content.length) : lexAt content pos' = .start :=
  h.returns (fun e he => ht ⟨e, he⟩) hlt

theorem noTooLong_of_not_overfull {n : ℕ} {ts : List (Token × ℕ)}
    (g : Covers content cf d cf.buffer.pos) (hframe : cf.Framed)
    (hstart : d + cf.buffer.pos < content.length → lexAt content (d + cf.buffer.pos) = .start)
    (h : readTokens n cf = some ts) (hover : ¬ Overfull content) : NoTooLong ts := by
  induction n generalizing cf d ts with
  | zero =>
    cases h
    intro i t ht
    simp at ht
  | succ n ih =>
    simp only [readTokens, Option.bind_eq_bind, Option.bind_eq_some_iff, Option.some.injEq,
      Prod.exists] at h
    obtain ⟨t, cf', hread, ts', hts', rfl⟩ := h
    rcases readToken_lexer g hframe hstart hread with ⟨d', g', hframe', hruns⟩ | ⟨-, ho⟩
    · exact noTooLong_cons.mpr ⟨hruns.not_tooLong, fun ht =>
        ih g' hframe' (hruns.restart ht) hts'⟩
    · exact absurd ho hover

/-- Where no call fails so, every byte that the calls come to is near enough. -/
theorem since_of_noTooLong {n : ℕ} {ts : List (Token × ℕ)}
    (g : Covers content cf d cf.buffer.pos) (hframe : cf.Framed)
    (hstart : d + cf.buffer.pos < content.length → lexAt content (d + cf.buffer.pos) = .start)
    (h : readTokens n cf = some ts) (hn : content.length - (d + cf.buffer.pos) ≤ n)
    (hno : NoTooLong ts) {p : ℕ} (hp : d + cf.buffer.pos ≤ p) (hlt : p < content.length)
    (hlive : (lexAt content p).place ≠ .stopped) : (lexAt content p).since < MAX_CONF_BUFFER := by
  induction n generalizing cf d ts with
  | zero => omega
  | succ n ih =>
    simp only [readTokens, Option.bind_eq_bind, Option.bind_eq_some_iff, Option.some.injEq,
      Prod.exists] at h
    obtain ⟨t, cf', hread, ts', hts', rfl⟩ := h
    obtain ⟨ht, hrest⟩ := noTooLong_cons.mp hno
    rcases readToken_lexer g hframe hstart hread with ⟨d', g', hframe', hruns⟩ | ⟨htoo, -⟩
    · rcases Nat.lt_or_ge p (d' + cf'.buffer.pos) with hin | hbehind
      · exact hruns.since p hp hin
      · by_cases hfailed : t.Failed
        · obtain ⟨e, he⟩ := hfailed
          have hstop := hruns.fails e he (by omega)
          exact absurd (lexAt_stopped hstop hbehind hlt.le) hlive
        · have hadv := hruns.advances
          exact ih g' hframe' (hruns.restart hfailed) hts' (by omega) (hrest hfailed) hbehind
    · exact absurd htoo ht

theorem ConfFile.framed_opened (fd : ℤ) (name : Bytes) (stSize : ℕ)
    (pread : ℕ → ℕ → Option Bytes) : (ConfFile.opened fd name stSize pread).Framed :=
  ⟨rfl, Nat.zero_le _⟩

/-- No sequence of calls on the file fails with a too long parameter. -/
def NeverTooLong (content : Bytes) (fd : ℤ) (name : Bytes) (pread : ℕ → ℕ → Option Bytes) : Prop :=
  ∀ n ts, readTokens n (.opened fd name content.length pread) = some ts → NoTooLong ts

theorem neverTooLong_of_short {fd : ℤ} {name : Bytes} {pread : ℕ → ℕ → Option Bytes}
    (hread : Reads content pread) (hparams : ParamsShort content) (hgaps : GapsShort content) :
    NeverTooLong content fd name pread := fun n ts hts => by
  refine noTooLong_of_not_overfull (covers_opened fd name hread)
    (ConfFile.framed_opened fd name _ pread) (fun _ => rfl) hts ?_
  rintro ⟨p, hlt, hlive, hsince⟩
  have hshort : (lexAt content p).since < MAX_CONF_BUFFER := by
    cases hword : (lexAt content p).place.inWord with
    | true => exact hparams p hlt hword
    | false => exact hgaps p hlt hword hlive
  omega

theorem gapsShort_of_neverTooLong {fd : ℤ} {name : Bytes} {pread : ℕ → ℕ → Option Bytes}
    (hread : Reads content pread) (h : NeverTooLong content fd name pread) : GapsShort content := by
  intro p hlt _ hlive
  have g := covers_opened fd name hread
  obtain ⟨ts, hts⟩ := Option.isSome_iff_exists.mp (readTokens_isSome content.length g.bounded)
  exact since_of_noTooLong g (ConfFile.framed_opened fd name _ pread) (fun _ => rfl) hts
    (Nat.sub_le _ _) (h _ ts hts) (Nat.zero_le p) hlt hlive

/-- With short parameters, no call fails with a too long one exactly if the white space and
the comments are short too. -/
theorem neverTooLong_iff {fd : ℤ} {name : Bytes} {pread : ℕ → ℕ → Option Bytes}
    (hread : Reads content pread) (hparams : ParamsShort content) :
    NeverTooLong content fd name pread ↔ GapsShort content :=
  ⟨gapsShort_of_neverTooLong hread, neverTooLong_of_short hread hparams⟩

theorem neverTooLong_iff_word :
    NeverTooLong (ascii "a 'b'; # c") 3 [] (readFrom (ascii "a 'b'; # c")) ↔
      GapsShort (ascii "a 'b'; # c") :=
  neverTooLong_iff (reads_readFrom _) (by unfold ParamsShort; decide)

theorem lexAt_spaces {n p : ℕ} (h : p ≤ n) :
    lexAt (List.replicate n space) p = ⟨.between, false, p⟩ := by
  induction p with
  | zero => rfl
  | succ p ih =>
    have hget : (List.replicate n space).getD p 0 = space := by
      simp [List.getD, show p < n by omega]
    rw [lexAt_succ (by rw [List.length_replicate]; omega), ih (by omega), hget]
    rfl

/-- White space alone is too long a parameter. -/
theorem neverTooLong_fails : ParamsShort (List.replicate 4097 space) ∧
    ¬ NeverTooLong (List.replicate 4097 space) 3 [] (readFrom (List.replicate 4097 space)) := by
  constructor
  · intro p hp hword
    rw [List.length_replicate] at hp
    rw [lexAt_spaces hp.le] at hword
    cases hword
  · intro h
    have hgaps := gapsShort_of_neverTooLong (reads_readFrom _) h 4096
    rw [lexAt_spaces (by omega), List.length_replicate] at hgaps
    exact absurd (hgaps (by omega) rfl (by simp)) (by decide)

end Lingx.Conf

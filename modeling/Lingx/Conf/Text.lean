import Lingx.Conf.Window
import Lingx.Conf.Words

/-! Calls of `read_token_` on texts that are written as parameters and gaps. Where such a
text fits the buffer, a call takes exactly the text of one directive, of the end of a
block or of the end of the file. -/

namespace Lingx.Conf

open Library

variable {content : Bytes} {cf : ConfFile} {d pos : ℕ} {gap t rest : Bytes} {ch : Byte} {rc : Rc}
  {ps : List Param}

theorem scanLoop_passes {fd : ℤ} {n k : ℕ} {s s' : Scan}
    (h : passes (content.getD · 0) n pos s = some s') (hn : pos + n ≤ content.length) :
    scanLoop content fd (n + k) pos s = scanLoop content fd k (pos + n) s' := by
  induction n generalizing pos s with
  | zero =>
    cases h
    rw [Nat.zero_add, Nat.add_zero]
  | succ n ih =>
    rw [passes] at h
    rw [Nat.succ_add, scanLoop, if_neg (by omega)]
    cases ht : turn (content.getD · 0) pos s with
    | next s₁ =>
      rw [ht] at h
      dsimp only
      rw [ih h (by omega), Nat.add_assoc, Nat.add_comm 1]
    | ret rc s₁ =>
      rw [ht] at h
      cases h

theorem scanToken_passes {fd : ℤ} {line : UInt32} {n : ℕ} {s s' : Scan}
    (h : passes (content.getD · 0) n pos (Scan.init pos line) = some s)
    (hn : pos + n < content.length) (ht : turn (content.getD · 0) (pos + n) s = .ret rc s') :
    scanToken content fd pos line = some (s'.token rc, pos + n + 1) := by
  obtain ⟨k, hk⟩ : ∃ k, content.length - pos + 1 = n + (k + 1) :=
    ⟨content.length - pos - n, by omega⟩
  rw [scanToken, hk, scanLoop_passes h (by omega), scanLoop, if_neg (by omega), ht]
  rfl

theorem length_of_drop {a b : Bytes} (h : content.drop pos = a ++ b) (hb : b ≠ []) :
    pos + a.length + b.length = content.length := by
  have hlen := congrArg List.length h
  rw [List.length_drop, List.length_append] at hlen
  have := List.length_pos_iff.mpr hb
  omega

theorem scanToken_directive (fd : ℤ) (line : UInt32)
    (htext : content.drop pos = gap ++ t ++ ch :: rest) (hgap : Gap gap)
    (hps : ParamsText ps t) (hend : Ends ch rc) :
    ∃ u, scanToken content fd pos line = some (u, pos + (gap ++ t).length + 1) ∧ u.rc = rc ∧
      u.args = ps.map Param.read := by
  have hlen := length_of_drop htext (by simp)
  obtain ⟨hspan, hch, -⟩ := span_append.mp (span_of_drop (a := 0) htext)
  obtain ⟨hg, hp⟩ := span_append.mp hspan
  obtain ⟨s₁, hp₁, g₁⟩ := (inMode_init pos line).gap hgap hg
  obtain ⟨s₂, hp₂, g₂⟩ := g₁.params hps hp
  have hpass : passes (content.getD · 0) (gap ++ t).length pos (Scan.init pos line) = some s₂ := by
    rw [List.length_append, passes_add _ _ hp₁, hp₂]
  have hargs : [] ++ ps.map Param.read ≠ [] := by
    cases hps <;> simp
  rw [Nat.add_assoc, ← List.length_append] at g₂
  obtain ⟨s₃, ht, hs₃⟩ := g₂.ends hargs (hch ▸ hend)
  exact ⟨_, scanToken_passes hpass (by simp at hlen ⊢; omega) ht, rfl, hs₃⟩

theorem scanToken_close (fd : ℤ) (line : UInt32) (htext : content.drop pos = gap ++ rbrace :: rest)
    (hgap : Gap gap) : ∃ u, scanToken content fd pos line = some (u, pos + gap.length + 1) ∧
      u.rc = .blockDone ∧ u.args = [] := by
  have hlen := length_of_drop htext (by simp)
  obtain ⟨hg, hch, -⟩ := span_append.mp (span_of_drop (a := 0) htext)
  obtain ⟨s₁, hp₁, g₁⟩ := (inMode_init pos line).gap hgap hg
  obtain ⟨s₂, ht, hs₂⟩ : ∃ s₂, turn (content.getD · 0) (pos + gap.length) s₁ =
      .ret .blockDone s₂ ∧ s₂.args = [] := g₁.close hch
  exact ⟨_, scanToken_passes hp₁ (by simp at hlen; omega) ht, rfl, hs₂⟩

theorem scanToken_eof (fd : ℤ) (line : UInt32) (htext : content.drop pos = gap)
    (hpos : pos ≤ content.length) (hgap : Gap gap) :
    ∃ u, scanToken content fd pos line = some (u, content.length) ∧ u.rc = .fileDone ∧
      u.args = [] := by
  have hlen : pos + gap.length = content.length := by
    rw [← htext, List.length_drop]
    omega
  have hspan : Span (content.getD · 0) pos gap :=
    span_of_drop htext
  obtain ⟨s₁, hp₁, g₁⟩ := (inMode_init pos line).gap hgap hspan
  have hk : content.length - pos + 1 = gap.length + 1 := by omega
  refine ⟨s₁.token .fileDone, ?_, rfl, g₁.args⟩
  rw [scanToken, hk, scanLoop_passes hp₁ hlen.le, scanLoop, if_pos hlen.ge, hlen]
  simp [endOfInput, g₁.args, g₁.lastSpace]

/-- A call on a window whose scan of the text stays within the size of the buffer. -/
theorem readToken_of_scanToken (g : Covers content cf d cf.buffer.pos) {u : Token} {p : ℕ}
    (hscan : scanToken content cf.file.fd (d + cf.buffer.pos) cf.line = some (u, p))
    (hp : p ≤ d + cf.buffer.pos + MAX_CONF_BUFFER) :
    ∃ cf' d', readToken cf = some (u, cf') ∧ cf'.file.fd = cf.file.fd ∧
      d' + cf'.buffer.pos = p ∧ Covers content cf' d' cf'.buffer.pos := by
  obtain ⟨t, cf', u', p', hread, hscan', hfd, -, hboth⟩ := readToken_scanToken g
  obtain ⟨rfl, rfl⟩ := Prod.mk.inj (Option.some.inj (hscan'.symm.trans hscan))
  rcases hboth with ⟨rfl, -, d', hd', g'⟩ | ⟨-, hlt⟩
  · exact ⟨cf', d', hread, hfd, hd', g'⟩
  · omega

theorem readToken_directive (g : Covers content cf d cf.buffer.pos)
    (htext : content.drop (d + cf.buffer.pos) = gap ++ t ++ ch :: rest) (hgap : Gap gap)
    (hps : ParamsText ps t) (hend : Ends ch rc)
    (hfit : (gap ++ t ++ [ch]).length ≤ MAX_CONF_BUFFER) :
    ∃ u cf' d', readToken cf = some (u, cf') ∧ u.rc = rc ∧ u.args = ps.map Param.read ∧
      cf'.file.fd = cf.file.fd ∧ Covers content cf' d' cf'.buffer.pos ∧
      content.drop (d' + cf'.buffer.pos) = rest := by
  obtain ⟨u, hscan, hrc, hargs⟩ := scanToken_directive cf.file.fd cf.line htext hgap hps hend
  rw [List.length_append, List.length_singleton] at hfit
  obtain ⟨cf', d', hread, hfd, hp, g'⟩ := readToken_of_scanToken g hscan (by omega)
  refine ⟨u, cf', d', hread, hrc, hargs, hfd, g', ?_⟩
  have hdrop := congrArg (List.drop ((gap ++ t).length + 1)) htext
  rw [hp, Nat.add_assoc, ← List.drop_drop, hdrop, ← List.drop_drop, List.drop_left]
  rfl

theorem readToken_close (g : Covers content cf d cf.buffer.pos)
    (htext : content.drop (d + cf.buffer.pos) = gap ++ rbrace :: rest) (hgap : Gap gap)
    (hfit : (gap ++ [rbrace]).length ≤ MAX_CONF_BUFFER) :
    ∃ u cf' d', readToken cf = some (u, cf') ∧ u.rc = .blockDone ∧
      cf'.file.fd = cf.file.fd ∧ Covers content cf' d' cf'.buffer.pos ∧
      content.drop (d' + cf'.buffer.pos) = rest := by
  obtain ⟨u, hscan, hrc, -⟩ := scanToken_close cf.file.fd cf.line htext hgap
  rw [List.length_append, List.length_singleton] at hfit
  obtain ⟨cf', d', hread, hfd, hp, g'⟩ := readToken_of_scanToken g hscan (by omega)
  refine ⟨u, cf', d', hread, hrc, hfd, g', ?_⟩
  have hdrop := congrArg (List.drop (gap.length + 1)) htext
  rw [hp, Nat.add_assoc, ← List.drop_drop, hdrop, ← List.drop_drop, List.drop_left]
  rfl

theorem readToken_eof (g : Covers content cf d cf.buffer.pos)
    (htext : content.drop (d + cf.buffer.pos) = gap) (hgap : Gap gap)
    (hfit : gap.length ≤ MAX_CONF_BUFFER) :
    ∃ u cf' d', readToken cf = some (u, cf') ∧ u.rc = .fileDone ∧
      cf'.file.fd = cf.file.fd ∧ Covers content cf' d' cf'.buffer.pos ∧
      content.drop (d' + cf'.buffer.pos) = [] := by
  have hle := g.le_length
  have hpos := g.bounded.pos_le
  obtain ⟨u, hscan, hrc, -⟩ := scanToken_eof cf.file.fd cf.line htext (by omega) hgap
  have hlen : gap.length = content.length - (d + cf.buffer.pos) := by
    rw [← htext, List.length_drop]
  obtain ⟨cf', d', hread, hfd, hp, g'⟩ := readToken_of_scanToken g hscan (by omega)
  exact ⟨u, cf', d', hread, hrc, hfd, g', by rw [hp, List.drop_length]⟩

section Quoting

theorem length_escape_eq_iff {mark : Byte} {w : Bytes} :
    (escape mark w).length = w.length ↔ ∀ b ∈ w, b ≠ backslash ∧ b ≠ mark := by
  constructor
  · intro h
    induction w with
    | nil => simp
    | cons b w ih =>
      have hle := length_le_escape mark w
      rw [escape] at h
      split_ifs at h with hb
      · simp only [List.length_cons] at h
        omega
      · exact List.forall_mem_cons.mpr ⟨not_or.mp hb, ih (by simpa using h)⟩
  · intro h
    rw [escape_eq_self h]

/-- A quoted parameter is read as it was meant exactly when it needs no escape. -/
theorem Param.read_eq_iff {p : Param} (h : p.quoting ≠ .bare) :
    p.read = p.value ↔ ∀ b ∈ p.value, b ≠ backslash ∧ b ≠ p.quoting.mark := by
  have hle := length_le_escape p.quoting.mark p.value
  rw [Param.read_quoted h, ← length_escape_eq_iff, List.append_right_eq_self,
    List.replicate_eq_nil_iff]
  omega

/-- In every directive, unless the call fails with a too long parameter, as it does not
where the text fits the buffer: a quoted parameter comes back as what was written exactly
when it has no backslash and no quote of its kind. -/
theorem readToken_param_iff (g : Covers content cf d cf.buffer.pos)
    (htext : content.drop (d + cf.buffer.pos) = gap ++ t ++ ch :: rest) (hgap : Gap gap)
    (hps : ParamsText ps t) (hend : Ends ch rc) :
    ∃ u cf', readToken cf = some (u, cf') ∧
      ((gap ++ t ++ [ch]).length ≤ MAX_CONF_BUFFER → ¬ u.TooLong) ∧
      (¬ u.TooLong → u.rc = rc ∧ u.args.length = ps.length ∧
        ∀ (i : ℕ) (p : Param), ps[i]? = some p → p.quoting ≠ .bare →
          (u.args[i]? = some p.value ↔ ∀ b ∈ p.value, b ≠ backslash ∧ b ≠ p.quoting.mark)) := by
  obtain ⟨u, cf', v, p, hread, hscan, -, -, hboth⟩ := readToken_scanToken g
  obtain ⟨v', hscan', hrc, hargs⟩ := scanToken_directive cf.file.fd cf.line htext hgap hps hend
  obtain ⟨rfl, rfl⟩ := Prod.mk.inj (Option.some.inj (hscan.symm.trans hscan'))
  refine ⟨u, cf', hread, fun hfit => ?_, fun hshort => ?_⟩
  · rw [List.length_append, List.length_singleton] at hfit
    rcases hboth with ⟨rfl, -⟩ | ⟨-, hlt⟩
    · rintro ⟨e, he, -⟩
      rcases hend with ⟨-, rfl⟩ | ⟨-, rfl⟩ <;> exact absurd (hrc.symm.trans he) (by simp)
    · omega
  · rcases hboth with ⟨rfl, -⟩ | ⟨hlong, -⟩
    · refine ⟨hrc, by rw [hargs, List.length_map], fun i p hi hq => ?_⟩
      rw [hargs, List.getElem?_map, hi, Option.map_some, Option.some.injEq, Param.read_eq_iff hq]
    · exact absurd hlong hshort

theorem spaced_nil : Spaced [] := ⟨.nil, by simp⟩

theorem spaced_space : Spaced [space] := ⟨.space (by decide) .nil, by simp [isSpace]⟩

/-- A parameter in each kind of quotes, without and with an escape. -/
theorem readToken_param_iff_two : ∃ u cf', readToken (.opened 3 []
      (ascii "log 'a b' \"\\\"\";").length (readFrom (ascii "log 'a b' \"\\\"\";"))) =
        some (u, cf') ∧
    (u.args[1]? = some (ascii "a b") ↔ ∀ b ∈ ascii "a b", b ≠ backslash ∧ b ≠ squote) ∧
    (u.args[2]? = some [dquote] ↔ ∀ b ∈ [dquote], b ≠ backslash ∧ b ≠ dquote) := by
  have hps : ParamsText [⟨.bare, ascii "log"⟩, ⟨.single, ascii "a b"⟩, ⟨.double, [dquote]⟩]
      (ascii "log" ++ [space] ++ (ascii "'a b'" ++ [space] ++ (ascii "\"\\\"\"" ++ []))) :=
    .cons (by decide) spaced_space (by decide)
      (.cons (by decide) spaced_space (by decide) (.last (by decide) spaced_nil))
  obtain ⟨u, cf', hread, hfit, hargs⟩ := readToken_param_iff (covers_opened 3 []
    (reads_readFrom (ascii "log 'a b' \"\\\"\";"))) (show _ = [] ++ _ ++ semicolon :: [] from rfl)
    .nil hps (.inl ⟨rfl, rfl⟩)
  obtain ⟨-, -, hargs⟩ := hargs (hfit (by decide))
  exact ⟨u, cf', hread, hargs 1 _ rfl (by decide), hargs 2 _ rfl (by decide)⟩

/-- An escaped quote comes back with a zero byte behind it. -/
theorem readToken_escape_padded :
    (readToken (.opened 3 [] (ascii "log \"\\\"\";").length
      (readFrom (ascii "log \"\\\"\";")))).map (·.1.args) = some [ascii "log", [dquote, 0]] ∧
    Param.text ⟨.double, [dquote]⟩ = ascii "\"\\\"\"" ∧ [dquote, 0] ≠ [dquote] := by
  decide

end Quoting

end Lingx.Conf

import Lingx.Conf.Tree

/-! A text and the tree that is written in it. The nodes may be written with any gaps and
in any quotes; their words are what the scan makes of the parameters. Only each directive
has to fit the buffer, the text may be of any length. Parsing such a text is the evaluation
of its tree, also where that fails, and a text has one tree at most. -/

namespace Lingx.Conf

variable {σ : Type} {modules : List (Module σ)}

/-- A list of trees is written in a text, each directive of which fits the buffer with the
gap before it. -/
inductive Written : Forest → Bytes → Prop
  | nil {g : Bytes} : Gap g → g.length < MAX_CONF_BUFFER → Written .nil g
  | simple {ps : List Param} {name g t u : Bytes} {args : List Bytes} {rest : Forest} : Gap g →
      ParamsText ps t → ps.map Param.read = name :: args → (g ++ t).length < MAX_CONF_BUFFER →
      Written rest u → Written (.simple name args rest) (g ++ t ++ semicolon :: u)
  | block {ps : List Param} {name g t c u : Bytes} {args : List Bytes} {children rest : Forest} :
      Gap g → ParamsText ps t → ps.map Param.read = name :: args →
      (g ++ t).length < MAX_CONF_BUFFER → Written children c → Written rest u →
      Written (.block name args children rest) (g ++ t ++ lbrace :: (c ++ rbrace :: u))

/-- The window of a configuration file stands before a part of the text. -/
def Stands (content : Bytes) (cf : ConfFile) (text : Bytes) : Prop :=
  ∃ d, Covers content cf d cf.buffer.pos ∧ content.drop (d + cf.buffer.pos) = text

/-- What stands behind the directives of a `parse`, and what of it is left to the caller. -/
inductive Closes : Kind → Bytes → Bytes → Prop
  | block {rest : Bytes} : Closes .block (rbrace :: rest) rest
  | file : Closes .file [] []
  | param : Closes .param [] []

section Tokens

variable {content g t text text' tail tail' rest rest' : Bytes} {cf : ConfFile} {ps : List Param}
  {words : List Bytes} {kind : Kind} {ch : Byte} {rc : Rc}

theorem Stands.unique (h : Stands content cf text) (h' : Stands content cf text') :
    text = text' := by
  obtain ⟨d, hc, rfl⟩ := h
  obtain ⟨d', hc', rfl⟩ := h'
  have hrem := hc.remaining.symm.trans hc'.remaining
  by_cases hlen : content.length ≤ d + cf.buffer.pos
  · rw [List.drop_eq_nil_of_le hlen, List.drop_eq_nil_of_le (by omega)]
  · rw [show d = d' by omega]

theorem Stands.directive (h : Stands content cf (g ++ t ++ ch :: rest)) (hg : Gap g)
    (ht : ParamsText ps t) (hwords : ps.map Param.read = words)
    (hfit : (g ++ t).length < MAX_CONF_BUFFER) (hend : Ends ch rc) :
    ∃ u cf', readToken cf = some (u, cf') ∧ u.rc = rc ∧ u.args = words ∧
      cf'.file.fd = cf.file.fd ∧ Stands content cf' rest := by
  obtain ⟨d, hc, htext⟩ := h
  obtain ⟨u, cf', d', hread, hrc, hargs, hfd, hc', hrest⟩ := readToken_directive hc htext hg ht hend
    (by rw [List.length_append, List.length_singleton]; omega)
  exact ⟨u, cf', hread, hrc, hargs.trans hwords, hfd, d', hc', hrest⟩

theorem Stands.closes (h : Stands content cf (g ++ tail)) (hg : Gap g)
    (hfit : g.length < MAX_CONF_BUFFER) (hc : Closes kind tail rest) :
    ∃ u cf', readToken cf = some (u, cf') ∧ kind.Done u.rc ∧ cf'.file.fd = cf.file.fd ∧
      Stands content cf' rest := by
  obtain ⟨d, hcover, htext⟩ := h
  cases hc with
  | block =>
    obtain ⟨u, cf', d', hread, hrc, hfd, hc', hrest⟩ := readToken_close hcover htext hg
      (by rw [List.length_append, List.length_singleton]; omega)
    exact ⟨u, cf', hread, .inl ⟨hrc, rfl⟩, hfd, d', hc', hrest⟩
  | file | param =>
    rw [List.append_nil] at htext
    obtain ⟨u, cf', d', hread, hrc, hfd, hc', hrest⟩ := readToken_eof hcover htext hg hfit.le
    exact ⟨u, cf', hread, .inr ⟨hrc, nofun⟩, hfd, d', hc', hrest⟩

theorem Kind.Done.not_handles (h : kind.Done rc) : ¬(rc = .ok ∨ rc = .blockStart) := by
  rcases h with ⟨rfl, -⟩ | ⟨rfl, -⟩ <;> simp

/-- What the first token of a written tree tells, and what is written behind it: less than
`n` bytes. -/
inductive Heads (kind : Kind) (content tail rest : Bytes) (n : ℕ) (u : Token) (cf : ConfFile) :
    Forest → Prop
  | nil : kind.Done u.rc → Stands content cf rest → Heads kind content tail rest n u cf .nil
  | simple {name v : Bytes} {args : List Bytes} {f : Forest} : u.rc = .ok → u.args = name :: args →
      Written f v → Stands content cf (v ++ tail) → (v ++ tail).length < n →
      Heads kind content tail rest n u cf (.simple name args f)
  | block {name v w : Bytes} {args : List Bytes} {c f : Forest} : u.rc = .blockStart →
      u.args = name :: args → Written c w → Written f v →
      Stands content cf (w ++ rbrace :: (v ++ tail)) → (w ++ rbrace :: (v ++ tail)).length < n →
      Heads kind content tail rest n u cf (.block name args c f)

theorem Written.heads {f : Forest} (hf : Written f text) (hs : Stands content cf (text ++ tail))
    (hc : Closes kind tail rest) : ∃ u cf', readToken cf = some (u, cf') ∧
      cf'.file.fd = cf.file.fd ∧ Heads kind content tail rest (text ++ tail).length u cf' f := by
  cases hf with
  | nil hg hfit =>
    obtain ⟨u, cf', hread, hdone, hfd, hs'⟩ := hs.closes hg hfit hc
    exact ⟨u, cf', hread, hfd, .nil hdone hs'⟩
  | simple hg ht hwords hfit hrest =>
    rw [List.append_assoc, List.cons_append] at hs ⊢
    obtain ⟨u, cf', hread, hrc, hargs, hfd, hs'⟩ :=
      hs.directive hg ht hwords hfit (.inl ⟨rfl, rfl⟩)
    exact ⟨u, cf', hread, hfd, .simple hrc hargs hrest hs' (by simp; omega)⟩
  | @block ps name g t c u args children frest hg ht hwords hfit hchildren hrest =>
    have happ : g ++ t ++ lbrace :: (c ++ rbrace :: u) ++ tail =
      g ++ t ++ lbrace :: (c ++ rbrace :: (u ++ tail)) := by simp
    rw [happ] at hs ⊢
    obtain ⟨u, cf', hread, hrc, hargs, hfd, hs'⟩ :=
      hs.directive hg ht hwords hfit (.inr ⟨rfl, rfl⟩)
    exact ⟨u, cf', hread, hfd, .block hrc hargs hchildren hrest hs' (by simp; omega)⟩

end Tokens

section Meaning

variable {content text tail rest : Bytes} {kind : Kind} {f : Forest} {scope : Scope}

/-- A run over a part of a text is the evaluation of its tree: it succeeds where that does,
and leaves its state behind its calls, before the rest of the text. -/
structure Evaluates (modules : List (Module σ)) (content rest : Bytes) (f : Forest) (kind : Kind)
    (k depth : ℕ) (scope : Scope) (r : Run σ) : Prop where
  sound : ∀ r', parseLoop modules k kind depth scope r = some (.ok, r') →
    f.eval modules (kind ≠ .param) scope r.st = some r'.st ∧
      r'.calls = r.calls ++ f.calls depth ∧ r'.cf.file.fd = r.cf.file.fd ∧
      Stands content r'.cf rest
  complete : ∀ st, f.eval modules (kind ≠ .param) scope r.st = some st →
    ∃ r', parseLoop modules k kind depth scope r = some (.ok, r')

theorem parseLoop_done_eq_ok {k depth : ℕ} {r r' : Run σ} {t : Token} {cf : ConfFile}
    (hread : readToken r.cf = some (t, cf)) (hdone : kind.Done t.rc) :
    parseLoop modules (k + 1) kind depth scope r = some (.ok, r') ↔ r' = r.read cf depth t := by
  rw [parseLoop_eq_ok]
  constructor
  · rintro ⟨t', cf', hread', h⟩
    obtain ⟨rfl, rfl⟩ := Prod.mk.inj (Option.some.inj (hread'.symm.trans hread))
    rcases h with ⟨-, hr'⟩ | ⟨hrc, -⟩
    · exact hr'
    · rcases hdone with ⟨hd, -⟩ | ⟨hd, -⟩ <;> rcases hrc with hrc | ⟨hrc, -⟩ <;>
        exact nomatch hd.symm.trans hrc
  · rintro rfl
    exact ⟨t, cf, hread, .inl ⟨hdone, rfl⟩⟩

/-- The loop over a written tree; the induction is on the tree. -/
theorem Written.evaluates (hm : WellBehaved modules) (hf : Written f text) {k : ℕ} (depth : ℕ)
    (scope : Scope) {r : Run σ} (hs : Stands content r.cf (text ++ tail))
    (hfd : kind ≠ .param → r.cf.file.fd ≠ -1) (hc : Closes kind tail rest)
    (hk : (text ++ tail).length < k) : Evaluates modules content rest f kind k depth scope r := by
  obtain ⟨k, rfl⟩ : ∃ k', k = k' + 1 := ⟨k - 1, by omega⟩
  induction f generalizing r kind scope text tail rest k depth with
  | nil =>
    obtain ⟨u, cf, hread, hfd', ⟨hdone, hs'⟩⟩ := hf.heads hs hc
    constructor
    · intro r' h
      obtain rfl := (parseLoop_done_eq_ok hread hdone).mp h
      exact ⟨rfl, by rw [calls_read, Forest.calls, List.append_nil], hfd', hs'⟩
    · intro st _
      exact ⟨_, (parseLoop_done_eq_ok hread hdone).mpr rfl⟩
  | simple name args frest ih =>
    obtain ⟨u, cf, hread, hfd', hheads⟩ := hf.heads hs hc
    cases hheads with
    | simple hrc hargs hrest hs' hless =>
    obtain ⟨k, rfl⟩ : ∃ k', k = k' + 1 := ⟨k - 1, by omega⟩
    have hnext (st : σ) := ih hrest depth scope
      (r := (r.read cf depth u).called depth false u.args st) hs'
      (fun h => hfd'.symm ▸ hfd h) hc k (by omega)
    constructor
    · intro r' h
      obtain ⟨s, st, hset, hst, hrun⟩ := (parseLoop_simple_eq_ok hm hread hrc).mp h
      obtain ⟨heval, hcalls, hfd₁, hs₁⟩ := (hnext st).sound r' hrun
      refine ⟨Forest.eval_simple.mpr ⟨s, st, hargs ▸ hset, hst, heval⟩, ?_, hfd₁.trans hfd', hs₁⟩
      rw [hcalls, calls_called, calls_read, hargs, List.append_assoc]
      rfl
    · intro st h
      obtain ⟨s, st₁, hset, hst₁, heval⟩ := Forest.eval_simple.mp h
      obtain ⟨r', hrun⟩ := (hnext st₁).complete st heval
      exact ⟨r', (parseLoop_simple_eq_ok hm hread hrc).mpr ⟨s, st₁, hargs ▸ hset, hst₁, hrun⟩⟩
  | block name args children frest ihc ih =>
    obtain ⟨u, cf, hread, hfd', hheads⟩ := hf.heads hs hc
    cases hheads with
    | @block _ v w _ _ _ hrc hargs hchildren hrest hs' hless =>
    obtain ⟨k, rfl⟩ : ∃ k', k = k' + 1 := ⟨k - 1, by omega⟩
    have hlen : (v ++ tail).length < (w ++ rbrace :: (v ++ tail)).length := by simp; omega
    have hfd₁ : kind ≠ .param → cf.file.fd ≠ -1 := fun h => hfd'.symm ▸ hfd h
    -- where blocks are allowed the nested call is one of a block
    have hnested : kind ≠ .param → Kind.nested cf = .block := fun h => if_pos (hfd₁ h)
    have hinner (hkind : kind ≠ .param) (inner : Scope) (st : σ) :
        Evaluates modules content (v ++ tail) children (.nested cf) (k + 1) (depth + 1) inner
          ((r.read cf depth u).called depth true u.args st) := by
      rw [hnested hkind]
      exact ihc hchildren (depth + 1) inner hs' (fun _ => hfd₁ hkind) .block k (by omega)
    have hblocks (hkind : kind ≠ .param) : decide (Kind.nested cf ≠ .param) = true := by
      rw [hnested hkind]
      rfl
    have hnext {r₁ : Run σ} (hfd₂ : r₁.cf.file.fd = cf.file.fd)
        (hs₂ : Stands content r₁.cf (v ++ tail)) (st : σ) :=
      ih hrest depth scope (r := { r₁ with st := st }) hs₂ (fun h => hfd₂.symm ▸ hfd₁ h) hc k
        (by omega)
    constructor
    · intro r' h
      obtain ⟨hkind, s, inner, st, next, r₁, st', hset, hopen, hparse, hst', hrun⟩ :=
        (parseLoop_block_eq_ok hm hread hrc).mp h
      obtain ⟨heval₁, hcalls₁, hfd₂, hs₂⟩ := (hinner hkind inner st).sound r₁ hparse
      rw [hblocks hkind] at heval₁
      obtain ⟨heval, hcalls, hfd₃, hs₃⟩ := (hnext hfd₂ hs₂ st').sound r' hrun
      refine ⟨Forest.eval_block.mpr ⟨by simpa using hkind, s, inner, st, next, r₁.st, st',
        hargs ▸ hset, hopen, heval₁, hst', heval⟩, ?_, (hfd₃.trans hfd₂).trans hfd', hs₃⟩
      rw [hcalls]
      show r₁.calls ++ _ = _
      rw [hcalls₁, calls_called, calls_read, hargs]
      simp [Forest.calls]
    · intro st h
      obtain ⟨hallowed, s, inner, st₁, next, st₂, st₃, hset, hopen, heval₁, hst₃, heval⟩ :=
        Forest.eval_block.mp h
      have hkind : kind ≠ .param := by simpa using hallowed
      rw [← hblocks hkind] at heval₁
      obtain ⟨r₁, hparse⟩ := (hinner hkind inner st₁).complete st₂ heval₁
      obtain ⟨hsame, -, hfd₂, hs₂⟩ := (hinner hkind inner st₁).sound r₁ hparse
      obtain rfl : r₁.st = st₂ := Option.some.inj (hsame.symm.trans heval₁)
      obtain ⟨r', hrun⟩ := (hnext hfd₂ hs₂ st₃).complete st heval
      exact ⟨r', (parseLoop_block_eq_ok hm hread hrc).mpr ⟨hkind, s, inner, st₁, next, r₁, st₃,
        hargs ▸ hset, hopen, hparse, hst₃, hrun⟩⟩

variable (modules) in
/-- What a call of `parse` gives for a tree: its evaluation, or an error if it has none. -/
def Forest.Yields (f : Forest) (blocks : Bool) (scope : Scope) (st : σ) (rv : Rv) (r : Run σ) :
    Prop :=
  match f.eval modules blocks scope st with
  | none => rv = .error
  | some st' => rv = .ok ∧ r.st = st' ∧ r.calls = f.calls 0

theorem Evaluates.yields {k : ℕ} {r r' : Run σ} {rv : Rv}
    (h : Evaluates modules content rest f kind k 0 scope r) (hcalls : r.calls = [])
    (hrun : parseLoop modules k kind 0 scope r = some (rv, r')) (hrv : rv = .ok ∨ rv = .error) :
    f.Yields modules (kind ≠ .param) scope r.st rv r' := by
  rw [Forest.Yields]
  rcases hrv with rfl | rfl
  · obtain ⟨heval, hcalls', -⟩ := h.sound r' hrun
    rw [heval]
    exact ⟨rfl, rfl, by rw [hcalls', hcalls, List.nil_append]⟩
  · cases heval : f.eval modules (kind ≠ .param) scope r.st with
    | none => rfl
    | some st =>
      obtain ⟨r₁, hok⟩ := h.complete st heval
      cases hrun.symm.trans hok

theorem Written.eq_nil (h : Written f []) : f = .nil := by
  generalize htext : ([] : Bytes) = text at h
  cases h with
  | nil => rfl
  | simple => simp at htext
  | block => simp at htext

theorem Written.parseFile_yields (hm : WellBehaved modules) (hf : Written f content) {fd : ℤ}
    (hfd : fd ≠ -1) {pread : ℕ → ℕ → Option Bytes} (hread : Reads content pread)
    (filename : Bytes) (scope : Scope) (st : σ) :
    ∃ rv r, parseFile modules ⟨fd, some content.length, pread⟩ filename scope st = some (rv, r) ∧
      f.Yields modules true scope st rv r := by
  rw [parseFile, if_neg hfd, if_neg (by simp)]
  have hcover := covers_opened fd filename hread
  have hs : Stands content (.opened fd filename content.length pread) (content ++ []) :=
    ⟨0, hcover, by rw [List.append_nil]; rfl⟩
  obtain ⟨rv, r, hrun, hspec⟩ := parseLoop_spec hm _ .file 0 scope
    ⟨.opened fd filename content.length pread, st, []⟩
    hcover.bounded (Nat.lt_succ_self _) fun _ => hfd
  have hev := hf.evaluates hm 0 scope (r := ⟨.opened fd filename content.length pread, st, []⟩)
    hs (fun _ => hfd) .file (by
      rw [List.append_nil]
      exact Nat.lt_succ_of_le hcover.remaining.ge)
  exact ⟨rv, r, hrun, hev.yields rfl hrun hspec.returns⟩

theorem Written.param_yields (hm : WellBehaved modules) (hf : Written f content) (scope : Scope)
    (st : σ) : ∃ rv r, param modules content scope st = some (rv, r) ∧
      f.Yields modules false scope st rv r := by
  rw [param]
  split_ifs with htext
  · subst htext
    rw [hf.eq_nil]
    exact ⟨.ok, _, rfl, rfl, rfl, rfl⟩
  · have hcover := covers_param content
    have hs : Stands content (.param content) (content ++ []) :=
      ⟨0, hcover, by rw [List.append_nil]; rfl⟩
    obtain ⟨rv, r, hrun, hspec⟩ := parseLoop_spec hm _ .param 0 scope ⟨.param content, st, []⟩
      hcover.bounded (Nat.lt_succ_self _) (by simp)
    have hev := hf.evaluates hm 0 scope (r := ⟨.param content, st, []⟩) hs (by simp) .param (by
      rw [List.append_nil]
      exact Nat.lt_succ_of_le hcover.remaining.ge)
    exact ⟨rv, r, hrun, hev.yields rfl hrun hspec.returns⟩

end Meaning

section Unique

variable {content text text' tail tail' rest rest' : Bytes} {kind : Kind} {f f' : Forest}
  {cf : ConfFile}

/-- Two trees that are written from one place on have the same tokens. -/
theorem Written.agree (hf : Written f text) (hf' : Written f' text')
    (hs : Stands content cf (text ++ tail)) (hs' : Stands content cf (text' ++ tail'))
    (hc : Closes kind tail rest) (hc' : Closes kind tail' rest') :
    f = f' ∧ rest = rest' ∧ ∃ cf', Stands content cf' rest := by
  induction f generalizing cf kind text f' text' tail tail' rest rest' with
  | nil =>
    obtain ⟨u, cf₁, hread, -, ⟨hdone, hs₁⟩⟩ := hf.heads hs hc
    obtain ⟨u', cf₁', hread', -, hheads⟩ := hf'.heads hs' hc'
    obtain ⟨rfl, rfl⟩ := Prod.mk.inj (Option.some.inj (hread.symm.trans hread'))
    cases hheads with
    | nil _ hs₁' => exact ⟨rfl, hs₁.unique hs₁', cf₁, hs₁⟩
    | simple hrc => exact absurd (.inl hrc) hdone.not_handles
    | block hrc => exact absurd (.inr hrc) hdone.not_handles
  | simple name args frest ih =>
    obtain ⟨u, cf₁, hread, -, hheads⟩ := hf.heads hs hc
    obtain ⟨u', cf₁', hread', -, hheads'⟩ := hf'.heads hs' hc'
    obtain ⟨rfl, rfl⟩ := Prod.mk.inj (Option.some.inj (hread.symm.trans hread'))
    cases hheads with
    | simple hrc hargs hrest hs₁ =>
    cases hheads' with
    | nil hdone => exact absurd (.inl hrc) hdone.not_handles
    | block hrc' => exact nomatch hrc.symm.trans hrc'
    | simple _ hargs' hrest' hs₁' =>
      obtain ⟨rfl, rfl⟩ := List.cons.inj (hargs.symm.trans hargs')
      obtain ⟨rfl, hbehind⟩ := ih hrest hrest' hs₁ hs₁' hc hc'
      exact ⟨rfl, hbehind⟩
  | block name args children frest ihc ih =>
    obtain ⟨u, cf₁, hread, -, hheads⟩ := hf.heads hs hc
    obtain ⟨u', cf₁', hread', -, hheads'⟩ := hf'.heads hs' hc'
    obtain ⟨rfl, rfl⟩ := Prod.mk.inj (Option.some.inj (hread.symm.trans hread'))
    cases hheads with
    | block hrc hargs hchildren hrest hs₁ =>
    cases hheads' with
    | nil hdone => exact absurd (.inr hrc) hdone.not_handles
    | simple hrc' => exact nomatch hrc.symm.trans hrc'
    | block _ hargs' hchildren' hrest' hs₁' =>
      obtain ⟨rfl, rfl⟩ := List.cons.inj (hargs.symm.trans hargs')
      obtain ⟨rfl, hsame, cf₂, hs₂⟩ := ihc hchildren hchildren' hs₁ hs₁' .block .block
      obtain ⟨rfl, hbehind⟩ := ih hrest hrest' hs₂ (hsame ▸ hs₂) hc hc'
      exact ⟨rfl, hbehind⟩

theorem Written.unique (hf : Written f text) (hf' : Written f' text) : f = f' := by
  have hs : Stands text (.param text) (text ++ []) :=
    ⟨0, covers_param text, by rw [List.append_nil]; rfl⟩
  exact (hf.agree hf' hs hs .file .file).1

end Unique

section Text

/-- A word that a way of writing gives back: it has no backslash and not both quotes. -/
def Spellable (w : Bytes) : Prop := backslash ∉ w ∧ (dquote ∉ w ∨ squote ∉ w)

instance : DecidablePred Spellable := fun w =>
  inferInstanceAs (Decidable (backslash ∉ w ∧ (dquote ∉ w ∨ squote ∉ w)))

/-- A word is written bare if it can be, and in quotes that it does not have if not. -/
def spell (w : Bytes) : Param :=
  ⟨if w ≠ [] ∧ w.all (Plain ·) then .bare else if dquote ∈ w then .single else .double, w⟩

/-- The text of words, with a space between two of them. -/
def spellAll : List Bytes → Bytes
  | [] => []
  | [w] => (spell w).text
  | w :: ws => (spell w).text ++ [space] ++ spellAll ws

/-- A text of a list of trees. -/
def Forest.text : Forest → Bytes
  | .nil => []
  | .simple name args rest => [lf] ++ spellAll (name :: args) ++ semicolon :: rest.text
  | .block name args children rest =>
    [lf] ++ spellAll (name :: args) ++ lbrace :: (children.text ++ rbrace :: rest.text)

/-- The words of each node can be written, in a text that fits the buffer. -/
def Forest.Printable : Forest → Prop
  | .nil => True
  | .simple name args rest => (∀ w ∈ name :: args, Spellable w) ∧
      (spellAll (name :: args)).length + 1 < MAX_CONF_BUFFER ∧ rest.Printable
  | .block name args children rest => (∀ w ∈ name :: args, Spellable w) ∧
      (spellAll (name :: args)).length + 1 < MAX_CONF_BUFFER ∧ children.Printable ∧ rest.Printable

theorem writable_spell (w : Bytes) : (spell w).Writable := by
  intro h
  simp only [spell] at h
  split_ifs at h with hw
  have hplain : ∀ ch ∈ w, Plain ch := by simpa using hw.2
  exact ⟨hw.1, hplain⟩

theorem read_spell {w : Bytes} (h : Spellable w) : (spell w).read = w := by
  by_cases hbare : (spell w).quoting = .bare
  · exact Param.read_bare hbare
  · refine (Param.read_eq_iff hbare).mpr fun ch hch => ?_
    refine ⟨fun hb => h.1 (hb ▸ hch), fun hq => ?_⟩
    have hmark : (spell w).quoting.mark ∈ w := hq ▸ hch
    simp only [spell] at hbare hmark
    split_ifs at hbare hmark with hplain hd
    · exact hbare rfl
    · exact h.2.elim (· hd) (· hmark)
    · exact hd hmark

theorem map_read_spell {ws : List Bytes} (h : ∀ w ∈ ws, Spellable w) :
    (ws.map spell).map Param.read = ws := by
  have hid : ws.map (Param.read ∘ spell) = ws.map id :=
    List.map_congr_left fun w hw => read_spell (h w hw)
  rw [List.map_map, hid, List.map_id]

theorem paramsText_spellAll {ws : List Bytes} (h : ws ≠ []) :
    ParamsText (ws.map spell) (spellAll ws) := by
  induction ws with
  | nil => exact absurd rfl h
  | cons w ws ih =>
    cases ws with
    | nil =>
      have hlast := ParamsText.last (writable_spell w) spaced_nil
      rwa [List.append_nil] at hlast
    | cons w' ws => exact .cons (writable_spell w) spaced_space (by simp) (ih (by simp))

theorem gap_lf : Gap [lf] := .space (by decide) .nil

theorem Forest.Printable.written {f : Forest} (h : f.Printable) : Written f f.text := by
  induction f with
  | nil => exact .nil .nil (by decide)
  | simple name args rest ih =>
    obtain ⟨hwords, hfit, hrest⟩ := h
    exact .simple gap_lf (paramsText_spellAll (by simp)) (map_read_spell hwords)
      (by rw [List.length_append, List.length_singleton]; omega) (ih hrest)
  | block name args children rest ihc ih =>
    obtain ⟨hwords, hfit, hchildren, hrest⟩ := h
    exact .block gap_lf (paramsText_spellAll (by simp)) (map_read_spell hwords)
      (by rw [List.length_append, List.length_singleton]; omega) (ihc hchildren) (ih hrest)

/-- Parsing is the evaluation of the tree: whatever tree is written in a text of any length,
with whatever gaps and quotes, the parse of a file with this text returns `CONF_OK` exactly
if the tree has a meaning, and leaves it, with a call of a setter for each node; else it
returns an error. So does a `-g` option, for which no tree with a block has a meaning. -/
theorem parse_written (hm : WellBehaved modules) {f : Forest} {content : Bytes}
    (hf : Written f content) {fd : ℤ} (hfd : fd ≠ -1) {pread : ℕ → ℕ → Option Bytes}
    (hread : Reads content pread) (filename : Bytes) (scope : Scope) (st : σ) :
    (∃ rv r, parseFile modules ⟨fd, some content.length, pread⟩ filename scope st = some (rv, r) ∧
      f.Yields modules true scope st rv r) ∧
    ∃ rv r, param modules content scope st = some (rv, r) ∧
      f.Yields modules false scope st rv r :=
  ⟨hf.parseFile_yields hm hfd hread filename scope st, hf.param_yields hm scope st⟩

theorem printable_events : eventsForest.Printable :=
  ⟨by decide, by decide +kernel, ⟨by decide, by decide +kernel, trivial⟩, trivial⟩

/-- The block is accepted in a file, and not in an option. -/
theorem parse_written_events :
    (∃ r, parseFile eventModules ⟨3, some eventsForest.text.length, readFrom eventsForest.text⟩
      (ascii "lingx.conf") ⟨some 0, CORE_MODULE, MAIN_CONF⟩ false = some (.ok, r) ∧ r.st = true ∧
      r.calls = eventsForest.calls 0) ∧
    ∃ r, param eventModules eventsForest.text ⟨some 0, CORE_MODULE, MAIN_CONF⟩ false =
      some (.error, r) := by
  obtain ⟨⟨rv, r, hrun, hrv, hst, hcalls⟩, rv', r', hrun', hrv'⟩ :=
    parse_written eventModules_wellBehaved printable_events.written (show (3 : ℤ) ≠ -1 by decide)
      (reads_readFrom _) (ascii "lingx.conf") ⟨some 0, CORE_MODULE, MAIN_CONF⟩ false
  obtain rfl : rv = .ok := hrv
  obtain rfl : rv' = .error := hrv'
  exact ⟨⟨r, hrun, hst, hcalls⟩, r', hrun'⟩

/-- The text of a tree is read as this tree: in every way of writing it is that of no other. -/
theorem written_text_iff {f f' : Forest} (h : f.Printable) : Written f' f.text ↔ f' = f :=
  ⟨fun hf' => hf'.unique h.written, fun hf' => hf' ▸ h.written⟩

theorem written_text_iff_events : Written eventsForest eventsForest.text ∧
    ¬Written (.block (ascii "events") [] .nil .nil) eventsForest.text :=
  ⟨(written_text_iff printable_events).mpr rfl, fun h =>
    absurd ((written_text_iff printable_events).mp h) (by decide)⟩

end Text

end Lingx.Conf

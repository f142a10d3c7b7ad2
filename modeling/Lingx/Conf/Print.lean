import Lingx.Conf.Balance
import Lingx.Conf.Text

/-! Printed configurations. A tree of directives may be written with any gaps between its
words and marks; parsing the text with tables that accept the tree calls the setters for
the nodes of the tree, in their order and at their depth. -/

namespace Lingx.Conf

variable {σ : Type} {modules : List (Module σ)}

/-- A list of trees: each node has a name and arguments, and is simple or has a block; the
nodes that follow it at its depth come last. -/
inductive Forest where
  | nil
  | simple (name : Bytes) (args : List Bytes) (rest : Forest)
  | block (name : Bytes) (args : List Bytes) (children rest : Forest)
  deriving DecidableEq, Repr

/-- The calls of setters for the nodes, in their order. -/
def Forest.calls : ℕ → Forest → List Obs
  | _, .nil => []
  | depth, .simple name args rest => .call depth false (name :: args) :: rest.calls depth
  | depth, .block name args children rest =>
    .call depth true (name :: args) :: (children.calls (depth + 1) ++ rest.calls depth)

/-- Words that are written bare. -/
def bare (words : List Bytes) : List Param := words.map fun w => ⟨.bare, w⟩

/-- The texts of a list of trees. -/
inductive Printed : Forest → Bytes → Prop
  | nil {g : Bytes} : Gap g → Printed .nil g
  | simple {name g t u : Bytes} {args : List Bytes} {rest : Forest} : Gap g →
      ParamsText (bare (name :: args)) t → Printed rest u →
      Printed (.simple name args rest) (g ++ t ++ semicolon :: u)
  | block {name g t c u : Bytes} {args : List Bytes} {children rest : Forest} : Gap g →
      ParamsText (bare (name :: args)) t → Printed children c → Printed rest u →
      Printed (.block name args children rest) (g ++ t ++ lbrace :: (c ++ rbrace :: u))

/-- The tables accept each node in its place: its command is found in the scope and passes
its checks, a simple setter returns `CONF_OK`, and the setter of a block calls `parse("")`
once, in a scope that accepts the children, and then returns `CONF_OK`. -/
inductive Accepts (modules : List (Module σ)) : Scope → σ → Forest → σ → Prop
  | nil {scope : Scope} {st : σ} : Accepts modules scope st .nil st
  | simple {scope : Scope} {st st₁ st₂ : σ} {name : Bytes} {args : List Bytes} {rest : Forest}
      {mod : Module σ} {cmd : Command σ} :
      findCommand scope name false (allCommands modules) = .ok (mod, cmd) →
      checkCommand cmd .ok (name :: args) name = none →
      cmd.set ⟨name :: args, scope, confSlot mod cmd scope st⟩ st = .done .ok st₁ →
      Accepts modules scope st₁ rest st₂ →
      Accepts modules scope st (.simple name args rest) st₂
  | block {scope inner : Scope} {st st₁ st₂ st₃ st₄ : σ} {name : Bytes} {args : List Bytes}
      {children rest : Forest} {mod : Module σ} {cmd : Command σ} {k : Rv → σ → Setter σ} :
      findCommand scope name false (allCommands modules) = .ok (mod, cmd) →
      checkCommand cmd .blockStart (name :: args) name = none →
      cmd.set ⟨name :: args, scope, confSlot mod cmd scope st⟩ st = .parse inner st₁ k →
      Accepts modules inner st₁ children st₂ → k .ok st₂ = .done .ok st₃ →
      Accepts modules scope st₃ rest st₄ →
      Accepts modules scope st (.block name args children rest) st₄

def Obs.isCall : Obs → Bool
  | .call _ _ _ => true
  | _ => false

/-- The calls of setters in a run. -/
def Run.calls (r : Run σ) : List Obs := r.trace.filter Obs.isCall

theorem map_read_bare (words : List Bytes) : (bare words).map Param.read = words := by
  rw [bare, List.map_map]
  exact List.map_id _

/-- What is left of the text, and how a `parse` of a kind ends there. -/
inductive Left : Kind → Bytes → Bytes → Prop
  | block {rest : Bytes} : Left .block (rbrace :: rest) rest
  | file : Left .file [] []

/-- The window of a run stands before a part of the text. -/
structure Before (content : Bytes) (r : Run σ) (text : Bytes) : Prop where
  covers : ∃ d, Covers content r.cf d r.cf.buffer.pos ∧ content.drop (d + r.cf.buffer.pos) = text
  fd : r.cf.file.fd ≠ -1

variable {content : Bytes} {r : Run σ} {g t rest : Bytes} {name : Bytes} {args : List Bytes}

theorem Before.length_le (h : Before content r t) : t.length ≤ content.length := by
  obtain ⟨d, -, rfl⟩ := h.covers
  rw [List.length_drop]
  omega

theorem calls_see_token (r : Run σ) (depth : ℕ) (t : Token) :
    (r.see (.token depth t)).calls = r.calls := by
  simp [Run.calls, Run.see, Obs.isCall]

/-- A run behind the call of a setter that has changed the state of the program. -/
def Run.called (r : Run σ) (depth : ℕ) (block : Bool) (args : List Bytes) (st : σ) : Run σ :=
  { r.see (.call depth block args) with st := st }

theorem calls_called (r : Run σ) (depth : ℕ) (block : Bool) (args : List Bytes) (st : σ) :
    (r.called depth block args st).calls = r.calls ++ [.call depth block args] := by
  simp [Run.calls, Run.called, Run.see, Obs.isCall]

theorem Before.of_cf {r' : Run σ} (h : Before content r t) (hcf : r'.cf = r.cf) :
    Before content r' t := by
  obtain ⟨d, hc, htext⟩ := h.covers
  exact ⟨⟨d, hcf ▸ hc, hcf ▸ htext⟩, hcf ▸ h.fd⟩

theorem Before.directive {ch : Byte} {rc : Rc} (h : Before content r (g ++ t ++ ch :: rest))
    (hlen : content.length ≤ MAX_CONF_BUFFER) (hg : Gap g)
    (ht : ParamsText (bare (name :: args)) t) (hend : Ends ch rc) (depth : ℕ) :
    ∃ u cf r', readToken r.cf = some (u, cf) ∧ u.rc = rc ∧ u.args = name :: args ∧
      r' = { r with cf := cf }.see (.token depth u) ∧ r'.st = r.st ∧ r'.calls = r.calls ∧
      Before content r' rest := by
  have hle := h.length_le
  obtain ⟨d, hc, htext⟩ := h.covers
  obtain ⟨u, cf, d', hread, hrc, hargs, hfd, hc', hrest⟩ := readToken_directive hc htext hg ht hend
    (by simp at hle ⊢; omega)
  exact ⟨u, cf, _, hread, hrc, hargs.trans (map_read_bare _), rfl, rfl, calls_see_token _ _ _,
    ⟨d', hc', hrest⟩, hfd.symm ▸ h.fd⟩

theorem Before.ends {kind : Kind} {tail : Bytes} (modules : List (Module σ))
    (h : Before content r (g ++ tail)) (hlen : content.length ≤ MAX_CONF_BUFFER) (hg : Gap g)
    (hl : Left kind tail rest) (k depth : ℕ) (scope : Scope) :
    ∃ r', parseLoop modules (k + 1) kind depth scope r = some (.ok, r') ∧
      r'.st = r.st ∧ r'.calls = r.calls ∧ Before content r' rest := by
  have hle := h.length_le
  obtain ⟨d, hc, htext⟩ := h.covers
  cases hl with
  | block =>
    obtain ⟨u, cf, d', hread, hrc, hfd, hc', hrest⟩ := readToken_close hc htext hg
      (by simp at hle ⊢; omega)
    refine ⟨{ r with cf := cf }.see (.token depth u), ?_, rfl, ?_, ⟨d', hc', hrest⟩, ?_⟩
    · rw [parseLoop, hread]
      dsimp only
      rw [hrc]
      rfl
    · exact calls_see_token _ _ _
    · exact hfd.symm ▸ h.fd
  | file =>
    rw [List.append_nil] at htext hle
    obtain ⟨u, cf, d', hread, hrc, hfd, hc', hrest⟩ := readToken_eof hc htext hg (by omega)
    refine ⟨{ r with cf := cf }.see (.token depth u), ?_, rfl, ?_, ⟨d', hc', hrest⟩, ?_⟩
    · rw [parseLoop, hread]
      dsimp only
      rw [hrc]
      rfl
    · exact calls_see_token _ _ _
    · exact hfd.symm ▸ h.fd

/-- A token that is a directive is handled, and the loop goes on. -/
theorem parseLoop_directive {k depth : ℕ} {kind : Kind} {scope : Scope} {u : Token} {cf : ConfFile}
    {ch : Byte} {rc : Rc} {r₁ r' : Run σ} (hread : readToken r.cf = some (u, cf))
    (hrc : u.rc = rc) (hargs : u.args = args) (hr₁ : r₁ = { r with cf := cf }.see (.token depth u))
    (hend : Ends ch rc) (hkind : kind ≠ .param)
    (hh : handle modules (fun scope r => parseLoop modules k (.nested r.cf) (depth + 1) scope r)
      scope depth rc args r₁ = some (.ok, r')) :
    parseLoop modules (k + 1) kind depth scope r = parseLoop modules k kind depth scope r' := by
  rw [parseLoop, hread]
  dsimp only
  rw [hargs, ← hr₁, hrc]
  rcases hend with ⟨-, rfl⟩ | ⟨-, rfl⟩
  · dsimp only
    rw [if_neg (by simp), hh]
  · dsimp only
    rw [if_neg fun h : _ ∧ kind = .param => hkind h.2, hh]

theorem handle_simple {scope : Scope} {mod : Module σ} {cmd : Command σ} {st : σ}
    (parse : Scope → Run σ → Option (Rv × Run σ)) (depth : ℕ)
    (hfind : findCommand scope name false (allCommands modules) = .ok (mod, cmd))
    (hcheck : checkCommand cmd .ok (name :: args) name = none)
    (hset : cmd.set ⟨name :: args, scope, confSlot mod cmd scope r.st⟩ r.st = .done .ok st) :
    handle modules parse scope depth .ok (name :: args) r =
      some (.ok, r.called depth false (name :: args) st) := by
  have hblock : cmd.isBlock = false := by simpa using checkCommand_none hcheck
  simp only [handle, List.headD_cons, hfind, hcheck, hset, Setter.run, hblock, Run.called]

theorem handle_block {scope inner : Scope} {mod : Module σ} {cmd : Command σ} {st st' : σ}
    {next : Rv → σ → Setter σ} {r' : Run σ} (parse : Scope → Run σ → Option (Rv × Run σ))
    (depth : ℕ) (hfind : findCommand scope name false (allCommands modules) = .ok (mod, cmd))
    (hcheck : checkCommand cmd .blockStart (name :: args) name = none)
    (hset : cmd.set ⟨name :: args, scope, confSlot mod cmd scope r.st⟩ r.st = .parse inner st next)
    (hparse : parse inner (r.called depth true (name :: args) st) = some (.ok, r'))
    (hnext : next .ok r'.st = .done .ok st') :
    handle modules parse scope depth .blockStart (name :: args) r =
      some (.ok, { r' with st := st' }) := by
  have hblock : cmd.isBlock = true := by simpa using checkCommand_none hcheck
  rw [Run.called] at hparse
  simp only [handle, List.headD_cons, hfind, hcheck, hset, Setter.run, hblock, hparse, hnext]

/-- The loop over the text of a list of trees calls the setters for its nodes. -/
theorem parse_printed {f : Forest} {text : Bytes} (hf : Printed f text)
    (hlen : content.length ≤ MAX_CONF_BUFFER) {kind : Kind} {scope : Scope} {st st' : σ}
    {tail : Bytes} {k : ℕ} (depth : ℕ) (ha : Accepts modules scope st f st') (hst : r.st = st)
    (hb : Before content r (text ++ tail)) (hl : Left kind tail rest)
    (hk : (text ++ tail).length < k) :
    ∃ r', parseLoop modules k kind depth scope r = some (.ok, r') ∧ r'.st = st' ∧
      r'.calls = r.calls ++ f.calls depth ∧ Before content r' rest := by
  have hkind : kind ≠ .param := by
    cases hl <;> nofun
  induction hf generalizing r kind scope st st' tail rest k depth with
  | nil hg =>
    cases ha
    obtain ⟨k, rfl⟩ : ∃ k', k = k' + 1 := ⟨k - 1, by omega⟩
    obtain ⟨r', hrun, hst', hcalls, hb'⟩ := hb.ends modules hlen hg hl k depth scope
    exact ⟨r', hrun, hst'.trans hst, by simp [hcalls, Forest.calls], hb'⟩
  | @simple name g t u args frest hg ht _ ih =>
    obtain ⟨k, rfl⟩ : ∃ k', k = k' + 1 := ⟨k - 1, by omega⟩
    rw [List.append_assoc, List.cons_append] at hb hk
    have hless : (u ++ tail).length < k := by
      simp only [List.length_append, List.length_cons] at hk ⊢
      omega
    obtain ⟨tok, cf, r₁, hread, hrc, hargs, hr₁, hst₁, hcalls₁, hb₁⟩ :=
      hb.directive hlen hg ht (.inl ⟨rfl, rfl⟩) depth
    cases ha with
    | @simple _ _ st₁ _ _ _ _ _ _ hfind hcheck hset ha =>
      rw [← hst, ← hst₁] at hset
      have hhandle := handle_simple (fun scope r => parseLoop modules k (.nested r.cf) (depth + 1)
        scope r) depth hfind hcheck hset
      have hb₂ : Before content (r₁.called depth false (name :: args) st₁) (u ++ tail) :=
        hb₁.of_cf rfl
      obtain ⟨r', hrun, hst', hcalls, hb'⟩ := ih depth ha rfl hb₂ hl hless hkind
      refine ⟨r', ?_, hst', by rw [hcalls, calls_called, hcalls₁]; simp [Forest.calls], hb'⟩
      exact (parseLoop_directive hread hrc hargs hr₁ (.inl ⟨rfl, rfl⟩) hkind hhandle).trans hrun
  | @block name g t c u args children frest hg ht _ _ ihc ih =>
    obtain ⟨k, rfl⟩ : ∃ k', k = k' + 1 := ⟨k - 1, by omega⟩
    have happ : g ++ t ++ lbrace :: (c ++ rbrace :: u) ++ tail =
      g ++ t ++ lbrace :: (c ++ rbrace :: (u ++ tail)) := by simp
    rw [happ] at hb hk
    have hless : (c ++ rbrace :: (u ++ tail)).length < k ∧ (u ++ tail).length < k := by
      simp only [List.length_append, List.length_cons] at hk ⊢
      omega
    obtain ⟨tok, cf, r₁, hread, hrc, hargs, hr₁, hst₁, hcalls₁, hb₁⟩ :=
      hb.directive hlen hg ht (.inr ⟨rfl, rfl⟩) depth
    cases ha with
    | @block _ inner _ st₁ st₂ st₃ _ _ _ _ _ _ _ next hfind hcheck hset hac hnext ha =>
      rw [← hst, ← hst₁] at hset
      have hb₂ : Before content (r₁.called depth true (name :: args) st₁)
          (c ++ rbrace :: (u ++ tail)) := hb₁.of_cf rfl
      obtain ⟨r₃, hrun₃, hst₃, hcalls₃, hb₃⟩ :=
        ihc (depth + 1) hac rfl hb₂ .block hless.1 (by simp)
      have hnested : Kind.nested (r₁.called depth true (name :: args) st₁).cf = .block :=
        if_pos hb₂.fd
      rw [← hnested] at hrun₃
      have hhandle := handle_block (fun scope r => parseLoop modules k (.nested r.cf) (depth + 1)
        scope r) depth hfind hcheck hset hrun₃ (hst₃.symm ▸ hnext)
      have hb₄ : Before content { r₃ with st := st₃ } (u ++ tail) := hb₃.of_cf rfl
      obtain ⟨r', hrun, hst', hcalls, hb'⟩ := ih depth ha rfl hb₄ hl hless.2 hkind
      refine ⟨r', ?_, hst', ?_, hb'⟩
      · exact (parseLoop_directive hread hrc hargs hr₁ (.inr ⟨rfl, rfl⟩) hkind hhandle).trans hrun
      · rw [hcalls]
        show r₃.calls ++ _ = _
        rw [hcalls₃, calls_called, hcalls₁]
        simp [Forest.calls]

/-- Printing and parsing: for every tree that the tables accept and every text of it that
fits the buffer, `parse` returns `CONF_OK` and calls the setters for the nodes of the tree,
in their order, with their arguments and at their depth. -/
theorem parseFile_printed {f : Forest} (hf : Printed f content)
    (hlen : content.length ≤ MAX_CONF_BUFFER) {scope : Scope} {st st' : σ}
    (ha : Accepts modules scope st f st') {fd : ℤ} (hfd : fd ≠ -1)
    {pread : ℕ → ℕ → Option Bytes} (hread : Reads content pread) (filename : Bytes) :
    ∃ r, parseFile modules ⟨fd, some content.length, pread⟩ filename scope st = some (.ok, r) ∧
      r.st = st' ∧ r.calls = f.calls 0 := by
  obtain ⟨r₀, hr₀⟩ : ∃ r₀ : Run σ, r₀ = ⟨.opened fd filename content.length pread, st, []⟩ :=
    ⟨_, rfl⟩
  have hcover := covers_opened fd filename hread
  have hb : Before content r₀ (content ++ []) := by
    rw [hr₀, List.append_nil]
    exact ⟨⟨0, hcover, rfl⟩, hfd⟩
  obtain ⟨r, hrun, hst, hcalls, -⟩ := parse_printed (r := r₀) (k := r₀.cf.remaining + 1) hf hlen 0
    ha (by rw [hr₀]) hb .file (by
      rw [hr₀, List.append_nil]
      exact Nat.lt_succ_of_le hcover.remaining.ge)
  refine ⟨r, ?_, hst, ?_⟩
  · rw [parseFile, if_neg hfd, if_neg (by simp)]
    exact hr₀ ▸ hrun
  · rw [hcalls, hr₀]
    rfl

section Example

/-- The `events` block with a comment and a directive in it. -/
def eventsForest : Forest :=
  .block (ascii "events") [] (.simple (ascii "multi_accept") [ascii "on"] .nil) .nil

theorem printed_events :
    Printed eventsForest (ascii "events \x7b # on\n multi_accept on; \x7d") := by
  have hevents : ParamsText (bare [ascii "events"]) (ascii "events" ++ [space]) :=
    ParamsText.last (p := ⟨.bare, ascii "events"⟩) (by decide) spaced_space
  have haccept : ParamsText (bare [ascii "multi_accept", ascii "on"])
      (ascii "multi_accept" ++ [space] ++ (ascii "on" ++ [])) :=
    ParamsText.cons (p := ⟨.bare, ascii "multi_accept"⟩) (by decide) spaced_space (by decide)
      (ParamsText.last (p := ⟨.bare, ascii "on"⟩) (by decide) spaced_nil)
  have hgap : Gap (space :: sharp :: (ascii " on" ++ lf :: [space])) :=
    .space (by decide) (.comment (by decide) (.space (by decide) .nil))
  have hlast : Gap [space] := .space (by decide) .nil
  have hprinted := Printed.block .nil hevents (.simple hgap haccept (.nil hlast)) (.nil .nil)
  have happ : [] ++ (ascii "events" ++ [space]) ++ lbrace ::
      (space :: sharp :: (ascii " on" ++ lf :: [space]) ++
        (ascii "multi_accept" ++ [space] ++ (ascii "on" ++ [])) ++ semicolon :: [space] ++
        rbrace :: []) = ascii "events \x7b # on\n multi_accept on; \x7d" := by decide
  rw [happ] at hprinted
  exact hprinted

theorem accepts_events : Accepts eventModules ⟨some 0, CORE_MODULE, MAIN_CONF⟩ false eventsForest
    true :=
  .block rfl rfl rfl (.simple rfl rfl rfl .nil) rfl .nil

theorem parseFile_printed_events : ∃ r,
    parseFile eventModules ⟨3, some (ascii "events \x7b # on\n multi_accept on; \x7d").length,
      readFrom (ascii "events \x7b # on\n multi_accept on; \x7d")⟩ (ascii "lingx.conf")
      ⟨some 0, CORE_MODULE, MAIN_CONF⟩ false = some (.ok, r) ∧ r.st = true ∧
    r.calls = [.call 0 true [ascii "events"], .call 1 false [ascii "multi_accept", ascii "on"]] :=
  parseFile_printed printed_events (by decide) accepts_events (by decide) (reads_readFrom _) _

end Example

end Lingx.Conf

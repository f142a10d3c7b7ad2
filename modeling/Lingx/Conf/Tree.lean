import Lingx.Conf.Dispatch
import Lingx.Conf.Print

/-! The meaning of a configuration is that of its tree. `Forest.eval` runs the setters of a
tree over the state of the program, with no text, no window and no tokens. Parsing a
written tree is its evaluation, whether that succeeds or not, and every text that is
accepted has a tree that it is the evaluation of. -/

namespace Lingx.Conf

variable {σ : Type} {modules : List (Module σ)}

section Eval
variable (modules)

/-- The command that a directive is for, if it is found and passes its checks. -/
def admitted (scope : Scope) (last : Rc) (args : List Bytes) : Option (Module σ × Command σ) :=
  match findCommand scope (args.headD []) false (allCommands modules) with
  | .error _ => none
  | .ok (mod, cmd) =>
    if checkCommand cmd last args (args.headD []) = none then some (mod, cmd) else none

/-- What the setter of a directive does. -/
def directiveSetter (scope : Scope) (last : Rc) (args : List Bytes) (st : σ) :
    Option (Setter σ) :=
  (admitted modules scope last args).map fun (mod, cmd) =>
    cmd.set ⟨args, scope, confSlot mod cmd scope st⟩ st

/-- The state that a setter leaves, if it returns `CONF_OK` at once. -/
def Setter.returned : Setter σ → Option σ
  | .done .ok st => some st
  | _ => none

/-- The `parse("")` that a setter begins with. -/
def Setter.opened : Setter σ → Option (Scope × σ × (Rv → σ → Setter σ))
  | .done _ _ => none
  | .parse scope st k => some (scope, st, k)

/-- The state behind a tree, if every directive of it is accepted; blocks may be forbidden. -/
def Forest.eval : Bool → Scope → σ → Forest → Option σ
  | _, _, st, .nil => some st
  | blocks, scope, st, .simple name args rest => do
    let setter ← directiveSetter modules scope .ok (name :: args) st
    let st ← setter.returned
    rest.eval blocks scope st
  | blocks, scope, st, .block name args children rest => do
    guard blocks
    let setter ← directiveSetter modules scope .blockStart (name :: args) st
    let (inner, st, k) ← setter.opened
    let st ← children.eval true inner st
    let st ← (k .ok st).returned
    rest.eval blocks scope st

end Eval

section Setters
variable {parse : Scope → Run σ → Option (Rv × Run σ)} {s : Setter σ} {r r' : Run σ} {rv : Rv}
  {st : σ}

theorem Setter.returned_eq_some : s.returned = some st ↔ s = .done .ok st := by
  cases s with
  | done rv st => cases rv <;> simp [Setter.returned]
  | parse scope st k => simp [Setter.returned]

theorem Setter.opened_eq_some {scope : Scope} {k : Rv → σ → Setter σ} :
    s.opened = some (scope, st, k) ↔ s = .parse scope st k := by
  cases s <;> simp [Setter.opened]

theorem Setter.Fails.ne_ok (h : s.Fails) (hrun : s.run parse r = some (rv, r')) : rv ≠ .ok := by
  induction s generalizing r with
  | done rv st =>
    cases hrun
    exact h
  | parse scope st k ih =>
    rw [Setter.run] at hrun
    split at hrun
    · cases hrun
    · exact ih _ _ (h _ _) hrun

theorem Setter.Simple.run_ok (h : s.Simple) (hrun : s.run parse r = some (.ok, r')) :
    ∃ st, s.returned = some st ∧ r' = { r with st := st } := by
  cases s with
  | done rv st =>
    cases hrun
    exact ⟨st, rfl, rfl⟩
  | parse scope st k => exact absurd rfl (Setter.Fails.ne_ok (s := .parse scope st k) h hrun)

/-- A setter of a block that succeeds has parsed it, and returns behind that. -/
theorem Setter.AfterParse.run_ok (h : s.AfterParse) (hrun : s.run parse r = some (.ok, r')) :
    ∃ inner st k r₁ st', s.opened = some (inner, st, k) ∧
      parse inner { r with st := st } = some (.ok, r₁) ∧ (k .ok r₁.st).returned = some st' ∧
      r' = { r₁ with st := st' } := by
  cases s with
  | done rv st =>
    cases hrun
    exact absurd rfl h
  | parse inner st k =>
    rw [Setter.run] at hrun
    split at hrun
    · cases hrun
    · rename_i rv₁ r₁ hparse
      by_cases hrv : rv₁ = .ok
      · subst hrv
        obtain ⟨st', hst', hr'⟩ := (h.1 r₁.st).run_ok hrun
        exact ⟨inner, st, k, r₁, st', rfl, hparse, hst', hr'⟩
      · exact absurd rfl ((h.2 rv₁ r₁.st hrv).ne_ok hrun)

end Setters

section Handle
variable {parse : Scope → Run σ → Option (Rv × Run σ)} {scope : Scope} {depth : ℕ} {last : Rc}
  {args : List Bytes} {r r' : Run σ} {mod : Module σ} {cmd : Command σ} {st : σ}

theorem admitted_eq_some : admitted modules scope last args = some (mod, cmd) ↔
    findCommand scope (args.headD []) false (allCommands modules) = .ok (mod, cmd) ∧
      checkCommand cmd last args (args.headD []) = none := by
  rw [admitted]
  split
  · rename_i hfind
    rw [hfind]
    exact iff_of_false nofun fun h => nomatch h.1
  · rename_i mod' cmd' hfind
    rw [hfind]
    split_ifs with hcheck
    · constructor
      · rintro ⟨⟩
        exact ⟨rfl, hcheck⟩
      · rintro ⟨⟨⟩, -⟩
        rfl
    · refine iff_of_false nofun ?_
      rintro ⟨⟨⟩, h⟩
      exact hcheck h

/-- Where the setter of a command is run as a directive, it is a simple one or that of a
block, as the directive ends. -/
theorem directiveSetter_wellBehaved (hm : WellBehaved modules) {s : Setter σ}
    (h : directiveSetter modules scope last args st = some s) :
    if last = .blockStart then s.AfterParse else s.Simple := by
  obtain ⟨⟨mod, cmd⟩, hadm, rfl⟩ := Option.map_eq_some_iff.mp h
  obtain ⟨hfind, hcheck⟩ := admitted_eq_some.mp hadm
  obtain ⟨hmod, hcmd⟩ := mem_allCommands.mp (findCommand_mem hfind)
  have hset := hm mod hmod cmd hcmd ⟨args, scope, confSlot mod cmd scope st⟩ st
  rw [checkCommand_none hcheck] at hset
  simpa using hset

theorem handle_eq_ok : handle modules parse scope depth last args r = some (.ok, r') ↔
    ∃ s, directiveSetter modules scope last args r.st = some s ∧
      s.run parse (r.see (.call depth (last = .blockStart) args)) = some (.ok, r') := by
  simp only [directiveSetter, Option.map_eq_some_iff, Prod.exists]
  constructor
  · intro h
    rcases handle_cases h with ⟨hrv, -⟩ | ⟨mod, cmd, rv₁, r₁, hfind, hcheck, hset, -, hok⟩
    · exact absurd rfl hrv
    · obtain ⟨rfl, rfl⟩ := hok rfl
      rw [checkCommand_none hcheck] at hset
      exact ⟨_, ⟨mod, cmd, admitted_eq_some.mpr ⟨hfind, hcheck⟩, rfl⟩, hset⟩
  · rintro ⟨s, ⟨mod, cmd, hadm, rfl⟩, hset⟩
    obtain ⟨hfind, hcheck⟩ := admitted_eq_some.mp hadm
    rw [← checkCommand_none hcheck] at hset
    simp only [handle, hfind, hcheck, hset]

theorem handle_simple_eq_ok (hm : WellBehaved modules) :
    handle modules parse scope depth .ok args r = some (.ok, r') ↔
      ∃ s st, directiveSetter modules scope .ok args r.st = some s ∧ s.returned = some st ∧
        r' = r.called depth false args st := by
  rw [handle_eq_ok]
  constructor
  · rintro ⟨s, hs, hrun⟩
    have hsimple := directiveSetter_wellBehaved hm hs
    rw [if_neg (by simp)] at hsimple
    obtain ⟨st, hst, rfl⟩ := hsimple.run_ok hrun
    exact ⟨s, st, hs, hst, rfl⟩
  · rintro ⟨s, st, hs, hst, rfl⟩
    refine ⟨s, hs, ?_⟩
    rw [Setter.returned_eq_some.mp hst]
    rfl

theorem handle_block_eq_ok (hm : WellBehaved modules) :
    handle modules parse scope depth .blockStart args r = some (.ok, r') ↔
      ∃ s inner st k r₁ st', directiveSetter modules scope .blockStart args r.st = some s ∧
        s.opened = some (inner, st, k) ∧
        parse inner (r.called depth true args st) = some (.ok, r₁) ∧
        (k .ok r₁.st).returned = some st' ∧ r' = { r₁ with st := st' } := by
  rw [handle_eq_ok]
  constructor
  · rintro ⟨s, hs, hrun⟩
    have hblock := directiveSetter_wellBehaved hm hs
    rw [if_pos rfl] at hblock
    obtain ⟨inner, st, k, r₁, st', hopen, hparse, hst', rfl⟩ := hblock.run_ok hrun
    exact ⟨s, inner, st, k, r₁, st', hs, hopen, hparse, hst', rfl⟩
  · rintro ⟨s, inner, st, k, r₁, st', hs, hopen, hparse, hst', rfl⟩
    refine ⟨s, hs, ?_⟩
    rw [Run.called] at hparse
    simp only [Setter.opened_eq_some.mp hopen, decide_true, Setter.run, hparse,
      Setter.returned_eq_some.mp hst']

end Handle

section Loop
variable {kind : Kind} {scope : Scope} {depth k : ℕ} {r r' : Run σ} {st : σ}

/-- The results of `read_token_` that end a `parse` of a kind with success. -/
def Kind.Done (kind : Kind) (rc : Rc) : Prop :=
  rc = .blockDone ∧ kind = .block ∨ rc = .fileDone ∧ kind ≠ .block

/-- The results of `read_token_` that are handled. -/
def Kind.Handles (kind : Kind) (rc : Rc) : Prop := rc = .ok ∨ rc = .blockStart ∧ kind ≠ .param

theorem goesOn_eq_ok {x : Option (Rv × Run σ)} {next : Run σ → Option (Rv × Run σ)} :
    (match x with
      | none => none
      | some (.ok, r) => next r
      | some (_, r) => some (.error, r)) = some (.ok, r') ↔
      ∃ r₁, x = some (.ok, r₁) ∧ next r₁ = some (.ok, r') := by
  constructor
  · intro h
    split at h
    · cases h
    · exact ⟨_, rfl, h⟩
    · cases h
  · rintro ⟨r₁, rfl, h⟩
    exact h

/-- The loop succeeds where the next token ends it, or is handled and the rest succeeds. -/
theorem parseLoop_eq_ok : parseLoop modules (k + 1) kind depth scope r = some (.ok, r') ↔
    ∃ t cf, readToken r.cf = some (t, cf) ∧
      (kind.Done t.rc ∧ r' = { r with cf := cf }.see (.token depth t) ∨
      kind.Handles t.rc ∧ ∃ r₁,
        handle modules (fun scope r => parseLoop modules k (.nested r.cf) (depth + 1) scope r)
          scope depth t.rc t.args ({ r with cf := cf }.see (.token depth t)) = some (.ok, r₁) ∧
        parseLoop modules k kind depth scope r₁ = some (.ok, r')) := by
  rw [parseLoop]
  cases hread : readToken r.cf with
  | none => simp
  | some p =>
    obtain ⟨t, cf⟩ := p
    have hnext {P : Token → ConfFile → Prop} :
        (∃ u cf', some (t, cf) = some (u, cf') ∧ P u cf') ↔ P t cf := by
      constructor
      · rintro ⟨u, cf', ⟨⟩, h⟩
        exact h
      · exact fun h => ⟨t, cf, rfl, h⟩
    rw [hnext]
    cases hrc : t.rc <;> cases kind <;>
      simp only [Kind.Done, Kind.Handles, reduceCtorEq, false_and, and_false, false_or, or_false,
        true_and, and_true, ne_eq, not_true_eq_false, not_false_eq_true, if_true, if_false,
        Option.some.injEq, Prod.mk.injEq, hrc]
    all_goals first | exact eq_comm | exact goesOn_eq_ok

/-- A run behind a token. -/
def Run.read (r : Run σ) (cf : ConfFile) (depth : ℕ) (t : Token) : Run σ :=
  { r with cf := cf }.see (.token depth t)

theorem calls_read (r : Run σ) (cf : ConfFile) (depth : ℕ) (t : Token) :
    (r.read cf depth t).calls = r.calls :=
  calls_see_token _ _ _

variable {t : Token} {cf : ConfFile}

theorem parseLoop_simple_eq_ok (hm : WellBehaved modules) (hread : readToken r.cf = some (t, cf))
    (hrc : t.rc = .ok) : parseLoop modules (k + 1) kind depth scope r = some (.ok, r') ↔
      ∃ s st, directiveSetter modules scope .ok t.args r.st = some s ∧ s.returned = some st ∧
        parseLoop modules k kind depth scope ((r.read cf depth t).called depth false t.args st) =
          some (.ok, r') := by
  rw [parseLoop_eq_ok]
  constructor
  · rintro ⟨t', cf', hread', h⟩
    obtain ⟨rfl, rfl⟩ := Prod.mk.inj (Option.some.inj (hread'.symm.trans hread))
    rw [hrc] at h
    rcases h with ⟨⟨h, -⟩ | ⟨h, -⟩, -⟩ | ⟨-, r₁, hhandle, hrest⟩
    · cases h
    · cases h
    · obtain ⟨s, st, hs, hst, rfl⟩ := (handle_simple_eq_ok hm).mp hhandle
      exact ⟨s, st, hs, hst, hrest⟩
  · rintro ⟨s, st, hs, hst, hrest⟩
    refine ⟨t, cf, hread, .inr ⟨.inl hrc, _, ?_, hrest⟩⟩
    rw [hrc]
    exact (handle_simple_eq_ok hm).mpr ⟨s, st, hs, hst, rfl⟩

theorem parseLoop_block_eq_ok (hm : WellBehaved modules) (hread : readToken r.cf = some (t, cf))
    (hrc : t.rc = .blockStart) : parseLoop modules (k + 1) kind depth scope r = some (.ok, r') ↔
      kind ≠ .param ∧ ∃ s inner st next r₁ st',
        directiveSetter modules scope .blockStart t.args r.st = some s ∧
        s.opened = some (inner, st, next) ∧
        parseLoop modules k (.nested cf) (depth + 1) inner
          ((r.read cf depth t).called depth true t.args st) = some (.ok, r₁) ∧
        (next .ok r₁.st).returned = some st' ∧
        parseLoop modules k kind depth scope { r₁ with st := st' } = some (.ok, r') := by
  rw [parseLoop_eq_ok]
  constructor
  · rintro ⟨t', cf', hread', h⟩
    obtain ⟨rfl, rfl⟩ := Prod.mk.inj (Option.some.inj (hread'.symm.trans hread))
    rw [hrc] at h
    rcases h with ⟨⟨h, -⟩ | ⟨h, -⟩, -⟩ | ⟨h | ⟨-, hkind⟩, r₁, hhandle, hrest⟩
    · cases h
    · cases h
    · cases h
    · obtain ⟨s, inner, st, next, r₂, st', hs, hopen, hparse, hst', rfl⟩ :=
        (handle_block_eq_ok hm).mp hhandle
      exact ⟨hkind, s, inner, st, next, r₂, st', hs, hopen, hparse, hst', hrest⟩
  · rintro ⟨hkind, s, inner, st, next, r₁, st', hs, hopen, hparse, hst', hrest⟩
    refine ⟨t, cf, hread, .inr ⟨.inr ⟨hrc, hkind⟩, _, ?_, hrest⟩⟩
    rw [hrc]
    exact (handle_block_eq_ok hm).mpr ⟨s, inner, st, next, r₁, st', hs, hopen, hparse, hst', rfl⟩

end Loop

section Trees
variable {scope : Scope} {st st' : σ} {name : Bytes} {args : List Bytes} {children rest f : Forest}
  {blocks : Bool}

theorem Forest.eval_simple : (Forest.simple name args rest).eval modules blocks scope st = some st' ↔
    ∃ s st₁, directiveSetter modules scope .ok (name :: args) st = some s ∧
      s.returned = some st₁ ∧ rest.eval modules blocks scope st₁ = some st' := by
  simp only [Forest.eval, Option.bind_eq_bind, Option.bind_eq_some_iff, exists_and_left]

theorem Forest.eval_block :
    (Forest.block name args children rest).eval modules blocks scope st = some st' ↔
      blocks = true ∧ ∃ s inner st₁ next st₂ st₃,
        directiveSetter modules scope .blockStart (name :: args) st = some s ∧
        s.opened = some (inner, st₁, next) ∧ children.eval modules true inner st₁ = some st₂ ∧
        (next .ok st₂).returned = some st₃ ∧ rest.eval modules blocks scope st₃ = some st' := by
  cases blocks with
  | false => simp [Forest.eval]
  | true =>
    simp only [Forest.eval, Option.bind_eq_bind, Option.bind_eq_some_iff, Prod.exists]
    constructor
    · rintro ⟨-, -, s, hs, inner, st₁, next, hopen, st₂, hst₂, st₃, hst₃, h⟩
      exact ⟨trivial, s, inner, st₁, next, st₂, st₃, hs, hopen, hst₂, hst₃, h⟩
    · rintro ⟨-, s, inner, st₁, next, st₂, st₃, hs, hopen, hst₂, hst₃, h⟩
      exact ⟨(), rfl, s, hs, inner, st₁, next, hopen, st₂, hst₂, st₃, hst₃, h⟩

/-- Where blocks are forbidden nothing else is allowed than where they are not. -/
theorem Forest.eval_blocks (h : f.eval modules blocks scope st = some st') :
    f.eval modules true scope st = some st' := by
  induction f generalizing st with
  | nil => exact h
  | simple name args rest ih =>
    obtain ⟨s, st₁, hs, hst₁, hrest⟩ := Forest.eval_simple.mp h
    exact Forest.eval_simple.mpr ⟨s, st₁, hs, hst₁, ih hrest⟩
  | block name args children rest _ ih =>
    obtain ⟨-, s, inner, st₁, next, st₂, st₃, hs, hopen, hst₂, hst₃, hrest⟩ :=
      Forest.eval_block.mp h
    exact Forest.eval_block.mpr
      ⟨rfl, s, inner, st₁, next, st₂, st₃, hs, hopen, hst₂, hst₃, ih hrest⟩

/-- A run that succeeds is the evaluation of a tree; the induction is on the tokens that are
left, of the nested calls too. -/
theorem parseLoop_tree (hm : WellBehaved modules) {k depth : ℕ} {kind : Kind} {r r' : Run σ}
    (h : parseLoop modules k kind depth scope r = some (.ok, r')) :
    ∃ f : Forest, f.eval modules (kind ≠ .param) scope r.st = some r'.st ∧
      r'.calls = r.calls ++ f.calls depth := by
  induction k generalizing kind depth scope r r' with
  | zero => cases h
  | succ k ih =>
    obtain ⟨t, cf, hread, ⟨-, rfl⟩ | ⟨hrc, -⟩⟩ := parseLoop_eq_ok.mp h
    · exact ⟨.nil, rfl, by rw [Forest.calls, List.append_nil]; exact calls_read r cf depth t⟩
    · have hne : t.args ≠ [] := readToken_args hread (hrc.imp id And.left)
      obtain ⟨name, args, hargs⟩ := List.exists_cons_of_ne_nil hne
      rcases hrc with hrc | ⟨hrc, hkind⟩
      · obtain ⟨s, st, hs, hst, hrest⟩ := (parseLoop_simple_eq_ok hm hread hrc).mp h
        obtain ⟨f, hf, hcalls⟩ := ih hrest
        refine ⟨.simple name args f, ?_, ?_⟩
        · exact Forest.eval_simple.mpr ⟨s, st, hargs ▸ hs, hst, hf⟩
        · rw [hcalls, calls_called, calls_read, hargs, List.append_assoc]
          rfl
      · obtain ⟨-, s, inner, st, next, r₁, st', hs, hopen, hinner, hst', hrest⟩ :=
          (parseLoop_block_eq_ok hm hread hrc).mp h
        obtain ⟨c, hc, hcalls₁⟩ := ih hinner
        obtain ⟨f, hf, hcalls⟩ := ih hrest
        refine ⟨.block name args c f, ?_, ?_⟩
        · exact Forest.eval_block.mpr ⟨by simpa using hkind, s, inner, st, next, r₁.st, st',
            hargs ▸ hs, hopen, Forest.eval_blocks hc, hst', hf⟩
        · rw [hcalls]
          show r₁.calls ++ _ = _
          rw [hcalls₁, calls_called, calls_read, hargs]
          simp [Forest.calls]

theorem parseFile_tree (hm : WellBehaved modules) {o : Opened} {filename : Bytes} {r : Run σ}
    (h : parseFile modules o filename scope st = some (.ok, r)) :
    ∃ f : Forest, f.eval modules true scope st = some r.st ∧ r.calls = f.calls 0 := by
  rw [parseFile] at h
  split_ifs at h
  · cases h
  · cases h
  · exact parseLoop_tree hm h

theorem param_tree (hm : WellBehaved modules) {text : Bytes} {r : Run σ}
    (h : param modules text scope st = some (.ok, r)) :
    ∃ f : Forest, f.eval modules false scope st = some r.st ∧ r.calls = f.calls 0 := by
  rw [param] at h
  split_ifs at h
  · cases h
    exact ⟨.nil, rfl, rfl⟩
  · exact parseLoop_tree hm h

/-- What a run has done is what a tree says, whatever the text was: if a file is accepted, or
a `-g` option, then there is a tree whose nodes are the calls of setters that were made,
each at its depth, and the state that is left is that of its evaluation. That of an option
has no blocks. -/
theorem parse_tree (hm : WellBehaved modules) (o : Opened) (filename text : Bytes)
    (scope : Scope) (st : σ) (r : Run σ) :
    (parseFile modules o filename scope st = some (.ok, r) →
      ∃ f : Forest, f.eval modules true scope st = some r.st ∧ r.calls = f.calls 0) ∧
    (param modules text scope st = some (.ok, r) →
      ∃ f : Forest, f.eval modules false scope st = some r.st ∧ r.calls = f.calls 0) :=
  ⟨parseFile_tree hm, param_tree hm⟩

/-- A file with a block, of which a comment and a gap are no part of the tree. -/
theorem parse_tree_events : ∃ (r : Run Bool) (f : Forest),
    parseFile eventModules ⟨3, some (ascii "events \x7b # on\n multi_accept on; \x7d").length,
      readFrom (ascii "events \x7b # on\n multi_accept on; \x7d")⟩ (ascii "lingx.conf")
      ⟨some 0, CORE_MODULE, MAIN_CONF⟩ false = some (.ok, r) ∧
    f.eval eventModules true ⟨some 0, CORE_MODULE, MAIN_CONF⟩ false = some r.st ∧
    r.calls = f.calls 0 := by
  obtain ⟨r, hrun, -, -⟩ := parseFile_printed printed_events (by decide) accepts_events
    (show (3 : ℤ) ≠ -1 by decide) (reads_readFrom _) (ascii "lingx.conf")
  obtain ⟨f, hf, hcalls⟩ := (parse_tree eventModules_wellBehaved _ _ [] _ _ r).1 hrun
  exact ⟨r, f, hrun, hf, hcalls⟩

end Trees

end Lingx.Conf

import Lingx.Conf.Balance

/-! Rules for `handle_` and for the loop of `parse`. A property of the state and of what
has been seen is kept by the loop of a scope if `handle_` keeps it there. -/

namespace Lingx.Conf

variable {σ : Type} {modules : List (Module σ)}

/-- A command that is found has the name, the type and the place that were looked for. -/
theorem findCommand_fits {scope : Scope} {name : Bytes} {found : Bool}
    {l : List (Module σ × Command σ)} {mod : Module σ} {cmd : Command σ}
    (h : findCommand scope name found l = .ok (mod, cmd)) :
    name = cmd.name ∧ mod.type = scope.moduleType ∧ cmd.type &&& scope.cmdType ≠ 0 := by
  induction l generalizing found with
  | nil => cases h
  | cons p l ih =>
    obtain ⟨mod', cmd'⟩ := p
    rw [findCommand] at h
    split_ifs at h with hname htype hcmd
    · exact ih h
    · exact ih h
    · exact ih h
    · cases h
      exact ⟨not_not.mp hname, not_not.mp htype, hcmd⟩

/-- What `handle_` does: it fails with the state as it was, or it does what the setter of a
command does, which has been found and checked. -/
theorem handle_cases {parse : Scope → Run σ → Option (Rv × Run σ)} {scope : Scope} {depth : ℕ}
    {last : Rc} {args : List Bytes} {r r' : Run σ} {rv : Rv}
    (h : handle modules parse scope depth last args r = some (rv, r')) :
    rv ≠ .ok ∧ r'.st = r.st ∨ ∃ mod cmd rv₁ r₁,
      findCommand scope (args.headD []) false (allCommands modules) = .ok (mod, cmd) ∧
      checkCommand cmd last args (args.headD []) = none ∧
      (cmd.set ⟨args, scope, confSlot mod cmd scope r.st⟩ r.st).run parse
        (r.see (.call depth cmd.isBlock args)) = some (rv₁, r₁) ∧
      r'.st = r₁.st ∧ (rv = .ok → rv₁ = .ok ∧ r' = r₁) := by
  simp only [handle] at h
  split at h
  · cases h
    exact .inl ⟨Rv.noConfusion, rfl⟩
  · rename_i mod cmd hfind
    split at h
    · cases h
      exact .inl ⟨Rv.noConfusion, rfl⟩
    · rename_i hcheck
      split at h
      · cases h
      · rename_i r₁ hrun
        cases h
        exact .inr ⟨mod, cmd, _, _, hfind, hcheck, hrun, rfl, fun _ => ⟨rfl, rfl⟩⟩
      · rename_i r₁ hrun
        cases h
        exact .inr ⟨mod, cmd, _, _, hfind, hcheck, hrun, rfl, Rv.noConfusion⟩
      · rename_i msg r₁ hrun
        cases h
        exact .inr ⟨mod, cmd, _, _, hfind, hcheck, hrun, rfl, Rv.noConfusion⟩

/-- What the loop does with its next token: it fails with the state as it was, it ends, or it
handles a directive and goes on if that returns `CONF_OK`. -/
theorem parseLoop_cases {k depth : ℕ} {kind : Kind} {scope : Scope} {r r' : Run σ} {rv : Rv}
    (h : parseLoop modules (k + 1) kind depth scope r = some (rv, r')) :
    rv ≠ .ok ∧ r'.st = r.st ∨ ∃ t cf, readToken r.cf = some (t, cf) ∧
      ((t.rc = .blockDone ∨ t.rc = .fileDone) ∧ r' = { r with cf := cf }.see (.token depth t) ∨
      (t.rc = .ok ∨ t.rc = .blockStart) ∧ ∃ rv₁ r₁,
        handle modules (fun scope r => parseLoop modules k (.nested r.cf) (depth + 1) scope r)
          scope depth t.rc t.args ({ r with cf := cf }.see (.token depth t)) = some (rv₁, r₁) ∧
        (rv₁ = .ok ∧ parseLoop modules k kind depth scope r₁ = some (rv, r') ∨
          rv ≠ .ok ∧ r' = r₁)) := by
  rw [parseLoop] at h
  split at h
  · cases h
  · rename_i t cf hread
    dsimp only at h
    split at h
    · cases h
      exact .inl ⟨Rv.noConfusion, rfl⟩
    · rename_i hrc
      split_ifs at h with hkind <;> cases h
      · exact .inl ⟨Rv.noConfusion, rfl⟩
      · exact .inr ⟨t, cf, hread, .inl ⟨.inl hrc, rfl⟩⟩
    · rename_i hrc
      split_ifs at h with hkind <;> cases h
      · exact .inl ⟨Rv.noConfusion, rfl⟩
      · exact .inr ⟨t, cf, hread, .inl ⟨.inr hrc, rfl⟩⟩
    · rename_i herror hblockDone hfileDone
      have hrc : t.rc = .ok ∨ t.rc = .blockStart := by
        cases hrc : t.rc with
        | ok => exact .inl rfl
        | blockStart => exact .inr rfl
        | blockDone => exact absurd hrc hblockDone
        | fileDone => exact absurd hrc hfileDone
        | error err => exact absurd hrc (herror err)
      split_ifs at h with hkind
      · cases h
        exact .inl ⟨Rv.noConfusion, rfl⟩
      · refine .inr ⟨t, cf, hread, .inr ⟨hrc, ?_⟩⟩
        split at h
        · cases h
        · rename_i r₁ hrun
          exact ⟨_, r₁, hrun, .inl ⟨rfl, h⟩⟩
        · rename_i rv₁ r₁ hok hrun
          cases h
          exact ⟨rv₁, _, hrun, .inr ⟨Rv.noConfusion, rfl⟩⟩

/-- Where a part of a run has come to: `F` holds of the state, and `I` too if it returns
`CONF_OK`. -/
def Comes (I : σ → List Obs → Prop) (F : σ → Prop) (rv : Rv) (r : Run σ) : Prop :=
  F r.st ∧ (rv = .ok → I r.st r.trace)

section Keep
variable {I : σ → List Obs → Prop} {F : σ → Prop} {scope : Scope}

variable (modules I F scope) in
/-- What makes `I` an invariant of the loop in a scope. -/
structure Invariant : Prop where
  final : ∀ st tr, I st tr → F st
  ends : ∀ st tr depth t, t.rc = .blockDone ∨ t.rc = .fileDone → I st tr →
    I st (tr ++ [.token depth t])
  handle : ∀ k depth t tr (r r' : Run σ) rv, t.rc = .ok ∨ t.rc = .blockStart → I r.st tr →
    r.trace = tr ++ [.token depth t] →
    Conf.handle modules (fun scope r => parseLoop modules k (.nested r.cf) (depth + 1) scope r)
      scope depth t.rc t.args r = some (rv, r') → Comes I F rv r'

/-- The loop keeps an invariant; the induction is on the tokens that are left. -/
theorem Invariant.parseLoop (hinv : Invariant modules I F scope) {k depth : ℕ} {kind : Kind}
    {r r' : Run σ} {rv : Rv} (hI : I r.st r.trace)
    (h : parseLoop modules k kind depth scope r = some (rv, r')) : Comes I F rv r' := by
  have hF : ∀ r : Run σ, I r.st r.trace → F r.st := fun r => hinv.final r.st r.trace
  induction k generalizing r with
  | zero => cases h
  | succ k ih =>
    rcases parseLoop_cases h with ⟨hrv, hst⟩ | ⟨t, cf, -, ⟨hrc, rfl⟩ | ⟨hrc, rv₁, r₁, hrun, hrest⟩⟩
    · exact ⟨hst ▸ hF r hI, fun hok => absurd hok hrv⟩
    · exact ⟨hF r hI, fun _ => hinv.ends _ _ _ _ hrc hI⟩
    · have hseen := hinv.handle k depth t r.trace ({ r with cf := cf }.see (.token depth t)) r₁ rv₁
      obtain ⟨hF₁, hI₁⟩ := hseen hrc hI rfl hrun
      rcases hrest with ⟨rfl, hrest⟩ | ⟨hrv, rfl⟩
      · exact ih (hI₁ rfl) hrest
      · exact ⟨hF₁, fun hok => absurd hok hrv⟩

theorem Invariant.param (hinv : Invariant modules I F scope) {text : Bytes} {st : σ} {r : Run σ}
    {rv : Rv} (hI : I st []) (h : param modules text scope st = some (rv, r)) : Comes I F rv r := by
  rw [Conf.param] at h
  split_ifs at h
  · cases h
    exact ⟨hinv.final st [] hI, fun _ => hI⟩
  · exact hinv.parseLoop hI h

theorem Invariant.parseFile (hinv : Invariant modules I F scope) {o : Opened} {filename : Bytes}
    {st : σ} {r : Run σ} {rv : Rv} (hI : I st [])
    (h : parseFile modules o filename scope st = some (rv, r)) : Comes I F rv r := by
  rw [Conf.parseFile] at h
  split_ifs at h
  · cases h
    exact ⟨hinv.final st [] hI, Rv.noConfusion⟩
  · cases h
    exact ⟨hinv.final st [] hI, Rv.noConfusion⟩
  · exact hinv.parseLoop hI h

end Keep

section Setters
variable {P : σ → Prop}

variable (P) in
/-- Every state that a setter leaves is in `P`, if what it parses leaves the state in `P`. -/
def Setter.Keeps : Setter σ → Prop
  | .done _ st => P st
  | .parse _ st k => P st ∧ ∀ rv st', P st' → (k rv st').Keeps

theorem Setter.Keeps.run {parse : Scope → Run σ → Option (Rv × Run σ)} {s : Setter σ}
    {r r' : Run σ} {rv : Rv} (h : s.Keeps P)
    (hparse : ∀ scope r rv r', P r.st → parse scope r = some (rv, r') → P r'.st)
    (hrun : s.run parse r = some (rv, r')) : P r'.st := by
  induction s generalizing r with
  | done rv st =>
    cases hrun
    exact h
  | parse scope st k ih =>
    obtain ⟨hst, hk⟩ := h
    rw [Setter.run] at hrun
    split at hrun
    · cases hrun
    · rename_i rv₁ r₁ hparse₁
      exact ih rv₁ r₁.st (hk rv₁ r₁.st (hparse _ _ _ _ hst hparse₁)) hrun

/-- What all setters keep is kept by the loop of every scope; the induction is on the tokens
that are left, of the nested calls too. -/
theorem parseLoop_keeps {k depth : ℕ} {kind : Kind} {scope : Scope} {r r' : Run σ} {rv : Rv}
    (hset : ∀ mod ∈ modules, ∀ cmd ∈ mod.commands, ∀ call st, P st → (cmd.set call st).Keeps P)
    (hP : P r.st) (h : parseLoop modules k kind depth scope r = some (rv, r')) : P r'.st := by
  induction k generalizing kind depth scope r r' rv with
  | zero => cases h
  | succ k ih =>
    rcases parseLoop_cases h with ⟨-, hst⟩ | ⟨t, cf, -, ⟨-, rfl⟩ | ⟨-, rv₁, r₁, hrun, hrest⟩⟩
    · exact hst ▸ hP
    · exact hP
    · have hP₁ : P r₁.st := by
        rcases handle_cases hrun with ⟨-, hst⟩ | ⟨mod, cmd, rv₂, r₂, hfind, -, hsetter, hst, -⟩
        · exact hst ▸ hP
        · obtain ⟨hmod, hcmd⟩ := mem_allCommands.mp (findCommand_mem hfind)
          rw [hst]
          exact (hset mod hmod cmd hcmd _ _ hP).run (fun _ _ _ _ => ih) hsetter
      rcases hrest with ⟨-, hrest⟩ | ⟨-, rfl⟩
      · exact ih hP₁ hrest
      · exact hP₁

end Setters

theorem param_remaining (hm : WellBehaved modules) {text : Bytes} {scope : Scope} {st : σ}
    {r : Run σ} (h : param modules text scope st = some (.ok, r)) : r.cf.remaining = 0 := by
  rw [param] at h
  split_ifs at h with htext
  · cases h
    rw [htext]
    rfl
  · obtain ⟨rv, r', hrun, hspec⟩ := parseLoop_spec hm _ .param 0 scope ⟨.param text, st, []⟩
      (ConfFile.bounded_param text) (Nat.lt_succ_self _) fun h => absurd rfl h
    obtain ⟨rfl, rfl⟩ : rv = .ok ∧ r' = r := by simpa using hrun.symm.trans h
    obtain ⟨seen, -, body, u, -, -, -, -, hrem⟩ := hspec.parsed rfl
    exact hrem

end Lingx.Conf

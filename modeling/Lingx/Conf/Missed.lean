import Lingx.Conf.Dispatch

/-! Searches of `handle_` that come to the end of the command tables. A run has seen the message
of such a search exactly if one of its calls of `handle_` finds no command. Where the tables
are followed by one that cannot be read, this tells the runs that come to it. -/

namespace Lingx.Conf

variable {σ : Type} {modules : List (Module σ)}

/-- The messages of a search that finds no command. -/
def ConfError.isMiss : ConfError → Bool
  | .notAllowedHere _ => true
  | .unknownDirective _ => true
  | _ => false

def Obs.isMiss : Obs → Bool
  | .message _ e => e.isMiss
  | _ => false

def Run.missed (r : Run σ) : Bool := r.trace.any Obs.isMiss

variable (modules) in
/-- A call of `handle_` that finds no command. -/
def HandleCall.Misses (c : HandleCall σ) : Prop :=
  ∃ e, findCommand c.scope (c.args.headD []) false (allCommands modules) = .error e

theorem Run.missed_see (r : Run σ) (o : Obs) : (r.see o).missed = (r.missed || o.isMiss) := by
  simp [Run.missed, Run.see]

theorem Run.missed_see_of {r : Run σ} {o : Obs} (h : o.isMiss = false) :
    (r.see o).missed = r.missed := by
  rw [Run.missed_see, h, Bool.or_false]

theorem isMiss_of_findCommand {scope : Scope} {name : Bytes} {found : Bool} {e : ConfError}
    {l : List (Module σ × Command σ)} (h : findCommand scope name found l = .error e) :
    e.isMiss = true := by
  induction l generalizing found with
  | nil =>
    rw [findCommand] at h
    split_ifs at h <;> cases h <;> rfl
  | cons q l ih =>
    obtain ⟨mod, cmd⟩ := q
    rw [findCommand] at h
    split_ifs at h
    · exact ih h
    · exact ih h
    · exact ih h

theorem isMiss_of_checkCommand {cmd : Command σ} {last : Rc} {args : List Bytes} {name : Bytes}
    {e : ConfError} (h : checkCommand cmd last args name = some e) : e.isMiss = false := by
  rw [checkCommand] at h
  split_ifs at h <;> cases h <;> rfl

section Runs
variable {parse : Scope → Run σ → Option (Rv × Run σ)} {H : Scope → Run σ → Prop}
  {r r' : Run σ} {rv : Rv}

/-- A setter misses where one of its calls of `parse("")` does. -/
theorem Setter.run_missed {s : Setter σ}
    (hparse : ∀ scope r₁ rv₁ r₂, s.Parses parse r scope r₁ → parse scope r₁ = some (rv₁, r₂) →
      (r₂.missed = true ↔ r₁.missed = true ∨ H scope r₁))
    (h : s.run parse r = some (rv, r')) : r'.missed = true ↔
      r.missed = true ∨ ∃ scope r₁, s.Parses parse r scope r₁ ∧ H scope r₁ := by
  induction s generalizing r with
  | done rv₀ st =>
    cases h
    refine ⟨.inl, ?_⟩
    rintro (h | ⟨_, _, hparses, -⟩)
    · exact h
    · cases hparses
  | parse scope st k ih =>
    rw [Setter.run] at h
    split at h
    · cases h
    · rename_i rv₁ r₁ hp
      have hfirst := hparse scope _ rv₁ r₁ .here hp
      have hrest := ih rv₁ r₁.st
        (fun scope' r₂ rv₂ r₃ hs => hparse scope' r₂ rv₂ r₃ (.later hp hs)) h
      rw [hrest, hfirst]
      constructor
      · rintro ((h | h) | ⟨scope', r₂, hparses, h⟩)
        · exact .inl h
        · exact .inr ⟨scope, _, .here, h⟩
        · exact .inr ⟨scope', r₂, .later hp hparses, h⟩
      · rintro (h | ⟨scope', r₂, hparses, h⟩)
        · exact .inl (.inl h)
        · cases hparses with
          | here => exact .inl (.inr h)
          | later hp' hparses =>
            obtain ⟨rfl, rfl⟩ := Prod.mk.inj (Option.some.inj (hp.symm.trans hp'))
            exact .inr ⟨scope', r₂, hparses, h⟩

theorem HandleCall.not_misses {c : HandleCall σ} {mod : Module σ} {cmd : Command σ}
    (h : findCommand c.scope (c.args.headD []) false (allCommands modules) = .ok (mod, cmd)) :
    ¬ c.Misses modules := by
  rintro ⟨e, he⟩
  rw [h] at he
  cases he

/-- A call that comes to its setter misses where the setter does. -/
theorem HandleCall.Sets.missed {c : HandleCall σ} {mod : Module σ} {cmd : Command σ}
    (hsets : c.Sets modules mod cmd)
    (hparse : ∀ scope r₁ rv₁ r₂, (c.setter mod cmd).Parses parse (c.setterRun cmd) scope r₁ →
      parse scope r₁ = some (rv₁, r₂) → (r₂.missed = true ↔ r₁.missed = true ∨ H scope r₁))
    (hrun : (c.setter mod cmd).run parse (c.setterRun cmd) = some (rv, r')) :
    r'.missed = true ↔ c.run.missed = true ∨ c.Misses modules ∨ ∃ mod cmd scope r₁,
      c.Sets modules mod cmd ∧ (c.setter mod cmd).Parses parse (c.setterRun cmd) scope r₁ ∧
      H scope r₁ := by
  rw [Setter.run_missed hparse hrun, HandleCall.setterRun, Run.missed_see_of rfl]
  refine or_congr_right ⟨?_, ?_⟩
  · rintro ⟨scope, r₁, hparses, h⟩
    exact .inr ⟨mod, cmd, scope, r₁, hsets, hparses, h⟩
  · rintro (h | ⟨mod', cmd', scope, r₁, hsets', hparses, h⟩)
    · exact absurd h (HandleCall.not_misses hsets.found)
    · obtain ⟨rfl, rfl⟩ := Prod.mk.inj (Except.ok.inj (hsets.found.symm.trans hsets'.found))
      exact ⟨scope, r₁, hparses, h⟩

theorem handle_missed {c : HandleCall σ}
    (hparse : ∀ mod cmd scope r₁ rv₁ r₂, c.Sets modules mod cmd →
      (c.setter mod cmd).Parses parse (c.setterRun cmd) scope r₁ →
      parse scope r₁ = some (rv₁, r₂) → (r₂.missed = true ↔ r₁.missed = true ∨ H scope r₁))
    (h : handle modules parse c.scope c.depth c.last c.args c.run = some (rv, r')) :
    r'.missed = true ↔ c.run.missed = true ∨ c.Misses modules ∨ ∃ mod cmd scope r₁,
      c.Sets modules mod cmd ∧ (c.setter mod cmd).Parses parse (c.setterRun cmd) scope r₁ ∧
      H scope r₁ := by
  simp only [handle] at h
  split at h
  · rename_i e hfind
    cases h
    rw [Run.missed_see, Obs.isMiss, isMiss_of_findCommand hfind, Bool.or_true]
    exact iff_of_true rfl (.inr (.inl ⟨e, hfind⟩))
  · rename_i mod cmd hfind
    split at h
    · rename_i e hcheck
      cases h
      have hquiet : (Obs.message c.depth e).isMiss = false := isMiss_of_checkCommand hcheck
      rw [Run.missed_see_of hquiet]
      refine ⟨.inl, ?_⟩
      rintro (h | h | ⟨mod', cmd', _, _, hsets, -⟩)
      · exact h
      · exact absurd h (HandleCall.not_misses hfind)
      · obtain ⟨rfl, rfl⟩ := Prod.mk.inj (Except.ok.inj (hfind.symm.trans hsets.found))
        exact absurd (hcheck.symm.trans hsets.checked) (by simp)
    · rename_i hcheck
      have hsets : c.Sets modules mod cmd := ⟨hfind, hcheck⟩
      have hparse' := fun scope r₁ rv₁ r₂ => hparse mod cmd scope r₁ rv₁ r₂ hsets
      split at h
      · cases h
      · rename_i hrun
        cases h
        exact hsets.missed hparse' hrun
      · rename_i hrun
        cases h
        exact hsets.missed hparse' hrun
      · rename_i hrun
        cases h
        rw [Run.missed_see_of rfl]
        exact hsets.missed hparse' hrun

end Runs

section Loop
variable {kind : Kind} {depth k : ℕ} {scope : Scope} {r r' : Run σ} {rv : Rv}
  {c c' : HandleCall σ}

theorem Gives.eq {t : Token} {cf : ConfFile} (h : Gives kind depth scope r c)
    (hread : readToken r.cf = some (t, cf)) : (∀ e, t.rc ≠ .error e) ∧ t.rc ≠ .blockDone ∧
      t.rc ≠ .fileDone ∧ ¬(t.rc = .blockStart ∧ kind = .param) ∧
      c = ⟨scope, depth, t.rc, t.args, { r with cf := cf }.see (.token depth t)⟩ := by
  obtain ⟨hread', herr, hdone, hfile, hparam⟩ := h
  obtain ⟨rfl, rfl⟩ := Prod.mk.inj (Option.some.inj (hread.symm.trans hread'))
  exact ⟨herr, hdone, hfile, hparam, rfl⟩

theorem Handles.gives (h : Handles modules (k + 1) kind depth scope r c) :
    ∃ c', Gives kind depth scope r c' := by
  cases h with
  | here hgives => exact ⟨_, hgives⟩
  | next hgives _ _ => exact ⟨_, hgives⟩
  | nested hgives _ _ _ => exact ⟨_, hgives⟩

theorem Gives.unique (h : Gives kind depth scope r c) (h' : Gives kind depth scope r c') :
    c' = c := by
  obtain ⟨hread, -⟩ := h
  exact (h'.eq hread).2.2.2.2

/-- The calls of a loop, where it gives its next token to `handle_`. -/
theorem handles_succ (hgives : Gives kind depth scope r c) :
    Handles modules (k + 1) kind depth scope r c' ↔ c' = c ∨
      (∃ r₁, handle modules (nestedParse modules k depth) scope depth c.last c.args c.run =
        some (.ok, r₁) ∧ Handles modules k kind depth scope r₁ c') ∨
      ∃ mod cmd scope' r₁, c.Sets modules mod cmd ∧
        (c.setter mod cmd).Parses (nestedParse modules k depth) (c.setterRun cmd) scope' r₁ ∧
        Handles modules k (.nested r₁.cf) (depth + 1) scope' r₁ c' := by
  constructor
  · intro h
    cases h with
    | here h => exact .inl (hgives.unique h)
    | next h hrun hrest =>
      obtain rfl := hgives.unique h
      exact .inr (.inl ⟨_, hrun, hrest⟩)
    | nested h hsets hparses hrest =>
      obtain rfl := hgives.unique h
      exact .inr (.inr ⟨_, _, _, _, hsets, hparses, hrest⟩)
  · rintro (rfl | ⟨r₁, hrun, hrest⟩ | ⟨mod, cmd, scope', r₁, hsets, hparses, hrest⟩)
    · exact .here hgives
    · exact .next hgives hrun hrest
    · exact .nested hgives hsets hparses hrest

variable (modules) in
/-- A call of `handle_` misses itself, or in a call of `parse("")`. -/
def HandleCall.MissesIn (k : ℕ) (c : HandleCall σ) : Prop :=
  c.Misses modules ∨ ∃ mod cmd scope r₁, c.Sets modules mod cmd ∧
    (c.setter mod cmd).Parses (nestedParse modules k c.depth) (c.setterRun cmd) scope r₁ ∧
    ∃ c', Handles modules k (.nested r₁.cf) (c.depth + 1) scope r₁ c' ∧ c'.Misses modules

theorem Gives.depth_eq (h : Gives kind depth scope r c) : c.depth = depth ∧ c.scope = scope := by
  cases h
  exact ⟨rfl, rfl⟩

theorem handles_misses (hgives : Gives kind depth scope r c) {r₁ : Run σ}
    (hrun : handle modules (nestedParse modules k c.depth) c.scope c.depth c.last c.args c.run =
      some (rv, r₁)) :
    (∃ c', Handles modules (k + 1) kind depth scope r c' ∧ c'.Misses modules) ↔
      c.MissesIn modules k ∨
        rv = .ok ∧ ∃ c', Handles modules k kind depth scope r₁ c' ∧ c'.Misses modules := by
  obtain ⟨rfl, rfl⟩ := hgives.depth_eq
  simp only [handles_succ hgives]
  constructor
  · rintro ⟨c', rfl | ⟨r₂, hrun', hrest⟩ | ⟨mod, cmd, scope', r₂, hsets, hparses, hrest⟩, hmiss⟩
    · exact .inl (.inl hmiss)
    · obtain ⟨rfl, rfl⟩ := Prod.mk.inj (Option.some.inj (hrun.symm.trans hrun'))
      exact .inr ⟨rfl, c', hrest, hmiss⟩
    · exact .inl (.inr ⟨mod, cmd, scope', r₂, hsets, hparses, c', hrest, hmiss⟩)
  · rintro ((hmiss | ⟨mod, cmd, scope', r₂, hsets, hparses, c', hrest, hmiss⟩) |
      ⟨rfl, c', hrest, hmiss⟩)
    · exact ⟨c, .inl rfl, hmiss⟩
    · exact ⟨c', .inr (.inr ⟨mod, cmd, scope', r₂, hsets, hparses, hrest⟩), hmiss⟩
    · exact ⟨c', .inr (.inl ⟨r₁, hrun, hrest⟩), hmiss⟩

/-- Without a next directive there is no call that could miss. -/
theorem missed_of_not_gives (hno : ∀ c, ¬ Gives kind depth scope r c) : r.missed = true ↔
    r.missed = true ∨ ∃ c, Handles modules (k + 1) kind depth scope r c ∧ c.Misses modules := by
  refine ⟨.inl, ?_⟩
  rintro (h | ⟨c, hc, -⟩)
  · exact h
  · obtain ⟨c', hc'⟩ := hc.gives
    exact absurd hc' (hno c')

/-- A loop has seen a miss exactly if one of its calls of `handle_` misses. -/
theorem parseLoop_missed (h : parseLoop modules k kind depth scope r = some (rv, r')) :
    r'.missed = true ↔ r.missed = true ∨
      ∃ c, Handles modules k kind depth scope r c ∧ c.Misses modules := by
  induction k generalizing kind depth scope r rv r' with
  | zero => cases h
  | succ k ih =>
    rw [parseLoop] at h
    split at h
    · cases h
    rename_i t cf hread
    have htoken : ({ r with cf := cf }.see (.token depth t)).missed = r.missed :=
      Run.missed_see_of rfl
    have hnone (hno : ∀ c, ¬ Gives kind depth scope r c) : r.missed = true ↔ r.missed = true ∨
        ∃ c, Handles modules (k + 1) kind depth scope r c ∧ c.Misses modules :=
      missed_of_not_gives hno
    dsimp only at h
    split at h
    · rename_i e hrc
      cases h
      rw [htoken]
      exact hnone fun c hc => (hc.eq hread).1 e hrc
    · rename_i hrc
      have hend := hnone fun c hc => (hc.eq hread).2.1 hrc
      split_ifs at h <;> cases h
      · rw [Run.missed_see_of rfl, htoken, ← hend]
      · rw [htoken, ← hend]
    · rename_i hrc
      have hend := hnone fun c hc => (hc.eq hread).2.2.1 hrc
      split_ifs at h <;> cases h
      · rw [Run.missed_see_of rfl, htoken, ← hend]
      · rw [htoken, ← hend]
    · rename_i herror hblockDone hfileDone
      split_ifs at h with hkind
      · cases h
        rw [Run.missed_see_of rfl, htoken]
        exact hnone fun c hc => (hc.eq hread).2.2.2.1 hkind
      have hgives : Gives kind depth scope r
          ⟨scope, depth, t.rc, t.args, { r with cf := cf }.see (.token depth t)⟩ :=
        .intro hread herror hblockDone hfileDone hkind
      obtain ⟨c, hc⟩ : ∃ c : HandleCall σ,
          c = ⟨scope, depth, t.rc, t.args, { r with cf := cf }.see (.token depth t)⟩ := ⟨_, rfl⟩
      rw [← hc] at hgives
      have hhandle {rv₁ : Rv} {r₁ : Run σ} (hrun : handle modules (nestedParse modules k c.depth)
          c.scope c.depth c.last c.args c.run = some (rv₁, r₁)) :
          r₁.missed = true ↔ r.missed = true ∨ c.MissesIn modules k := by
        have hseen : c.run.missed = r.missed := hc ▸ htoken
        rw [handle_missed (fun _ _ _ _ _ _ _ _ hp => ih hp) hrun, hseen]
        exact .rfl
      split at h
      · cases h
      · rename_i r₁ hrun
        have hrun' : handle modules (nestedParse modules k c.depth) c.scope c.depth c.last c.args
            c.run = some (.ok, r₁) := by
          rw [hc]
          exact hrun
        rw [ih h, hhandle hrun', handles_misses hgives hrun', or_assoc]
        exact or_congr_right (or_congr_right (and_iff_right rfl).symm)
      · rename_i rv₁ r₁ hok hrun
        have hrun' : handle modules (nestedParse modules k c.depth) c.scope c.depth c.last c.args
            c.run = some (rv₁, r₁) := by
          rw [hc]
          exact hrun
        cases h
        rw [hhandle hrun', handles_misses hgives hrun']
        exact or_congr_right (or_iff_left fun h => hok h.1).symm

variable (modules) in
/-- The calls of `handle_` in `Conf::param`. -/
def ParamHandles (text : Bytes) (scope : Scope) (st : σ) (c : HandleCall σ) : Prop :=
  text ≠ [] ∧
    Handles modules ((ConfFile.param text).remaining + 1) .param 0 scope ⟨.param text, st, []⟩ c

variable (modules) in
/-- The calls of `handle_` in `Conf::parse` with the name of a file. -/
def FileHandles (o : Opened) (filename : Bytes) (scope : Scope) (st : σ) (c : HandleCall σ) :
    Prop :=
  o.fd ≠ -1 ∧ ∃ size, o.stat = some size ∧
    Handles modules ((ConfFile.opened o.fd filename size o.pread).remaining + 1) .file 0 scope
      ⟨.opened o.fd filename size o.pread, st, []⟩ c

theorem param_missed {text : Bytes} {st : σ} (h : param modules text scope st = some (rv, r)) :
    r.missed = true ↔ ∃ c, ParamHandles modules text scope st c ∧ c.Misses modules := by
  rw [param] at h
  split_ifs at h with htext
  · cases h
    refine iff_of_false Bool.false_ne_true ?_
    rintro ⟨_, ⟨hne, -⟩, -⟩
    exact hne htext
  · rw [parseLoop_missed h]
    simp [Run.missed, ParamHandles, htext]

theorem parseFile_missed {o : Opened} {filename : Bytes} {st : σ}
    (h : parseFile modules o filename scope st = some (rv, r)) : r.missed = true ↔
      ∃ c, FileHandles modules o filename scope st c ∧ c.Misses modules := by
  rw [parseFile] at h
  split_ifs at h with hfd hstat
  · cases h
    refine iff_of_false Bool.false_ne_true ?_
    rintro ⟨_, ⟨hne, -⟩, -⟩
    exact hne hfd
  · cases h
    refine iff_of_false Bool.false_ne_true ?_
    rintro ⟨_, ⟨-, size, hsize, -⟩, -⟩
    rw [hstat] at hsize
    cases hsize
  · obtain ⟨size, hsize⟩ := Option.ne_none_iff_exists'.mp hstat
    rw [parseLoop_missed h]
    simp [Run.missed, FileHandles, hfd, hsize]

end Loop

end Lingx.Conf
